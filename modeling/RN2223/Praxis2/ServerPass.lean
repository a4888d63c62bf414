import Mathlib.Data.List.Nodup
import Mathlib.Order.Nat
import Mathlib.Algebra.Order.Ring.Int
import RN2223.Praxis2.ServerRun

/-!
# Index and pointer in a pass

The loop over the clients counts up an index while records are unlinked and the
bound goes down. What matters of a record is its key: the record and its socket.
-/

namespace RN2223.Praxis2
open CMemory Machine

/-! ### Keys -/

def Node.key (n : Node) : ℕ × Int := (n.id, n.client.socket)

def RunningServer.keys (srv : RunningServer) : List (ℕ × Int) := srv.clients.map Node.key

def keyIs (c : ℕ) (k : ℕ × Int) : Bool := k.1 == c

theorem markNode_key (ns : List Node) (socket : Int) :
    (markNode ns socket).map Node.key = ns.map Node.key := by
  induction ns with
  | nil => rfl
  | cons n next ih =>
    rw [markNode]
    split
    · rfl
    · rw [List.map_cons, ih, List.map_cons]

theorem closeSockets_keys (srv : RunningServer) (sockets : List Int) :
    (srv.closeSockets sockets).keys = srv.keys := by
  induction sockets generalizing srv with
  | nil => rfl
  | cons s sockets ih =>
    have hone : (srv.closeSockets (s :: sockets)) = (srv.closeSockets [s]).closeSockets sockets := rfl
    rw [hone, ih]
    exact markNode_key srv.clients s

theorem update_keys {srv : RunningServer} {c : ℕ} {client : Client}
    (h : ∀ n ∈ srv.clients, n.id = c → client.socket = n.client.socket) :
    (srv.update c client).keys = srv.keys := by
  rw [RunningServer.keys, RunningServer.update, List.map_map]
  refine List.map_congr_left fun n hn => ?_
  rw [Function.comp_apply]
  split
  · next hid => exact Prod.ext rfl (h n hn hid)
  · rfl

theorem remove_keys {srv : RunningServer} {c : ℕ} {s : Int} {a b : List (ℕ × Int)}
    (h : srv.keys = a ++ (c, s) :: b) (hc : c ∉ a.map Prod.fst) :
    (srv.remove c).keys = a ++ b ∧ (srv.remove c).nClients = srv.nClients - 1 := by
  have hmem : (c, s) ∈ srv.keys := by
    rw [h]
    exact List.mem_append_right _ List.mem_cons_self
  obtain ⟨n, hn, hkey⟩ := List.mem_map.mp hmem
  have hany : (srv.clients.any fun n => n.id == c) = true :=
    List.any_eq_true.mpr ⟨n, hn, beq_iff_eq.mpr (congrArg Prod.fst hkey)⟩
  rw [RunningServer.remove, if_pos hany]
  refine ⟨?_, rfl⟩
  have hfront : ∀ k ∈ a, ¬ keyIs c k = true := fun k hk he =>
    hc (List.mem_map.mpr ⟨k, hk, beq_iff_eq.mp he⟩)
  have hhead : keyIs c (c, s) = true := beq_self_eq_true c
  show (srv.clients.eraseP fun n => n.id == c).map Node.key = _
  have hmap : (srv.clients.eraseP fun n => n.id == c).map Node.key = srv.keys.eraseP (keyIs c) :=
    (List.eraseP_map (f := Node.key) (p := keyIs c) (l := srv.clients)).symm
  rw [hmap, h, List.eraseP_append_right _ hfront, List.eraseP_cons_of_pos hhead]

theorem key_unique {srv : RunningServer} (h : (srv.keys.map Prod.fst).Nodup) {c : ℕ} {s : Int}
    (hc : (c, s) ∈ srv.keys) {n : Node} (hn : n ∈ srv.clients) (hid : n.id = c) :
    n.client.socket = s := by
  have hkey := List.inj_on_of_nodup_map h (List.mem_map_of_mem hn) hc hid
  exact congrArg Prod.snd hkey

theorem derefNode_keys {ns : List Node} {c : ℕ} {s : Int} {a b : List (ℕ × Int)}
    (h : ns.map Node.key = a ++ (c, s) :: b) (hc : c ∉ a.map Prod.fst) :
    ∃ client, derefNode ns c = .ok (client, b.head?.map Prod.fst) ∧ client.socket = s ∧
      ⟨c, client⟩ ∈ ns := by
  induction ns generalizing a with
  | nil => exact absurd h.symm (List.append_ne_nil_of_right_ne_nil _ (List.cons_ne_nil _ _))
  | cons n next ih =>
    cases a with
    | nil =>
      obtain ⟨hkey, hrest⟩ := List.cons.inj h
      have hid : n.id = c := congrArg Prod.fst hkey
      subst hid
      refine ⟨n.client, ?_, congrArg Prod.snd hkey, List.mem_cons_self⟩
      rw [derefNode, if_pos rfl, ← hrest, List.head?_map, Option.map_map]
      rfl
    | cons k a =>
      obtain ⟨hkey, hrest⟩ := List.cons.inj h
      have hne : n.id ≠ c := by
        intro he
        apply hc
        rw [List.map_cons, ← hkey, ← he]
        exact List.mem_cons_self
      obtain ⟨client, hderef, hsocket, hmem⟩ :=
        ih hrest fun hm => hc (List.mem_cons_of_mem _ hm)
      exact ⟨client, by rw [derefNode, if_neg hne, hderef], hsocket, List.mem_cons_of_mem _ hmem⟩

/-! ### What the service of a client keeps -/

def Served.Keeps (c : Client) : Served → Prop
  | .kept c' => c'.socket = c.socket ∧
      (c'.state = c.state ∨ c.state = .idle ∧ c'.state = .hdrRecvd) ∧
      (c'.state = .hdrRecvd → c'.pktBuf.isSome = true)
  | .deliver c' _ => c'.socket = c.socket ∧ c'.state = .idle
  | .closed => True

theorem serveIdle_keeps [Stack] {c : Client} {recv : ℕ → Recv} {out : Served} (hc : c.state = .idle)
    (h : serveIdle c recv = .ok out) : out.Keeps c := by
  have hidle : c.state = .hdrRecvd → c.pktBuf.isSome = true := fun he => by
    rw [hc] at he
    cases he
  obtain ⟨n, -, h⟩ := bind_eq_ok.mp h
  split at h
  · dsimp only at h
    split at h
    · obtain ⟨c', hdec, h⟩ := bind_eq_ok.mp h
      cases h
      obtain ⟨pack, -, hdec⟩ := bind_eq_ok.mp hdec
      cases pack with
      | none => cases hdec
      | some p =>
        cases hdec
        exact ⟨rfl, Or.inr ⟨hc, rfl⟩, fun _ => rfl⟩
    · cases h
      exact ⟨rfl, Or.inl rfl, hidle⟩
  · cases h
    trivial
  · cases h
    exact ⟨rfl, Or.inl rfl, hidle⟩

theorem serveBody_keeps [Stack] {c : Client} {b : RingBuffer} {recv : ℕ → Recv} {out : Served}
    (hb : c.pktBuf = some b) (h : serveBody c b recv = .ok out) : out.Keeps c := by
  obtain ⟨n, -, h⟩ := bind_eq_ok.mp h
  split at h
  · dsimp only at h
    split at h
    · obtain ⟨c', hdec, h⟩ := bind_eq_ok.mp h
      cases h
      obtain ⟨-, -, q, -, -, -, rfl⟩ := clientDecodeBody_cases hdec
      exact ⟨rfl, rfl⟩
    · cases h
      exact ⟨rfl, Or.inl rfl, fun _ => rfl⟩
  · cases h
    trivial
  · cases h
    exact ⟨rfl, Or.inl rfl, fun _ => by rw [hb]; rfl⟩

theorem serveClient_keeps [Stack] {c : Client} {recv : ℕ → Recv} {out : Served}
    (h : serveClient c recv = .ok out) : out.Keeps c := by
  unfold serveClient at h
  split at h
  · next hc => exact serveIdle_keeps hc h
  · split at h
    · next b hb => exact serveBody_keeps hb h
    · cases h

/-! ### One iteration -/

def PassEvent.consulted? : PassEvent → Option (ℕ × Int)
  | .consulted c fd => some (c, fd)
  | _ => none

theorem mem_receivedEvents [Stack] {c : ℕ} {client : Client} {arrival : Arrival} {e : PassEvent}
    (h : e ∈ receivedEvents c client arrival) : ∃ n, e = .received c n := by
  unfold receivedEvents at h
  split at h
  · cases h
  · split at h
    · exact ⟨_, List.mem_singleton.mp h⟩
    · cases h

theorem mem_enteredEvents [Stack] {c : ℕ} {client : Client} {arrival : Arrival} {e : PassEvent}
    (h : e ∈ enteredEvents c client arrival) :
    (client.state ≠ .idle ∧ e = .body c client.state client.pktBuf.isSome) ∨
      ∃ n, e = .received c n := by
  obtain h | h := List.mem_append.mp h
  · split at h
    · cases h
    · next hstate => exact Or.inl ⟨hstate, List.mem_singleton.mp h⟩
  · exact Or.inr (mem_receivedEvents h)

theorem filterMap_consulted_nil {es : List PassEvent}
    (h : ∀ c fd, PassEvent.consulted c fd ∉ es) : es.filterMap PassEvent.consulted? = [] := by
  refine List.filterMap_eq_nil_iff.mpr fun e he => ?_
  cases e with
  | consulted c fd => exact absurd he (h c fd)
  | _ => rfl

section
variable {p : Pass} {c : ℕ} {client : Client} {o : Outcome} {a b : List (ℕ × Int)}

/-- What the service of the client `c` does to the list: nothing, or `c` leaves it. -/
structure ServesKeys (p q : Pass) (c : ℕ) (a b : List (ℕ × Int)) : Prop where
  index : q.i = p.i
  pointer : q.c = p.c
  events : ∃ es, q.events = p.events ++ es ∧ (∀ d fd, PassEvent.consulted d fd ∉ es) ∧
    ((∀ d, .removed d ∉ es) ∧ q.srv.keys = p.srv.keys ∧ q.srv.nClients = p.srv.nClients ∨
      (∀ d, .removed d ∈ es ↔ d = c) ∧ q.srv.keys = a ++ b ∧
        q.srv.nClients = p.srv.nClients - 1)

theorem no_consulted_append {es : List PassEvent} {e : PassEvent}
    (hes : ∀ d fd, PassEvent.consulted d fd ∉ es) (he : ∀ d fd, PassEvent.consulted d fd ≠ e) :
    ∀ d fd, PassEvent.consulted d fd ∉ es ++ [e] := fun d fd =>
  List.not_mem_append (hes d fd) fun hd => he d fd (List.mem_singleton.mp hd)

theorem mem_removed_append {es : List PassEvent} (hes : ∀ d, PassEvent.removed d ∉ es) (d : ℕ) :
    .removed d ∈ es ++ [PassEvent.removed c] ↔ d = c := by
  rw [List.mem_append, List.mem_singleton, PassEvent.removed.injEq]
  exact or_iff_right (hes d)

theorem serve_keys [Stack] (h : p.srv.keys = a ++ (c, client.socket) :: b)
    (hnodup : (p.srv.keys.map Prod.fst).Nodup) : ServesKeys p (p.serve c client o) c a b := by
  have hfront : c ∉ a.map Prod.fst := by
    rw [h, List.map_append, List.map_cons] at hnodup
    intro hc
    exact (List.nodup_append.mp hnodup).2.2 c hc c List.mem_cons_self rfl
  have hentered : ∀ e ∈ enteredEvents c client o.arrival,
      (∀ d fd, e ≠ .consulted d fd) ∧ ∀ d, e ≠ .removed d := by
    intro e he
    obtain ⟨-, rfl⟩ | ⟨n, rfl⟩ := mem_enteredEvents he
    · exact ⟨fun d fd he => (nomatch he), fun d he => (nomatch he)⟩
    · exact ⟨fun d fd he => (nomatch he), fun d he => (nomatch he)⟩
  have hno : ∀ d fd, PassEvent.consulted d fd ∉ enteredEvents c client o.arrival :=
    fun d fd hd => (hentered _ hd).1 d fd rfl
  have hstay : ∀ d, PassEvent.removed d ∉ enteredEvents c client o.arrival :=
    fun d hd => (hentered _ hd).2 d rfl
  have hupdate : ∀ client', client'.socket = client.socket →
      (p.srv.update c client').keys = p.srv.keys := by
    intro client' hsocket
    refine update_keys fun n hn hid => ?_
    have hmem : (c, client.socket) ∈ p.srv.keys := by
      rw [h]
      exact List.mem_append_right _ List.mem_cons_self
    rw [key_unique hnodup hmem hn hid, hsocket]
  unfold Pass.serve
  dsimp only
  cases hserve : serveClient client o.arrival.recv with
  | error f => exact ⟨rfl, rfl, _, rfl, hno, Or.inl ⟨hstay, rfl, rfl⟩⟩
  | ok out =>
    have hkeeps := serveClient_keeps hserve
    cases out with
    | kept client' => exact ⟨rfl, rfl, _, rfl, hno, Or.inl ⟨hstay, hupdate client' hkeeps.1, rfl⟩⟩
    | closed =>
      obtain ⟨hkeys, hn⟩ := remove_keys h hfront
      exact ⟨rfl, rfl, _, List.append_assoc .., no_consulted_append hno (fun d fd he => by cases he),
        Or.inr ⟨mem_removed_append hstay, hkeys, hn⟩⟩
    | deliver client' pack =>
      have hkeys : ((p.srv.update c client').closeSockets o.marks).keys = p.srv.keys :=
        (closeSockets_keys _ _).trans (hupdate client' hkeeps.1)
      have hno' : ∀ d fd, PassEvent.consulted d fd ∉
          enteredEvents c client o.arrival ++ [.delivered c] :=
        no_consulted_append hno fun d fd he => by cases he
      have hstay' : ∀ d, PassEvent.removed d ∉
          enteredEvents c client o.arrival ++ [.delivered c] := fun d =>
        List.not_mem_append (hstay d) fun hd => by cases List.mem_singleton.mp hd
      dsimp only
      split
      · obtain ⟨hkeys', hn⟩ := remove_keys (hkeys.trans h) hfront
        have hevents : p.events ++ enteredEvents c client o.arrival ++ [.delivered c] ++
            [.removed c] = p.events ++
            (enteredEvents c client o.arrival ++ [.delivered c] ++ [.removed c]) := by
          simp only [List.append_assoc]
        exact ⟨rfl, rfl, _, hevents, no_consulted_append hno' (fun d fd he => by cases he),
          Or.inr ⟨mem_removed_append hstay', hkeys', hn⟩⟩
      · exact ⟨rfl, rfl, _, List.append_assoc .., hno', Or.inl ⟨hstay', hkeys, rfl⟩⟩

end

/-! ### The loop -/

structure ServerOk (srv : RunningServer) : Prop where
  nodup : (srv.keys.map Prod.fst).Nodup
  count : srv.nClients = srv.clients.length
  below : ∀ n ∈ srv.clients, n.id < srv.nextId
  unmarked : ∀ n ∈ srv.clients, n.client.state ≠ .remove
  body : ∀ n ∈ srv.clients, n.client.state = .hdrRecvd → n.client.pktBuf.isSome = true

/-- The clients `seen` so far and those `todo`: the former are still in the list
unless they were removed. -/
structure Dispatching (srv : RunningServer) (p : Pass) (seen todo : List (ℕ × Int)) : Prop where
  split : srv.keys = seen ++ todo
  now : p.srv.keys = (seen.filter fun k => PassEvent.removed k.1 ∉ p.events) ++ todo
  pointer : p.c = todo.head?.map Prod.fst
  index : p.i = seen.length + 2
  count : p.srv.nClients = p.srv.keys.length
  removed : ∀ c, .removed c ∈ p.events → c ∈ seen.map Prod.fst
  consulted : p.events.filterMap PassEvent.consulted? = seen

/-- An iteration for the record `c` and the entry `e`. -/
def Pass.visit [Stack] (p : Pass) (c : ℕ) (client : Client) (next : Option ℕ) (e : PollFd) (o : Outcome) :
    Pass :=
  let q := p.log [.consulted c e.fd]
  let q := if e.revents = pollIn then q.serve c client o else q
  { q with i := p.i + 1, c := next }

section
variable {srv : RunningServer} {x : PollInput} {p : Pass} {seen todo rest : List (ℕ × Int)} {c : ℕ}
  {s : Int}

theorem pollSet_eq (h : ServerOk srv) : pollSet srv = 0 :: srv.socket :: srv.keys.map Prod.snd := by
  have hsockets : srv.clients.map (fun node => node.client.socket) = srv.keys.map Prod.snd := by
    rw [RunningServer.keys, List.map_map]
    rfl
  have hlen : srv.nClients.toNat = (srv.keys.map Prod.snd).length := by
    rw [h.count, RunningServer.keys, List.length_map, List.length_map]
    exact Int.toNat_natCast _
  rw [pollSet, hsockets, hlen, List.take_length, Nat.sub_self, List.replicate_zero, List.append_nil]
  rfl

theorem polled_length (h : ServerOk srv) : (polled srv x).length = srv.keys.length + 2 := by
  rw [polled, List.length_mapIdx, pollSet_eq h, List.length_cons, List.length_cons, List.length_map]

theorem polled_get (h : ServerOk srv) (hsplit : srv.keys = seen ++ (c, s) :: rest) :
    (polled srv x)[seen.length + 2]? = some ⟨s, x.revents (seen.length + 2)⟩ := by
  rw [polled, List.getElem?_mapIdx, pollSet_eq h, List.getElem?_cons_succ, List.getElem?_cons_succ,
    hsplit, List.map_append, List.getElem?_append_right (by rw [List.length_map]), List.length_map,
    Nat.sub_self]
  rfl

theorem dispatching_start (h : ServerOk srv) : Dispatching srv (Pass.start srv) [] srv.keys where
  split := rfl
  now := rfl
  pointer := by
    rw [RunningServer.keys, List.head?_map, Option.map_map]
    rfl
  index := rfl
  count := h.count.trans (by rw [RunningServer.keys, List.length_map]; rfl)
  removed c hc := absurd hc List.not_mem_nil
  consulted := rfl

theorem Dispatching.fresh (h : Dispatching srv p seen ((c, s) :: rest)) (hok : ServerOk srv) :
    c ∉ seen.map Prod.fst := by
  have hnodup := hok.nodup
  rw [h.split, List.map_append, List.map_cons] at hnodup
  intro hc
  exact (List.nodup_append.mp hnodup).2.2 c hc c List.mem_cons_self rfl

theorem Dispatching.sublist (h : Dispatching srv p seen todo) :
    List.Sublist p.srv.keys srv.keys := by
  rw [h.now, h.split]
  exact List.Sublist.append_right List.filter_sublist _

theorem Dispatching.nodup (h : Dispatching srv p seen todo) (hok : ServerOk srv) :
    (p.srv.keys.map Prod.fst).Nodup :=
  hok.nodup.sublist (h.sublist.map _)

theorem Dispatching.deref (h : Dispatching srv p seen ((c, s) :: rest)) (hok : ServerOk srv) :
    ∃ client, derefNode p.srv.clients c = .ok (client, rest.head?.map Prod.fst) ∧
      client.socket = s ∧ ⟨c, client⟩ ∈ p.srv.clients := by
  refine derefNode_keys h.now fun hc => h.fresh hok ?_
  exact (List.filter_sublist.map Prod.fst).mem hc

theorem Dispatching.step_eq [Stack] (h : Dispatching srv p seen ((c, s) :: rest)) (hok : ServerOk srv)
    (hrun : p.Running) {client : Client}
    (hderef : derefNode p.srv.clients c = .ok (client, rest.head?.map Prod.fst)) :
    p.step (polled srv x) x.outcome =
      p.visit c client (rest.head?.map Prod.fst) ⟨s, x.revents p.i⟩ (x.outcome p.i) := by
  have hc : p.c = some c := h.pointer
  have hget := polled_get (x := x) hok h.split
  rw [← h.index] at hget
  simp only [Pass.step, if_pos hrun, hc, hderef, hget]
  rfl

/-- Whether or not the client is served, the list keeps it or it is unlinked. -/
theorem Dispatching.visit_keys [Stack] {client : Client}
    (h : Dispatching srv p seen ((c, client.socket) :: rest)) (hok : ServerOk srv)
    (revents : UInt16) (o : Outcome) (next : Option ℕ) :
    ∃ q : Pass, p.visit c client next ⟨client.socket, revents⟩ o =
        { q with i := p.i + 1, c := next } ∧
      ∃ es, q.events = p.events ++ (.consulted c client.socket :: es) ∧
        (∀ d fd, PassEvent.consulted d fd ∉ es) ∧
        ((∀ d, .removed d ∉ es) ∧ q.srv.keys = p.srv.keys ∧ q.srv.nClients = p.srv.nClients ∨
          (∀ d, .removed d ∈ es ↔ d = c) ∧
            q.srv.keys = (seen.filter fun k => PassEvent.removed k.1 ∉ p.events) ++ rest ∧
            q.srv.nClients = p.srv.nClients - 1) := by
  by_cases hready : revents = pollIn
  · have hlogged : (p.log [.consulted c client.socket]).srv.keys = _ := h.now
    obtain ⟨-, -, es, hes, hno, hlist⟩ := serve_keys (o := o) hlogged (h.nodup hok)
    refine ⟨(p.log [.consulted c client.socket]).serve c client o, ?_, es, ?_, hno, hlist⟩
    · simp only [Pass.visit, if_pos hready]
    · rw [hes, Pass.log, List.append_assoc, List.singleton_append]
  · refine ⟨p.log [.consulted c client.socket], ?_, [], rfl, fun d fd => List.not_mem_nil,
      Or.inl ⟨fun d => List.not_mem_nil, rfl, rfl⟩⟩
    simp only [Pass.visit, if_neg hready]

theorem Dispatching.visit [Stack] (h : Dispatching srv p seen ((c, s) :: rest)) (hok : ServerOk srv)
    {client : Client} (hsocket : client.socket = s) (revents : UInt16) (o : Outcome) :
    Dispatching srv (p.visit c client (rest.head?.map Prod.fst) ⟨s, revents⟩ o)
      (seen ++ [(c, s)]) rest := by
  subst hsocket
  have hsplit : srv.keys = seen ++ [(c, client.socket)] ++ rest := by
    rw [List.append_assoc, List.singleton_append, h.split]
  have hfresh := h.fresh hok
  have hcount := h.count
  have hstay : PassEvent.removed c ∉ p.events := fun hc => hfresh (h.removed c hc)
  have hindex : p.i + 1 = (seen ++ [(c, client.socket)]).length + 2 := by
    rw [h.index, List.length_append]
    rfl
  obtain ⟨q, hq, es, hes, hno, hlist⟩ :=
    h.visit_keys hok revents o (rest.head?.map Prod.fst)
  have hconsulted : q.events.filterMap PassEvent.consulted? = seen ++ [(c, client.socket)] := by
    have hhead : PassEvent.consulted? (.consulted c client.socket) = some (c, client.socket) := rfl
    rw [hes, List.filterMap_append, h.consulted, List.filterMap_cons_some hhead,
      filterMap_consulted_nil hno]
  have hremoved : ∀ d, .removed d ∈ q.events ↔ .removed d ∈ p.events ∨ .removed d ∈ es := by
    intro d
    have hne : PassEvent.removed d ≠ .consulted c client.socket := fun he => (nomatch he)
    rw [hes, List.mem_append, List.mem_cons, or_iff_right hne]
  rw [hq]
  obtain ⟨hnone, hkeys, hn⟩ | ⟨hone, hkeys, hn⟩ := hlist
  · have hsame : ∀ d, .removed d ∈ q.events ↔ .removed d ∈ p.events := fun d =>
      (hremoved d).trans (or_iff_left (hnone d))
    refine ⟨hsplit, ?_, rfl, hindex, ?_, ?_, hconsulted⟩
    · show q.srv.keys = (List.filter (fun k => PassEvent.removed k.1 ∉ q.events) _) ++ rest
      simp only [hsame, List.filter_append, List.filter_cons, List.filter_nil, hstay,
        not_false_eq_true, decide_true, if_true, List.append_assoc, List.singleton_append]
      rw [hkeys, h.now]
    · show q.srv.nClients = q.srv.keys.length
      rw [hn, hkeys, hcount]
    · intro d hd
      rw [List.map_append]
      exact List.mem_append_left _ (h.removed d ((hsame d).mp hd))
  · have hsame : ∀ k ∈ seen, PassEvent.removed k.1 ∈ q.events ↔ .removed k.1 ∈ p.events := by
      intro k hk
      refine (hremoved k.1).trans (or_iff_left fun hd => hfresh ?_)
      rw [← (hone k.1).mp hd]
      exact List.mem_map_of_mem hk
    have hgone : PassEvent.removed c ∈ q.events := (hremoved c).mpr (Or.inr ((hone c).mpr rfl))
    refine ⟨hsplit, ?_, rfl, hindex, ?_, ?_, hconsulted⟩
    · show q.srv.keys = (List.filter (fun k => PassEvent.removed k.1 ∉ q.events) _) ++ rest
      have hfilter : (seen.filter fun k => decide (PassEvent.removed k.1 ∉ q.events)) =
          seen.filter fun k => decide (PassEvent.removed k.1 ∉ p.events) :=
        List.filter_congr fun k hk => decide_eq_decide.mpr (not_congr (hsame k hk))
      rw [List.filter_append, hfilter, hkeys]
      simp only [List.filter_cons, List.filter_nil, hgone, not_true_eq_false, decide_false,
        Bool.false_eq_true, if_false, List.append_nil]
    · show q.srv.nClients = q.srv.keys.length
      have hlen := congrArg List.length h.now
      rw [List.length_append, List.length_cons] at hlen
      rw [hn, hkeys, hcount, List.length_append]
      omega
    · intro d hd
      rw [List.map_append]
      obtain hd | hd := (hremoved d).mp hd
      · exact List.mem_append_left _ (h.removed d hd)
      · rw [(hone d).mp hd]
        exact List.mem_append_right _ List.mem_cons_self

/-- What one iteration does, in every case. -/
theorem Dispatching.step [Stack] (h : Dispatching srv p seen todo) (hok : ServerOk srv) :
    p.step (polled srv x) x.outcome = p ∨
    ∃ c s rest client, todo = (c, s) :: rest ∧ p.Running ∧
      derefNode p.srv.clients c = .ok (client, rest.head?.map Prod.fst) ∧ client.socket = s ∧
      ⟨c, client⟩ ∈ p.srv.clients ∧
      p.step (polled srv x) x.outcome =
        p.visit c client (rest.head?.map Prod.fst) ⟨s, x.revents p.i⟩ (x.outcome p.i) ∧
      Dispatching srv (p.step (polled srv x) x.outcome) (seen ++ [(c, s)]) rest := by
  by_cases hrun : p.Running
  · cases todo with
    | nil =>
      refine Or.inl ?_
      have hc : p.c = none := h.pointer
      simp only [Pass.step, if_pos hrun, hc]
    | cons k rest =>
      obtain ⟨c, s⟩ := k
      obtain ⟨client, hderef, hsocket, hmem⟩ := h.deref hok
      have hstep := h.step_eq (x := x) hok hrun hderef
      refine Or.inr ⟨c, s, rest, client, rfl, hrun, hderef, hsocket, hmem, hstep, ?_⟩
      rw [hstep]
      exact h.visit hok hsocket _ _
  · exact Or.inl (if_neg hrun)

theorem dispatch_succ [Stack] (n : ℕ) : dispatch srv x (n + 1) =
    (dispatch srv x n).step (polled srv x) x.outcome := by
  rw [dispatch, Function.iterate_succ_apply']
  rfl

theorem dispatching [Stack] (hok : ServerOk srv) (n : ℕ) :
    ∃ seen todo, Dispatching srv (dispatch srv x n) seen todo := by
  induction n with
  | zero => exact ⟨_, _, dispatching_start hok⟩
  | succ n ih =>
    obtain ⟨seen, todo, h⟩ := ih
    rw [dispatch_succ]
    obtain hsame | ⟨c, s, rest, client, -, -, -, -, -, -, hnext⟩ := h.step (x := x) hok
    · rw [hsame]
      exact ⟨seen, todo, h⟩
    · exact ⟨_, _, hnext⟩

theorem dispatch_index [Stack] (hok : ServerOk srv) (n : ℕ) :
    (dispatch srv x n).step (polled srv x) x.outcome = dispatch srv x n ∨
      (dispatch srv x n).i = n + 2 := by
  induction n with
  | zero => exact Or.inr rfl
  | succ n ih =>
    rw [dispatch_succ]
    obtain hsame | hindex := ih
    · rw [hsame]
      exact Or.inl hsame
    · obtain ⟨seen, todo, h⟩ := dispatching (x := x) hok n
      obtain hsame | ⟨c, s, rest, client, -, -, -, -, -, -, hnext⟩ := h.step (x := x) hok
      · rw [hsame]
        exact Or.inl hsame
      · right
        have hprev := h.index.symm.trans hindex
        rw [hnext.index, List.length_append, List.length_singleton]
        omega

theorem dispatch_finished [Stack] (hok : ServerOk srv) :
    (dispatch srv x (polled srv x).length).step (polled srv x) x.outcome =
      dispatch srv x (polled srv x).length := by
  obtain hsame | hindex := dispatch_index (x := x) hok (polled srv x).length
  · exact hsame
  · obtain ⟨seen, todo, h⟩ := dispatching (x := x) hok (polled srv x).length
    have hlen := congrArg List.length h.split
    rw [h.index, polled_length hok] at hindex
    rw [List.length_append] at hlen
    omega

end

/-! ### States of the clients -/

def Node.Marks (n n' : Node) : Prop :=
  n' = n ∨ n' = { n with client := { n.client with state := .remove } }

theorem Node.Marks.trans {n n' n'' : Node} (h : n.Marks n') (h' : n'.Marks n'') : n.Marks n'' := by
  obtain rfl | rfl := h
  · exact h'
  · obtain rfl | rfl := h'
    · exact Or.inr rfl
    · exact Or.inr rfl

theorem Node.Marks.id_eq {n n' : Node} (h : n.Marks n') : n'.id = n.id := by
  obtain rfl | rfl := h
  · rfl
  · rfl

theorem Node.Marks.remove {n n' : Node} (h : n.Marks n') (hn : n.client.state = .remove) :
    n'.client.state = .remove := by
  obtain rfl | rfl := h
  · exact hn
  · rfl

theorem mem_markNode {ns : List Node} {socket : Int} {n' : Node} (h : n' ∈ markNode ns socket) :
    ∃ n ∈ ns, n.Marks n' := by
  induction ns with
  | nil => cases h
  | cons n next ih =>
    rw [markNode] at h
    split at h
    · obtain rfl | h := List.mem_cons.mp h
      · exact ⟨n, List.mem_cons_self, Or.inr rfl⟩
      · exact ⟨n', List.mem_cons_of_mem _ h, Or.inl rfl⟩
    · obtain rfl | h := List.mem_cons.mp h
      · exact ⟨n', List.mem_cons_self, Or.inl rfl⟩
      · obtain ⟨m, hm, hmarks⟩ := ih h
        exact ⟨m, List.mem_cons_of_mem _ hm, hmarks⟩

theorem markNode_mem {ns : List Node} (socket : Int) {n : Node} (h : n ∈ ns) :
    ∃ n' ∈ markNode ns socket, n.Marks n' := by
  induction ns with
  | nil => cases h
  | cons m next ih =>
    rw [markNode]
    split
    · obtain rfl | h := List.mem_cons.mp h
      · exact ⟨_, List.mem_cons_self, Or.inr rfl⟩
      · exact ⟨n, List.mem_cons_of_mem _ h, Or.inl rfl⟩
    · obtain rfl | h := List.mem_cons.mp h
      · exact ⟨n, List.mem_cons_self, Or.inl rfl⟩
      · obtain ⟨n', hn', hmarks⟩ := ih h
        exact ⟨n', List.mem_cons_of_mem _ hn', hmarks⟩

theorem mem_closeSockets {srv : RunningServer} {sockets : List Int} {n' : Node}
    (h : n' ∈ (srv.closeSockets sockets).clients) : ∃ n ∈ srv.clients, n.Marks n' := by
  induction sockets generalizing srv with
  | nil => exact ⟨n', h, Or.inl rfl⟩
  | cons s sockets ih =>
    obtain ⟨m, hm, hmarks⟩ : ∃ m ∈ (srv.closeSockets [s]).clients, m.Marks n' := ih h
    obtain ⟨n, hn, hmarks'⟩ := mem_markNode hm
    exact ⟨n, hn, hmarks'.trans hmarks⟩

theorem closeSockets_mem {srv : RunningServer} (sockets : List Int) {n : Node}
    (h : n ∈ srv.clients) : ∃ n' ∈ (srv.closeSockets sockets).clients, n.Marks n' := by
  induction sockets generalizing srv n with
  | nil => exact ⟨n, h, Or.inl rfl⟩
  | cons s sockets ih =>
    obtain ⟨m, hm, hmarks⟩ := markNode_mem s h
    obtain ⟨n', hn', hmarks'⟩ : ∃ n' ∈ ((srv.closeSockets [s]).closeSockets sockets).clients,
      m.Marks n' := ih hm
    exact ⟨n', hn', hmarks.trans hmarks'⟩

/-- With its header read a client has a buffer for the body. -/
def Node.BodyOk (n : Node) : Prop :=
  n.client.state = .hdrRecvd → n.client.pktBuf.isSome = true

theorem Node.Marks.bodyOk {n n' : Node} (h : n.Marks n') (hn : n.BodyOk) : n'.BodyOk := by
  obtain rfl | rfl := h
  · exact hn
  · exact fun he => nomatch he

/-- Serving `c` only marks the others. -/
structure ServesNodes (p q : Pass) (c : ℕ) : Prop where
  others : ∀ n ∈ p.srv.clients, n.id ≠ c → ∃ n' ∈ q.srv.clients, n.Marks n'
  origin : ∀ n' ∈ q.srv.clients, (∃ n ∈ p.srv.clients, n.Marks n') ∨ n'.BodyOk
  nextId : q.srv.nextId = p.srv.nextId

theorem mem_update {srv : RunningServer} {c : ℕ} {client : Client} {n' : Node}
    (h : n' ∈ (srv.update c client).clients) :
    n' ∈ srv.clients ∨ n'.client = client := by
  obtain ⟨n, hn, rfl⟩ := List.mem_map.mp h
  split
  · exact Or.inr rfl
  · exact Or.inl hn

theorem update_mem {srv : RunningServer} {c : ℕ} (client : Client) {n : Node}
    (h : n ∈ srv.clients) (hc : n.id ≠ c) : n ∈ (srv.update c client).clients :=
  List.mem_map.mpr ⟨n, h, if_neg hc⟩

theorem mem_remove {srv : RunningServer} {c : ℕ} {n : Node} (h : n ∈ (srv.remove c).clients) :
    n ∈ srv.clients := by
  unfold RunningServer.remove at h
  split at h
  · exact List.mem_of_mem_eraseP h
  · exact h

theorem remove_mem {srv : RunningServer} {c : ℕ} {n : Node} (h : n ∈ srv.clients)
    (hc : n.id ≠ c) : n ∈ (srv.remove c).clients := by
  unfold RunningServer.remove
  split
  · exact (List.mem_eraseP_of_neg (by simpa using hc)).mpr h
  · exact h

theorem remove_nextId (srv : RunningServer) (c : ℕ) : (srv.remove c).nextId = srv.nextId := by
  unfold RunningServer.remove
  split <;> rfl

theorem Served.Keeps.bodyOk {client client' : Client} {pack : Option Packet} {id : ℕ}
    (h : (Served.kept client').Keeps client ∨ (Served.deliver client' pack).Keeps client) :
    Node.BodyOk ⟨id, client'⟩ := by
  obtain ⟨-, -, hbuf⟩ | ⟨-, hidle⟩ := h
  · exact hbuf
  · intro he
    rw [Node.client, hidle] at he
    cases he

theorem serve_nodes [Stack] (p : Pass) (c : ℕ) (client : Client) (o : Outcome) :
    ServesNodes p (p.serve c client o) c := by
  unfold Pass.serve
  dsimp only
  cases hserve : serveClient client o.arrival.recv with
  | error f =>
    exact ⟨fun n hn _ => ⟨n, hn, Or.inl rfl⟩, fun n hn => Or.inl ⟨n, hn, Or.inl rfl⟩, rfl⟩
  | ok out =>
    have hkeeps := serveClient_keeps hserve
    cases out with
    | kept client' =>
      refine ⟨fun n hn hc => ⟨n, update_mem client' hn hc, Or.inl rfl⟩, fun n' hn' => ?_, rfl⟩
      obtain hold | hnew := mem_update hn'
      · exact Or.inl ⟨n', hold, Or.inl rfl⟩
      · right
        rw [Node.BodyOk, hnew]
        exact hkeeps.2.2
    | closed =>
      exact ⟨fun n hn hc => ⟨n, remove_mem hn hc, Or.inl rfl⟩,
        fun n' hn' => Or.inl ⟨n', mem_remove hn', Or.inl rfl⟩, remove_nextId _ _⟩
    | deliver client' pack =>
      have hothers : ∀ n ∈ p.srv.clients, n.id ≠ c →
          ∃ n' ∈ ((p.srv.update c client').closeSockets o.marks).clients, n.Marks n' :=
        fun n hn hc => closeSockets_mem o.marks (update_mem client' hn hc)
      have horigin : ∀ n' ∈ ((p.srv.update c client').closeSockets o.marks).clients,
          (∃ n ∈ p.srv.clients, n.Marks n') ∨ n'.BodyOk := by
        intro n' hn'
        obtain ⟨m, hm, hmarks⟩ := mem_closeSockets hn'
        obtain hold | hnew := mem_update hm
        · exact Or.inl ⟨m, hold, hmarks⟩
        · refine Or.inr (hmarks.bodyOk fun he => ?_)
          rw [hnew, hkeeps.2] at he
          cases he
      dsimp only
      split
      · refine ⟨fun n hn hc => ?_, fun n' hn' => horigin n' (mem_remove hn'), remove_nextId _ _⟩
        obtain ⟨n', hn', hmarks⟩ := hothers n hn hc
        exact ⟨n', remove_mem hn' (hmarks.id_eq.trans_ne hc), hmarks⟩
      · exact ⟨hothers, horigin, rfl⟩

theorem visit_nodes [Stack] (p : Pass) (c : ℕ) (client : Client) (next : Option ℕ) (e : PollFd)
    (o : Outcome) : ServesNodes p (p.visit c client next e o) c := by
  unfold Pass.visit
  dsimp only
  split
  · obtain ⟨hothers, horigin, hid⟩ := serve_nodes (p.log [.consulted c e.fd]) c client o
    exact ⟨hothers, horigin, hid⟩
  · exact ⟨fun n hn _ => ⟨n, hn, Or.inl rfl⟩, fun n hn => Or.inl ⟨n, hn, Or.inl rfl⟩, rfl⟩

theorem dispatch_bodyOk [Stack] {srv : RunningServer} {x : PollInput} (hok : ServerOk srv) (n : ℕ) :
    (∀ m ∈ (dispatch srv x n).srv.clients, m.BodyOk) ∧
      (dispatch srv x n).srv.nextId = srv.nextId := by
  induction n with
  | zero => exact ⟨hok.body, rfl⟩
  | succ n ih =>
    obtain ⟨seen, todo, h⟩ := dispatching (x := x) hok n
    rw [dispatch_succ]
    obtain hsame | ⟨c, s, rest, client, -, -, -, -, -, hstep, -⟩ := h.step (x := x) hok
    · rw [hsame]
      exact ih
    · rw [hstep]
      obtain ⟨-, horigin, hid⟩ := visit_nodes (dispatch srv x n) c client
        (rest.head?.map Prod.fst) ⟨s, x.revents (dispatch srv x n).i⟩
        (x.outcome (dispatch srv x n).i)
      refine ⟨fun m hm => ?_, hid.trans ih.2⟩
      obtain ⟨m', hm', hmarks⟩ | hbody := horigin m hm
      · exact hmarks.bodyOk (ih.1 m' hm')
      · exact hbody

/-! ### Events of an iteration -/

theorem serve_events [Stack] (p : Pass) (c : ℕ) (client : Client) (o : Outcome) :
    ∃ es, (p.serve c client o).events = p.events ++ (enteredEvents c client o.arrival ++ es) ∧
      ∀ e ∈ es, e = .delivered c ∨ e = .removed c := by
  have hnone : ∀ e ∈ ([] : List PassEvent), e = .delivered c ∨ e = .removed c :=
    fun e he => absurd he List.not_mem_nil
  unfold Pass.serve
  dsimp only
  cases serveClient client o.arrival.recv with
  | error f => exact ⟨[], by rw [List.append_nil]; rfl, hnone⟩
  | ok out =>
    cases out with
    | kept client' => exact ⟨[], by rw [List.append_nil]; rfl, hnone⟩
    | closed =>
      exact ⟨[.removed c], List.append_assoc _ _ _, fun e he => Or.inr (List.mem_singleton.mp he)⟩
    | deliver client' pack =>
      dsimp only
      split
      · refine ⟨[.delivered c, .removed c], ?_, fun e he => ?_⟩
        · simp only [Pass.remove, Pass.log, List.append_assoc, List.singleton_append]
        · obtain rfl | he := List.mem_cons.mp he
          · exact Or.inl rfl
          · exact Or.inr (List.mem_singleton.mp he)
      · exact ⟨[.delivered c], List.append_assoc _ _ _,
          fun e he => Or.inl (List.mem_singleton.mp he)⟩

theorem visit_events [Stack] (p : Pass) (c : ℕ) (client : Client) (next : Option ℕ) (e : PollFd)
    (o : Outcome) : ∃ es, (p.visit c client next e o).events = p.events ++ es ∧
      ∀ ev ∈ es, ev = .consulted c e.fd ∨ e.revents = pollIn ∧
        (ev ∈ enteredEvents c client o.arrival ∨ ev = .delivered c ∨ ev = .removed c) := by
  unfold Pass.visit
  dsimp only
  split
  · next hready =>
    obtain ⟨es, hes, hmem⟩ := serve_events (p.log [.consulted c e.fd]) c client o
    refine ⟨.consulted c e.fd :: (enteredEvents c client o.arrival ++ es), ?_, fun ev hev => ?_⟩
    · rw [hes, Pass.log, List.append_assoc, List.singleton_append]
    · obtain hev | hev := List.mem_cons.mp hev
      · exact Or.inl hev
      · obtain hev | hev := List.mem_append.mp hev
        · exact Or.inr ⟨hready, Or.inl hev⟩
        · exact Or.inr ⟨hready, Or.inr (hmem ev hev)⟩
  · exact ⟨[.consulted c e.fd], rfl, fun ev hev => Or.inl (List.mem_singleton.mp hev)⟩

theorem dispatch_events_succ [Stack] {srv : RunningServer} {x : PollInput} (hok : ServerOk srv) (n : ℕ) :
    ∃ es, (dispatch srv x (n + 1)).events = (dispatch srv x n).events ++ es ∧
      ∀ fd, PassEvent.accepted fd ∉ es := by
  obtain ⟨seen, todo, h⟩ := dispatching (x := x) hok n
  rw [dispatch_succ]
  obtain hsame | ⟨c, s, rest, client, -, -, -, -, -, hstep, -⟩ := h.step (x := x) hok
  · exact ⟨[], by rw [hsame, List.append_nil], fun fd => List.not_mem_nil⟩
  · rw [hstep]
    obtain ⟨es, hes, hmem⟩ := visit_events (dispatch srv x n) c client (rest.head?.map Prod.fst)
      ⟨s, x.revents (dispatch srv x n).i⟩ (x.outcome (dispatch srv x n).i)
    refine ⟨es, hes, fun fd hfd => ?_⟩
    obtain he | ⟨-, he | he | he⟩ := hmem _ hfd
    · cases he
    · obtain ⟨-, he⟩ | ⟨k, he⟩ := mem_enteredEvents he
      · cases he
      · cases he
    · cases he
    · cases he

theorem dispatch_events_mono [Stack] {srv : RunningServer} {x : PollInput} (hok : ServerOk srv) {m n : ℕ}
    (h : m ≤ n) : (dispatch srv x m).events <+: (dispatch srv x n).events := by
  induction n, h using Nat.le_induction with
  | base => exact List.prefix_rfl
  | succ n _ ih =>
    obtain ⟨es, hes, -⟩ := dispatch_events_succ (x := x) hok n
    exact ih.trans ⟨es, hes.symm⟩

theorem dispatch_not_accepted [Stack] {srv : RunningServer} {x : PollInput} (hok : ServerOk srv) (n : ℕ)
    (fd : Int) : PassEvent.accepted fd ∉ (dispatch srv x n).events := by
  induction n with
  | zero => exact List.not_mem_nil
  | succ n ih =>
    obtain ⟨es, hes, hno⟩ := dispatch_events_succ (x := x) hok n
    rw [hes]
    intro hfd
    obtain hfd | hfd := List.mem_append.mp hfd
    · exact ih hfd
    · exact hno fd hfd

end RN2223.Praxis2

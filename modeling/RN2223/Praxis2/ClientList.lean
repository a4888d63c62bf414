import RN2223.Praxis2.ServerPass

/-!
# The client list over passes of the server

At the end of a pass the marked clients are unlinked and a new one may come in
front; the invariant of the list holds between any two passes.
-/

namespace RN2223.Praxis2
open CMemory Machine

def marked (n : Node) : Bool := n.client.state == .remove

/-! ### The sweep -/

theorem remove_nodes {srv : RunningServer} {a b : List Node} {n : Node}
    (h : srv.clients = a ++ n :: b) (hn : n.id ∉ a.map Node.id) :
    srv.remove n.id = { srv with clients := a ++ b, nClients := srv.nClients - 1 } := by
  have hany : (srv.clients.any fun m => m.id == n.id) = true := by
    rw [h]
    exact List.any_eq_true.mpr ⟨n, List.mem_append_right _ List.mem_cons_self, beq_self_eq_true _⟩
  have hfront : ∀ m ∈ a, ¬ (m.id == n.id) = true := fun m hm he =>
    hn (List.mem_map.mpr ⟨m, hm, beq_iff_eq.mp he⟩)
  have hhead : (n :: b).eraseP (fun m => m.id == n.id) = b :=
    List.eraseP_cons_of_pos (beq_self_eq_true n.id)
  rw [RunningServer.remove, if_pos hany, h, List.eraseP_append_right _ hfront, hhead]

structure Sweeps (p q : Pass) (done todo : List Node) : Prop where
  clients : q.srv.clients = done ++ todo.filter fun n => !marked n
  count : q.srv.nClients = p.srv.nClients - (todo.filter marked).length
  events : q.events = p.events ++ (todo.filter marked).map fun n => .removed n.id
  nextId : q.srv.nextId = p.srv.nextId

theorem sweepNodes_sweeps {p : Pass} {done todo : List Node} (h : p.srv.clients = done ++ todo)
    (hnodup : (p.srv.clients.map Node.id).Nodup) : Sweeps p (sweepNodes todo p) done todo := by
  induction todo generalizing p done with
  | nil => exact ⟨h, (Int.sub_zero _).symm, (List.append_nil _).symm, rfl⟩
  | cons n next ih =>
    rw [sweepNodes]
    have hmarked : marked n = true ↔ n.client.state = .remove := beq_iff_eq
    split
    · next hstate =>
      have hn : marked n = true := hmarked.mpr hstate
      have hfront : n.id ∉ done.map Node.id := by
        rw [h, List.map_append, List.map_cons] at hnodup
        intro hc
        exact (List.nodup_append.mp hnodup).2.2 _ hc _ List.mem_cons_self rfl
      have hremove := remove_nodes h hfront
      have hclients : (p.remove n.id).srv.clients = done ++ next := by
        rw [Pass.remove, Pass.log, hremove]
      have hcount : (p.remove n.id).srv.nClients = p.srv.nClients - 1 := by
        rw [Pass.remove, Pass.log, hremove]
      have hsub : List.Sublist (done ++ next) (done ++ n :: next) :=
        (List.sublist_cons_self n next).append_left done
      have hnodup' : ((p.remove n.id).srv.clients.map Node.id).Nodup := by
        rw [hclients]
        rw [h] at hnodup
        exact hnodup.sublist (hsub.map _)
      obtain ⟨hc, hk, he, hid⟩ := ih hclients hnodup'
      refine ⟨?_, ?_, ?_, ?_⟩
      · rw [hc, List.filter_cons_of_neg (by rw [hn]; decide)]
      · rw [hk, hcount, List.filter_cons_of_pos hn, List.length_cons]
        omega
      · rw [he, List.filter_cons_of_pos hn, List.map_cons]
        exact List.append_assoc _ _ _
      · rw [hid]
        exact remove_nextId _ _
    · next hstate =>
      have hn : marked n = false := Bool.eq_false_iff.mpr (mt hmarked.mp hstate)
      have hclients : p.srv.clients = (done ++ [n]) ++ next := by
        rw [h, List.append_assoc, List.singleton_append]
      obtain ⟨hc, hk, he, hid⟩ := ih hclients hnodup
      refine ⟨?_, ?_, ?_, hid⟩
      · rw [hc, List.filter_cons_of_pos (by rw [hn]; rfl), List.append_assoc, List.singleton_append]
      · rw [hk, List.filter_cons_of_neg (by rw [hn]; decide)]
      · rw [he, List.filter_cons_of_neg (by rw [hn]; decide)]

/-! ### The end of a pass -/

def swept [Stack] (srv : RunningServer) (x : PollInput) : Pass :=
  let p := dispatch srv x (polled srv x).length
  sweepNodes p.srv.clients p

theorem serverPass_next [Stack] {srv srv' : RunningServer} {x : PollInput}
    (h : (serverPass srv x).2 = .next srv') :
    (∀ e ∈ polled srv x, e.revents = 0) ∧ srv' = srv ∧ (serverPass srv x).1 = [] ∨
    (dispatch srv x (polled srv x).length).fault = none ∧
      (x.revents 1 = pollIn ∧ srv' = (swept srv x).srv.add x.accepted ∧
          (serverPass srv x).1 = (swept srv x).events ++ [.accepted x.accepted] ∨
        x.revents 1 ≠ pollIn ∧ srv' = (swept srv x).srv ∧
          (serverPass srv x).1 = (swept srv x).events) := by
  unfold serverPass at h ⊢
  split at h
  · next hnone =>
    cases h
    exact Or.inl ⟨hnone, rfl, by rw [if_pos hnone]⟩
  · next hsome =>
    rw [if_neg hsome]
    split at h
    · cases h
    · next hstdin =>
      rw [if_neg hstdin]
      dsimp only at h ⊢
      cases hfault : (dispatch srv x (polled srv x).length).fault with
      | some f =>
        rw [hfault] at h
        cases h
      | none =>
        rw [hfault] at h
        dsimp only at h ⊢
        right
        split at h
        · next hlisten =>
          cases h
          rw [if_pos hlisten]
          exact ⟨rfl, Or.inl ⟨hlisten, rfl, rfl⟩⟩
        · next hlisten =>
          cases h
          rw [if_neg hlisten]
          exact ⟨rfl, Or.inr ⟨hlisten, rfl, rfl⟩⟩

section
variable {srv : RunningServer} {x : PollInput}

theorem nodup_ids (h : (srv.keys.map Prod.fst).Nodup) : (srv.clients.map Node.id).Nodup := by
  rw [RunningServer.keys, List.map_map] at h
  exact h

theorem swept_sweeps [Stack] (hok : ServerOk srv) :
    Sweeps (dispatch srv x (polled srv x).length) (swept srv x) []
      (dispatch srv x (polled srv x).length).srv.clients := by
  obtain ⟨seen, todo, h⟩ := dispatching (x := x) hok (polled srv x).length
  exact sweepNodes_sweeps (List.nil_append _).symm (nodup_ids (h.nodup hok))

theorem swept_keys [Stack] (hok : ServerOk srv) :
    (swept srv x).srv.keys =
        srv.keys.filter (fun k => PassEvent.removed k.1 ∉ (swept srv x).events) ∧
      (swept srv x).srv.nClients = (swept srv x).srv.clients.length := by
  obtain ⟨seen, todo, h⟩ := dispatching (x := x) hok (polled srv x).length
  obtain ⟨hclients, hcount, hevents, -⟩ := swept_sweeps (x := x) hok
  generalize dispatch srv x (polled srv x).length = p at h hclients hcount hevents
  rw [List.nil_append] at hclients
  have hnodup := nodup_ids (h.nodup hok)
  constructor
  · -- first the loop takes clients out, then the sweep
    have hloop : p.srv.keys = srv.keys.filter fun k => PassEvent.removed k.1 ∉ p.events := by
      rw [h.now, h.split, List.filter_append]
      congr 1
      refine (List.filter_eq_self.mpr fun k hk => ?_).symm
      have hstay : PassEvent.removed k.1 ∉ p.events := by
        intro hr
        have hnodup' := hok.nodup
        rw [h.split, List.map_append] at hnodup'
        exact (List.nodup_append.mp hnodup').2.2 _ (h.removed k.1 hr) _ (List.mem_map_of_mem hk) rfl
      simpa using hstay
    have hsweep : (swept srv x).srv.keys = p.srv.keys.filter fun k =>
        PassEvent.removed k.1 ∉ (p.srv.clients.filter marked).map fun n => .removed n.id := by
      rw [RunningServer.keys, hclients, RunningServer.keys, List.filter_map]
      congr 1
      refine List.filter_congr fun n hn => ?_
      have hiff : (PassEvent.removed n.id ∈ (p.srv.clients.filter marked).map
          fun m => PassEvent.removed m.id) ↔ marked n = true := by
        constructor
        · intro hmem
          obtain ⟨m, hm, he⟩ := List.mem_map.mp hmem
          obtain ⟨hm, hmark⟩ := List.mem_filter.mp hm
          rw [← List.inj_on_of_nodup_map hnodup hm hn (PassEvent.removed.inj he)]
          exact hmark
        · exact fun hmark => List.mem_map.mpr ⟨n, List.mem_filter.mpr ⟨hn, hmark⟩, rfl⟩
      refine Bool.eq_iff_iff.mpr ?_
      rw [Function.comp_apply, decide_eq_true_iff, Bool.not_eq_true', ← Bool.not_eq_true,
        not_iff_not]
      exact hiff.symm
    rw [hsweep, hloop, List.filter_filter]
    refine List.filter_congr fun k _ => ?_
    rw [hevents, ← Bool.decide_and]
    refine decide_eq_decide.mpr ?_
    rw [List.mem_append, not_or, and_comm]
  · have hlen := h.count
    have hsum := List.length_eq_length_filter_add (l := p.srv.clients) marked
    rw [RunningServer.keys, List.length_map] at hlen
    rw [hcount, hclients, hlen]
    omega

theorem swept_nodes [Stack] (hok : ServerOk srv) : ∀ n ∈ (swept srv x).srv.clients,
    n.client.state ≠ .remove ∧ n.BodyOk := by
  intro n hn
  obtain ⟨hclients, -⟩ := swept_sweeps (x := x) hok
  rw [hclients, List.nil_append] at hn
  obtain ⟨hn, hmark⟩ := List.mem_filter.mp hn
  refine ⟨fun hstate => ?_, (dispatch_bodyOk hok _).1 n hn⟩
  have hmarked : marked n = true := beq_iff_eq.mpr hstate
  rw [hmarked] at hmark
  cases hmark

theorem swept_nextId [Stack] (hok : ServerOk srv) : (swept srv x).srv.nextId = srv.nextId :=
  (swept_sweeps hok).nextId.trans (dispatch_bodyOk hok _).2

theorem below_of_keys {a b : RunningServer} {n : ℕ} (hkeys : List.Sublist a.keys b.keys)
    (hb : ∀ m ∈ b.clients, m.id < n) : ∀ m ∈ a.clients, m.id < n := by
  intro m hm
  obtain ⟨m', hm', he⟩ := List.mem_map.mp (hkeys.mem (List.mem_map_of_mem hm))
  have hid : m'.id = m.id := congrArg Prod.fst he
  rw [← hid]
  exact hb m' hm'

theorem swept_ok [Stack] (hok : ServerOk srv) : ServerOk (swept srv x).srv where
  nodup := by
    rw [(swept_keys hok).1]
    exact hok.nodup.sublist (List.filter_sublist.map _)
  count := (swept_keys hok).2
  below := by
    rw [swept_nextId hok]
    refine below_of_keys ?_ hok.below
    rw [(swept_keys hok).1]
    exact List.filter_sublist
  unmarked n hn := (swept_nodes hok n hn).1
  body n hn := (swept_nodes hok n hn).2

theorem ServerOk.add (hok : ServerOk srv) (socket : Int) : ServerOk (srv.add socket) where
  nodup := by
    refine List.nodup_cons.mpr ⟨fun hmem => ?_, hok.nodup⟩
    obtain ⟨k, hk, hid⟩ := List.mem_map.mp hmem
    obtain ⟨n, hn, rfl⟩ := List.mem_map.mp hk
    have hbelow := hok.below n hn
    have hsame : n.id = srv.nextId := hid
    omega
  count := by
    show srv.nClients + 1 = _
    rw [hok.count]
    rfl
  below n hn := by
    obtain rfl | hn := List.mem_cons.mp hn
    · exact Nat.lt_succ_self _
    · exact (hok.below n hn).trans (Nat.lt_succ_self _)
  unmarked n hn := by
    obtain rfl | hn := List.mem_cons.mp hn
    · exact fun he => nomatch he
    · exact hok.unmarked n hn
  body n hn := by
    obtain rfl | hn := List.mem_cons.mp hn
    · exact fun he => nomatch he
    · exact hok.body n hn

theorem serverStart_ok (socket : Int) : ServerOk (serverStart socket) where
  nodup := List.nodup_nil
  count := rfl
  below _ hn := absurd hn List.not_mem_nil
  unmarked _ hn := absurd hn List.not_mem_nil
  body _ hn := absurd hn List.not_mem_nil

theorem serverPass_ok [Stack] (hok : ServerOk srv) {srv' : RunningServer}
    (h : (serverPass srv x).2 = .next srv') : ServerOk srv' := by
  obtain ⟨-, rfl, -⟩ | ⟨-, ⟨-, rfl, -⟩ | ⟨-, rfl, -⟩⟩ := serverPass_next h
  · exact hok
  · exact (swept_ok hok).add _
  · exact swept_ok hok

theorem ServerReachable.ok [Stack] {socket : Int} (h : ServerReachable socket srv) : ServerOk srv := by
  induction h with
  | start => exact serverStart_ok socket
  | pass h x hx ih => exact serverPass_ok ih hx

end

/-! ### A pass over the list -/

def PassEvent.accepted? (id : ℕ) : PassEvent → Option (ℕ × Int)
  | .accepted fd => some (id, fd)
  | _ => none

/-- Index and pointer go together over a whole pass, and the list at its end is
the old one without the removed clients, a new one in front. -/
structure PassSound [Stack] (srv : RunningServer) (x : PollInput) : Prop where
  paired : ∀ n c, (dispatch srv x n).Running → (dispatch srv x n).c = some c →
    ∃ e client, (polled srv x)[(dispatch srv x n).i]? = some e ∧
      ⟨c, client⟩ ∈ (dispatch srv x n).srv.clients ∧ e.fd = client.socket
  once : ∀ n, (((dispatch srv x n).events.filterMap PassEvent.consulted?).map Prod.fst).Nodup
  untouched : ∀ m n c, m ≤ n → .removed c ∈ (dispatch srv x m).events →
    (dispatch srv x n).Running → (dispatch srv x n).c ≠ some c
  finished : (dispatch srv x (polled srv x).length).Running →
    (dispatch srv x (polled srv x).length).c = none
  list : ∀ srv', (serverPass srv x).2 = .next srv' → srv'.nClients = srv'.clients.length ∧
    srv'.keys = (serverPass srv x).1.filterMap (PassEvent.accepted? srv.nextId) ++
      srv.keys.filter fun k => PassEvent.removed k.1 ∉ (serverPass srv x).1

section
variable {srv : RunningServer} {x : PollInput}

theorem swept_accepts_none [Stack] (hok : ServerOk srv) :
    (swept srv x).events.filterMap (PassEvent.accepted? srv.nextId) = [] := by
  refine List.filterMap_eq_nil_iff.mpr fun e he => ?_
  cases e with
  | accepted fd =>
    obtain ⟨-, -, hevents, -⟩ := swept_sweeps (x := x) hok
    rw [hevents] at he
    obtain he | he := List.mem_append.mp he
    · exact absurd he (dispatch_not_accepted hok _ fd)
    · obtain ⟨m, -, hm⟩ := List.mem_map.mp he
      cases hm
  | _ => rfl

theorem serverPass_list [Stack] (hok : ServerOk srv) {srv' : RunningServer}
    (h : (serverPass srv x).2 = .next srv') :
    srv'.nClients = srv'.clients.length ∧
      srv'.keys = (serverPass srv x).1.filterMap (PassEvent.accepted? srv.nextId) ++
        srv.keys.filter fun k => PassEvent.removed k.1 ∉ (serverPass srv x).1 := by
  refine ⟨(serverPass_ok hok h).count, ?_⟩
  obtain ⟨-, rfl, hes⟩ | ⟨-, ⟨-, rfl, hes⟩ | ⟨-, rfl, hes⟩⟩ := serverPass_next h
  · rw [hes]
    exact (List.filter_eq_self.mpr fun k _ => by simp).symm
  · have hstay : ∀ c, PassEvent.removed c ∈ (swept srv x).events ++ [.accepted x.accepted] ↔
        .removed c ∈ (swept srv x).events := by
      intro c
      rw [List.mem_append, List.mem_singleton]
      exact or_iff_left fun he => nomatch he
    have hnew : (srv.nextId, x.accepted) :: (swept srv x).srv.keys =
        ((swept srv x).srv.add x.accepted).keys := by
      rw [← swept_nextId (x := x) hok]
      rfl
    rw [hes, List.filterMap_append, swept_accepts_none hok]
    simp only [hstay]
    rw [← (swept_keys hok).1, ← hnew]
    rfl
  · rw [hes, swept_accepts_none hok]
    exact (swept_keys hok).1

theorem passSound_of_ok [Stack] (hok : ServerOk srv) (x : PollInput) : PassSound srv x where
  paired n c hrun hc := by
    obtain ⟨seen, todo, h⟩ := dispatching (x := x) hok n
    cases todo with
    | nil =>
      rw [h.pointer] at hc
      cases hc
    | cons k rest =>
      obtain ⟨c', s⟩ := k
      obtain ⟨client, -, hsocket, hmem⟩ := h.deref hok
      have hsame : c' = c := Option.some.inj (h.pointer.symm.trans hc)
      subst hsame
      refine ⟨⟨s, x.revents (dispatch srv x n).i⟩, client, ?_, hmem, hsocket.symm⟩
      rw [h.index]
      exact polled_get hok h.split
  once n := by
    obtain ⟨seen, todo, h⟩ := dispatching (x := x) hok n
    have hnodup := hok.nodup
    rw [h.split, List.map_append] at hnodup
    rw [h.consulted]
    exact (List.nodup_append.mp hnodup).1
  untouched m n c hmn hc hrun hpointer := by
    obtain ⟨seen, todo, h⟩ := dispatching (x := x) hok n
    cases todo with
    | nil =>
      rw [h.pointer] at hpointer
      cases hpointer
    | cons k rest =>
      obtain ⟨c', s⟩ := k
      have hsame : c' = c := Option.some.inj (h.pointer.symm.trans hpointer)
      subst hsame
      exact h.fresh hok (h.removed c' ((dispatch_events_mono hok hmn).subset hc))
  finished hrun := by
    obtain ⟨seen, todo, h⟩ := dispatching (x := x) hok (polled srv x).length
    obtain hsame | ⟨c, s, rest, client, -, -, -, -, -, -, hnext⟩ := h.step (x := x) hok
    · cases todo with
      | nil => exact h.pointer
      | cons k rest =>
        obtain ⟨client, hderef, -⟩ := h.deref hok
        have hmoved := congrArg Pass.i ((h.step_eq hok hrun hderef).symm.trans hsame)
        exact absurd hmoved (Nat.succ_ne_self _)
    · have hmoved := congrArg Pass.i (dispatch_finished (x := x) hok)
      rw [hnext.index, h.index, List.length_append, List.length_singleton] at hmoved
      omega
  list _ h := serverPass_list hok h

end

/-- In every pass of the server, whatever is ready and whatever the callbacks do,
each client is consulted under its own entry, and the list loses exactly the
removed ones. -/
theorem passSound [Stack] {socket : Int} {srv : RunningServer} (h : ServerReachable socket srv)
    (x : PollInput) : PassSound srv x :=
  passSound_of_ok h.ok x

def connecting (fd : Int) : PollInput where
  revents i := if i = 1 then pollIn else 0
  outcome _ := ⟨.failed, [], cbOk⟩
  accepted := fd

def threeClients : RunningServer := (((serverStart 3).add 5).add 6).add 7

theorem reachable_three : ServerReachable 3 threeClients :=
  .pass (.pass (.pass .start (connecting 5) rfl) (connecting 6) rfl) (connecting 7) rfl

theorem passSound_hangup : PassSound threeClients
    ⟨fun i => if i = 3 then pollIn else 0, fun _ => ⟨.closed, [], cbOk⟩, 8⟩ :=
  passSound reachable_three _

end RN2223.Praxis2

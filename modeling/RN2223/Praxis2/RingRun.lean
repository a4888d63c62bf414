import RN2223.Praxis2.RingPeers

/-!
# Runs of a working ring

The peers, the connections and the ways of the requests fit together in every
state a run reaches: what a peer does keeps its own part of the invariant, and
the others do not notice. Behind every run there is a run of the object that
carries out one request at a time, so the answers of the ring are those of a
single table.
-/

namespace RN2223.Praxis2
open CMemory

variable {ι : Type} [Fintype ι] {R : LinkedRing ι} {net : RingNet R} {i j : ι}

/-! ### What the other peers keep -/

section
variable {s : PeerState} {w : Links ι} {W W' : Paths ι} {queue : UInt16 → List Request}
  {q : PeerM Unit}

theorem Serves.kept {fds : Int → Option LinkEnd} {clients : List Client} {fd : Int} {c : ℕ}
    {rl : Role} (h : Serves i fds clients queue W) (hf : W.Frame R j W') (hne : i ≠ j)
    (hfd : fds fd = some (.down c)) (hrole : W.role c = some rl)
    (hrl : ∀ r k b, rl ≠ .served r k b) : W'.role c = some rl := by
  obtain ⟨l, hl, ht, -⟩ := h.owned fd c hfd
  obtain hsame | ⟨r, k, b, he⟩ := hf.roles c l rl hl (fun hj => hne (ht.symm.trans hj)) hrole
  · exact hsame
  · exact absurd he (hrl r k b)

theorem At.frame {fds : Int → Option LinkEnd} {clients : List Client}
    (h : At net i s fds W q queue) (hserves : Serves i fds clients queue W) (hf : W.Frame R j W')
    (hne : i ≠ j) : At net i s fds W' q queue := by
  cases h with
  | idle => exact .idle
  | proxying hup hdown hrole hn =>
    exact .proxying hup hdown (hserves.kept hf hne hdown hrole fun _ _ _ he => by cases he) hn
  | replying hup hdown hrole htarget hres hm hctl hspent =>
    obtain ⟨l, hl, ht⟩ := htarget
    obtain ⟨l', hl', hg⟩ := hf.links _ l hl
    exact .replying hup hdown (hserves.kept hf hne hdown hrole fun _ _ _ he => by cases he)
      ⟨l', hl', hg.target.trans ht⟩ hres hm hctl
      (hserves.kept hf hne hctl hspent fun _ _ _ he => by cases he)

theorem Current.frame (h : Current net i queue s w W) (hf : W.Frame R j W') (hne : i ≠ j)
    (hok : W'.Ok net) : Current net i queue s ⟨w.fds, W'.conns⟩ W' :=
  ⟨rfl, hok, h.knows.frame hf hne, h.serves.frame hf hne⟩

theorem At.done {fds : Int → Option LinkEnd} (h : At net i s fds W q queue)
    (hq : q.unfinished = none) : queue = getRequests s.rt := by
  cases h with
  | idle => rfl
  | proxying => rfl
  | replying =>
    rw [relay_bind] at hq
    cases hq

end

/-! ### Clients -/

namespace Paths
variable {W : Paths ι} {c : ℕ}

theorem invoke_frame (hc : W.conns c = none) (r : ClientRequest) (e : ι) :
    W.Frame R i (W.invoke c r e) where
  links d l hd := by
    have hdc : d ≠ c := fun he => by
      rw [he, hc] at hd
      cases hd
    exact ⟨l, by simp [invoke, hdc, hd], .refl l⟩
  roles d l rl hd _ hrole := by
    have hdc : d ≠ c := fun he => by
      rw [he, hc] at hd
      cases hd
    exact Or.inl (by simp [invoke, hdc, hrole])
  store _ _ := rfl

theorem respond_frame {l : Link ι} (hl : W.conns c = some l) (r : ClientRequest) :
    W.Frame R i (W.respond c l r) where
  links := by
    have hrelink : W.Moves R i [] (W.relink c { l with upClosed := true }) :=
      moves_relink hl ⟨rfl, id, id⟩
    exact hrelink.links
  roles _ _ _ _ _ hrole := Or.inl hrole
  store _ _ := rfl

end Paths

/-! ### The invariant -/

namespace RingState
variable [DecidableEq ι] {x x' : RingState ι} {W W' : Paths ι}

/-- The requests carried out are those the peers executed, and every peer has come
to a point with the invariant. -/
structure Inv (net : RingNet R) (x : RingState ι) (W : Paths ι) : Prop where
  conns : W.conns = x.conns
  ok : W.Ok net
  history : W.obj.history = x.history
  carried : W.carried = x.executed
  peers : ∀ i, ∃ q queue, x.running i = q.unfinished ∧ At net i (x.peer i) (x.fds i) W q queue ∧
    Current net i queue (x.peer i) (x.links i) W

omit [DecidableEq ι] in
theorem Inv.idle (h : Inv net x W) (hidle : x.running i = none) :
    Current net i (getRequests (x.peer i).rt) (x.peer i) (x.links i) W := by
  obtain ⟨q, queue, hq, hat, hcurrent⟩ := h.peers i
  rwa [hat.done (hq.symm.trans hidle)] at hcurrent

omit [DecidableEq ι] in
theorem Inv.waiting {p : PeerM Unit} (h : Inv net x W) (hwait : x.running i = some p) :
    ∃ queue, At net i (x.peer i) (x.fds i) W p queue ∧
      Current net i queue (x.peer i) (x.links i) W := by
  obtain ⟨q, queue, hq, hat, hcurrent⟩ := h.peers i
  obtain rfl : q = p := by
    rw [hwait] at hq
    cases q <;> cases hq
    all_goals rfl
  exact ⟨queue, hat, hcurrent⟩

theorem Inv.after {ps executed : List Packet} {q : PeerM Unit} {s' : PeerState} {w' : Links ι}
    (h : Inv net x W) (hleads : Leads net i ps W q s' w') (hex : executed = x.executed ++ ps) :
    ∃ W', Inv net { x.after i q s' w' with executed := executed } W' ∧ ∃ j, W.Frame R j W' := by
  obtain ⟨W', queue, hmoves, hat, hcurrent⟩ := hleads
  refine ⟨W', ⟨hcurrent.conns, hcurrent.ok, hmoves.history.trans h.history, ?_, fun j => ?_⟩, i,
    hmoves.toFrame⟩
  · rw [hmoves.carried, h.carried]
    exact hex.symm
  · by_cases hji : j = i
    · subst hji
      refine ⟨q, queue, Function.update_self .., ?_, ?_⟩
      · simpa [RingState.after] using hat
      · simpa [RingState.after, links] using hcurrent
    · obtain ⟨qj, queuej, hqj, hatj, hcurrentj⟩ := h.peers j
      refine ⟨qj, queuej, (Function.update_of_ne hji ..).trans hqj, ?_, ?_⟩
      · simpa [RingState.after, hji] using hatj.frame hcurrentj.serves hmoves.toFrame hji
      · have hframe := hcurrentj.frame hmoves.toFrame hji hcurrent.ok
        rw [hcurrent.conns] at hframe
        simpa [RingState.after, links, hji] using hframe

omit [DecidableEq ι] in
theorem Inv.client {conns : ℕ → Option (Link ι)}
    {history : List (CallEvent ℕ ClientRequest Bytes)} (h : Inv net x W)
    (hf : ∀ j, W.Frame R j W') (hok : W'.Ok net) (hconns : W'.conns = conns)
    (hhistory : W'.obj.history = history) (hcarried : W'.carried = W.carried) :
    Inv net { x with conns := conns, history := history } W' where
  conns := hconns
  ok := hok
  history := hhistory
  carried := hcarried.trans h.carried
  peers i := by
    obtain ⟨q, queue, hq, hat, hcurrent⟩ := h.peers i
    have hne : i ≠ R.succ i := (R.succ_ne i).symm
    have hframe := hcurrent.frame (hf (R.succ i)) hne hok
    rw [hconns] at hframe
    exact ⟨q, queue, hq, hat.frame hcurrent.serves (hf (R.succ i)) hne, hframe⟩

omit [DecidableEq ι] in
theorem start_inv (net : RingNet R) : ∃ W, Inv net (start R) W := by
  refine ⟨⟨fun _ => none, fun _ => none, .init fun _ => none⟩, rfl, ⟨fun _ => rfl, .init⟩, rfl, rfl,
    fun i => ⟨.ret (), _, rfl, .idle, rfl, ⟨fun _ => rfl, .init⟩, ?_, ?_⟩⟩
  · exact ⟨R.start_wired i, List.Pairwise.nil, _, represents_empty, fun _ _ => rfl⟩
  · have hnone : ∀ fd c, ((start R).links i).fds fd ≠ some (.down c) := by
      intro fd c hfd
      simp only [links, start] at hfd
      split at hfd
      · cases hfd
      · split at hfd <;> cases hfd
    exact {
      owned := fun fd c hfd => absurd hfd (hnone fd c)
      inj := fun fd _ c hfd => absurd hfd (hnone fd c)
      opened := fun _ hcl => absurd hcl List.not_mem_nil
      distinct := List.nodup_nil
      marked := fun _ hcl => absurd hcl List.not_mem_nil
      waiting := fun _ _ hreq => absurd hreq List.not_mem_nil
      once := fun _ => List.nodup_nil }

/-- Every step of the ring keeps the invariant and is one of a single peer. -/
theorem Inv.step {e : RingEvent ι} (h : Inv net x W) (hs : Step net x e x') :
    ∃ W', Inv net x' W' ∧ ∃ j, W.Frame R j W' := by
  cases hs with
  | invoke c r entry hc =>
    have hcW : W.conns c = none := h.conns ▸ hc
    have hhistory : (W.invoke c r entry).obj.history = x.history ++ [.invoke c r] := by
      rw [← h.history]
      rfl
    exact ⟨_, h.client (fun j => Paths.invoke_frame hcW r entry) (h.ok.invoke hcW r entry)
      (congrArg (Function.update · c _) h.conns) hhistory rfl, entry, Paths.invoke_frame hcW r entry⟩
  | accept i c fd l s' w' hidle hc ht hnew hfd hrun =>
    exact h.after (accept_leads (h.idle hidle) hc ht hnew hfd.2 hrun) (List.append_nil _).symm
  | deliver i cl p c l q s' w' hidle hcl hfd hc hp hrun =>
    exact h.after (deliver_leads (h.idle hidle) hfd hc hp hrun) rfl
  | resume i p q s' w' hwait hrun =>
    obtain ⟨queue, hat, hcurrent⟩ := h.waiting hwait
    exact h.after (resume_leads hat hcurrent hrun) (List.append_nil _).symm
  | sweep i s' w' hidle hrun =>
    exact h.after (sweep_leads (h.idle hidle) hrun) (List.append_nil _).symm
  | hangup i cl c l s' w' hidle hcl hfd hc hup hclosed hrun =>
    exact h.after (hangup_leads (h.idle hidle) hfd hc hup hclosed hrun) (List.append_nil _).symm
  | respond c l hc hsource hopen hdone =>
    have hcW : W.conns c = some l := h.conns ▸ hc
    obtain ⟨r, b, hrole⟩ := h.ok.answered_of_closed hcW hsource hdone
    have hhistory : (W.respond c l r).obj.history = x.history ++ [.respond c l.down] := by
      rw [← h.history]
      rfl
    exact ⟨_, h.client (fun j => Paths.respond_frame hcW r) (h.ok.respond hrole hcW hopen)
      (congrArg (Function.update · c _) h.conns) hhistory rfl, l.target, Paths.respond_frame hcW r⟩

theorem reachable_inv (h : Reachable net x) : ∃ W, Inv net x W := by
  induction h with
  | start => exact start_inv net
  | step e _ hs ih =>
    obtain ⟨W, hinv⟩ := ih
    obtain ⟨W', hinv', -⟩ := hinv.step hs
    exact ⟨W', hinv'⟩

end RingState

/-! ### One table -/

/-- The order is one in which a single peer that executes the requests one after
the other gives all the answers the clients got, every request in it was executed
once by the ring and no other was, and none comes before one that had been
answered when it was sent. -/
structure RingState.OneTable (x : RingState ι) (order : List (ℕ × ClientRequest)) : Prop where
  invoked : ∀ k r, (k, r) ∈ order → .invoke k r ∈ x.history
  executed : x.executed = order.map fun k => k.2.packet
  once : (order.map Prod.fst).Nodup
  answered : ∃ s log, (handleOwnRequests (order.map fun k => k.2.toOwnRequest)).Exec sendLog
    freshPeer [] () s log ∧ ∀ k ret, .respond k ret ∈ x.history →
      ∃ (n : ℕ) (r : ClientRequest), order[n]? = some (k, r) ∧ log[n]? = some (r.socket, ret)
  realTime : ∀ (a b : ℕ) (k k' : ℕ) (ret : Bytes) (r' : ClientRequest),
    x.history[a]? = some (.respond k ret) → x.history[b]? = some (.invoke k' r') → a < b →
    ∀ (n n' : ℕ) (r r'' : ClientRequest), order[n]? = some (k, r) → order[n']? = some (k', r'') →
      n < n'

/-- What a single peer answers, seen as answers of the table. -/
theorem acks_replay (rs : List ClientRequest) (f : Bytes → Option Bytes) :
    acks (rs.map fun r => r.toOwnRequest) f =
      List.zipWith (fun r b => (r.socket, b)) rs (replay ClientRequest.apply f rs) := by
  induction rs generalizing f with
  | nil => rfl
  | cons r rest ih =>
    rw [List.map_cons, acks, replay, List.zipWith_cons_cons, ih]
    rfl

/-- Whatever the clients ask and however the steps of the peers interleave, the ring
answers as one table would. -/
theorem reachable_oneTable [DecidableEq ι] {x : RingState ι} (h : RingState.Reachable net x) :
    ∃ order, x.OneTable order := by
  obtain ⟨W, hinv⟩ := RingState.reachable_inv h
  have hlin := AtomicObject.reachable_linearizes hinv.ok.obj
  rw [hinv.history] at hlin
  obtain ⟨⟨s, hexec⟩, -⟩ := handleOwnRequests_exec
    (W.obj.order.map fun k => k.2.toOwnRequest) (s := freshPeer) represents_empty []
  refine ⟨W.obj.order, hlin.invoked, hinv.carried.symm, hlin.nodup, ⟨s, _, hexec, ?_⟩,
    hlin.realTime⟩
  intro k ret hresp
  obtain ⟨n, r, hn, hret⟩ := hlin.answered k ret hresp
  refine ⟨n, r, hn, ?_⟩
  have hmap : W.obj.order.map (fun k => k.2.toOwnRequest) =
      (W.obj.order.map Prod.snd).map fun r => r.toOwnRequest := by
    rw [List.map_map]
    rfl
  rw [List.nil_append, hmap, acks_replay, List.getElem?_zipWith, List.getElem?_map, hn, hret]
  rfl

/-! ### Runs that are computed -/

/-- Answers of the system that hands out number `fd` and connects over connection
`c` to peer `j`. -/
def linkAnswer [DecidableEq ι] (net : RingNet R) (i j : ι) (fd : Int) (c : ℕ) (w : Links ι) :
    (o : SysOp) → Option (SysRes o × Links ι)
  | .getaddrinfo hostname port => some (net.resolve hostname port, w)
  | .socket => if 0 ≤ fd ∧ w.fds fd = none then some (fd, w.setFd fd (some .unconnected)) else none
  | .connect fd' addr =>
    if w.fds fd' = some .unconnected ∧ (w.conns c).isNone ∧ net.address j = addr then
      some (0, (w.setConn c (.fresh (some i) j)).setFd fd' (some (.up c)))
    else none
  | .send fd' buffer => some (0, w.write fd' buffer)
  | .recv _ => none
  | .close fd' => some ((), w.close fd')
  | .crash _ => none

theorem linkAnswer_call [DecidableEq ι] (fd : Int) (c : ℕ) (w : Links ι) (o : SysOp)
    (r : SysRes o) (w1 : Links ι)
    (h : linkAnswer net i j fd c w o = some (r, w1)) : ¬ o.Waits ∧ linkCall net i w o r w1 := by
  cases o with
  | getaddrinfo hostname port =>
    cases h
    exact ⟨id, rfl, rfl⟩
  | socket =>
    rw [linkAnswer] at h
    split at h
    · next hfree =>
      cases h
      exact ⟨id, hfree, rfl⟩
    · cases h
  | connect fd' addr =>
    rw [linkAnswer] at h
    split at h
    · next hfree =>
      cases h
      obtain ⟨hfd, hc, hj⟩ := hfree
      exact ⟨id, rfl, hfd, j, c, hj, Option.isNone_iff_eq_none.mp hc, rfl⟩
    · cases h
  | send fd' buffer =>
    cases h
    exact ⟨id, rfl, rfl⟩
  | recv fd' => cases h
  | close fd' =>
    cases h
    exact ⟨id, rfl⟩
  | crash f => cases h

namespace RingState
variable [DecidableEq ι]

def asking (x : RingState ι) (c : ℕ) (r : ClientRequest) (e : ι) : RingState ι :=
  { x with
    conns := Function.update x.conns c (some { Link.fresh none e with up := r.packet.wire })
    history := x.history ++ [.invoke c r] }

def accepting (x : RingState ι) (i : ι) (c : ℕ) (l : Link ι) (fd : Int) : RingState ι :=
  let run := (serverAddClient fd).advance (fun _ _ => none) (x.peer i)
    (((x.links i).setConn c { l with accepted := true }).setFd fd (some (.down c)))
  x.after i (.ret ()) run.2.1 run.2.2

def delivering (net : RingNet R) (x : RingState ι) (i : ι) (cl : Client) (p : Packet) (c : ℕ)
    (l : Link ι) (j : ι) (fd : Int) (d : ℕ) : RingState ι :=
  let run := (serverDeliverPacket cl.socket p).advance (linkAnswer net i j fd d) (x.peer i)
    ((x.links i).setConn c { l with up := [] })
  { x.after i run.1 run.2.1 run.2.2 with executed := x.executed ++ executes (x.peer i) p }

def responding (x : RingState ι) (c : ℕ) (l : Link ι) : RingState ι :=
  { x with
    conns := Function.update x.conns c (some { l with upClosed := true })
    history := x.history ++ [.respond c l.down] }

theorem step_accepting (x : RingState ι) {i : ι} {c : ℕ} {l : Link ι} {fd : Int}
    (hidle : x.running i = none) (hc : x.conns c = some l) (ht : l.target = i)
    (hnew : l.accepted = false) (hfd : 0 ≤ fd ∧ x.fds i fd = none) :
    Step net x (.accept i c fd) (x.accepting i c l fd) :=
  .accept x i c fd l _ _ hidle hc ht hnew hfd ⟨rfl, rfl, rfl⟩

theorem step_delivering (x : RingState ι) {i j : ι} {cl : Client} {p : Packet} {c : ℕ} {l : Link ι}
    {fd : Int} {d : ℕ} (hidle : x.running i = none) (hcl : cl ∈ (x.peer i).srv.clients)
    (hfd : x.fds i cl.socket = some (.down c)) (hc : x.conns c = some l)
    (hp : packetDecode l.up l.up.length = .ok (some p))
    (hstop : ((serverDeliverPacket cl.socket p).advance (linkAnswer net i j fd d) (x.peer i)
      ((x.links i).setConn c { l with up := [] })).1.Stopped SysOp.Waits) :
    Step net x (.deliver i cl p) (x.delivering net i cl p c l j fd d) :=
  .deliver x i cl p c l _ _ _ hidle hcl hfd hc hp (Prog.until_of_advance (linkAnswer_call fd d) hstop)

/-- The peer takes `b` for the answer it waits for. -/
def resuming (net : RingNet R) (x : RingState ι) (i : ι) (b : Bytes) (j : ι) (fd : Int) (d : ℕ) :
    RingState ι :=
  match x.running i with
  | some (.call (.recv _) f) =>
    let run := (f b).advance (linkAnswer net i j fd d) (x.peer i) (x.links i)
    x.after i run.1 run.2.1 run.2.2
  | _ => x

theorem step_resuming (x : RingState ι) {i j : ι} {w : Int} {f : Bytes → PeerM Unit} {c : ℕ}
    {l : Link ι} {fd : Int} {d : ℕ} (hwait : x.running i = some (.call (.recv w) f))
    (hfd : x.fds i w = some (.up c)) (hc : x.conns c = some l) (hdone : l.downClosed = true)
    (hstop : ((f l.down).advance (linkAnswer net i j fd d) (x.peer i)
      (x.links i)).1.Stopped SysOp.Waits) :
    Step net x (.resume i) (x.resuming net i l.down j fd d) := by
  rw [resuming, hwait]
  exact .resume x i _ _ _ _ hwait ⟨l.down, x.links i, ⟨rfl, c, l, hfd, hc, hdone, rfl⟩,
    Prog.until_of_advance (linkAnswer_call fd d) hstop⟩

end RingState

def getOf (b : UInt8) : ClientRequest where
  socket := 4
  packet := { packetNew with flags := pktFlagGet, keyLen := 2, key := [0, b] }
  method := .get
  exact := ⟨rfl, rfl⟩
  isData := show flagSet pktFlagGet pktFlagCtrl = false by decide
  oneMethod := show pktFlagGet &&& methodMask = Method.get.flag by decide
  onWire := if_neg (show ¬ flagSet pktFlagGet pktFlagCtrl = true by decide)

/-! ### A value that is set and read -/

def oneByteKey (m : Method) (k : UInt8) (value : Bytes) (h : value.length < 2^32) :
    ClientRequest where
  socket := 4
  packet := { packetNew with
    flags := m.flag, keyLen := 1, valueLen := UInt32.ofNat value.length, key := [k],
    value := value }
  method := m
  exact := ⟨rfl, (UInt32.toNat_ofNat_of_lt' h).symm⟩
  isData := show flagSet m.flag pktFlagCtrl = false by cases m <;> decide
  oneMethod := show m.flag &&& methodMask = m.flag by cases m <;> decide
  onWire := if_neg (show ¬ flagSet m.flag pktFlagCtrl = true by cases m <;> decide)

def setHi : ClientRequest := oneByteKey .set 150 [104, 105] (by decide)

def getHi : ClientRequest := oneByteKey .get 150 [] (by decide)

def setLink : Link (Fin 4) :=
  { Link.fresh none scratchLast with up := setHi.packet.wire, accepted := true }

/-- The last peer, which claims the hash, has handled the SET of its client. -/
def hiStored : RingState (Fin 4) :=
  let x := (RingState.start scratchLinked).asking 0 setHi scratchLast
  let x := x.accepting scratchLast 0 { setLink with accepted := false } 4
  let x := x.delivering scratchNet scratchLast (newClient 4) setHi.packet 0 setLink scratchLast 5 1
  x.responding 0
    { setLink with up := [], down := (setHi.ack none).wire, downClosed := true }

def getLink : Link (Fin 4) := { Link.fresh none scratchThird with up := getHi.packet.wire }

/-- A second client has sent a GET to the peer before it. -/
def hiAsked : RingState (Fin 4) :=
  (hiStored.asking 1 getHi scratchThird).accepting scratchThird 1 getLink 4

def hiProxied : RingState (Fin 4) :=
  hiAsked.delivering scratchNet scratchThird (newClient 4) getHi.packet 1
    { getLink with accepted := true } scratchLast 5 2

def proxyLink : Link (Fin 4) := Link.sent scratchThird scratchLast getHi.packet

def hiArrived : RingState (Fin 4) := hiProxied.accepting scratchLast 2 proxyLink 6

def hiFetched : RingState (Fin 4) :=
  hiArrived.delivering scratchNet scratchLast (newClient 6) getHi.packet 2
    { proxyLink with accepted := true } scratchLast 7 3

def hiAck : Bytes := (getHi.ack (some [104, 105])).wire

def hiRelayed : RingState (Fin 4) :=
  hiFetched.resuming scratchNet scratchThird hiAck scratchLast 7 3

/-- The second client has the value the first one has set. -/
def hiRead : RingState (Fin 4) :=
  hiRelayed.responding 1
    { getLink with up := [], accepted := true, down := hiAck, downClosed := true }

theorem hiStored_reachable : RingState.Reachable scratchNet hiStored := by
  refine .step _ (.step _ (.step _ (.step (.invoke 0 setHi scratchLast) .start
    (.invoke _ 0 setHi scratchLast rfl))
    (RingState.step_accepting (c := 0) _ rfl rfl rfl rfl ?_))
    (RingState.step_delivering _ rfl ?_ ?_ rfl ?_ ?_)) (.respond _ 0 _ rfl rfl rfl rfl)
  · decide
  · decide
  · rfl
  · decide
  · trivial

theorem hiAsked_reachable : RingState.Reachable scratchNet hiAsked := by
  refine .step _ (.step (.invoke 1 getHi scratchThird) hiStored_reachable
    (.invoke _ 1 getHi scratchThird rfl))
    (RingState.step_accepting (c := 1) _ rfl rfl rfl rfl ?_)
  decide

theorem hiProxied_reachable : RingState.Reachable scratchNet hiProxied := by
  refine .step _ hiAsked_reachable (RingState.step_delivering _ rfl ?_ ?_ rfl ?_ ?_)
  · decide
  · rfl
  · decide
  · trivial

theorem hiArrived_reachable : RingState.Reachable scratchNet hiArrived := by
  refine .step _ hiProxied_reachable (RingState.step_accepting (c := 2) _ ?_ ?_ rfl rfl ?_)
  · rfl
  · rfl
  · decide

theorem hiFetched_reachable : RingState.Reachable scratchNet hiFetched := by
  refine .step _ hiArrived_reachable (RingState.step_delivering _ rfl ?_ ?_ ?_ ?_ ?_)
  · decide
  · rfl
  · rfl
  · decide
  · trivial

theorem hiRelayed_reachable : RingState.Reachable scratchNet hiRelayed := by
  refine .step _ hiFetched_reachable (RingState.step_resuming (w := 5) (c := 2)
    (l := { proxyLink with up := [], accepted := true, down := hiAck, downClosed := true })
    _ rfl ?_ ?_ ?_ ?_)
  · rfl
  · rfl
  · rfl
  · trivial

theorem hiRead_reachable : RingState.Reachable scratchNet hiRead := by
  refine .step _ hiRelayed_reachable (.respond _ 1 _ ?_ rfl rfl rfl)
  rfl

theorem reachable_oneTable_hiRead : (∃ order, hiRead.OneTable order) ∧
    hiRead.history = [.invoke 0 setHi, .respond 0 (setHi.ack none).wire,
      .invoke 1 getHi, .respond 1 hiAck] :=
  ⟨reachable_oneTable hiRead_reachable, rfl⟩

end RN2223.Praxis2

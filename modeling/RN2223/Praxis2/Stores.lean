import RN2223.Lib.Processes
import RN2223.Praxis2.Ring

/-!
# What the stores of a ring hold

The peers of a ring side by side, each fed with packets of any content in any
order and answered anything by the network. A key enters a store only through
`handle_own_request`, which runs for claimed hashes alone.
-/

namespace RN2223.Praxis2
open CMemory

variable {ι : Type} [Fintype ι]

/-! ### One request on one table -/

theorem htableSet_entries {ht ht' : HTable} {key value : Bytes} {n m : ℕ}
    (h : htableSet ht key n value m = .ok ht') (hu : ht.Unique) :
    ht'.Unique ∧ ∀ e ∈ ht', e ∈ ht ∨ memcpy key n = .ok e.key := by
  obtain ⟨k, hk, h⟩ := bind_eq_ok.mp h
  rw [hashFind_remove] at h
  obtain ⟨v, -, h⟩ := bind_eq_ok.mp h
  cases h
  refine ⟨insert_unique hu k v, fun e he => ?_⟩
  rw [List.mem_append, List.mem_singleton] at he
  rcases he with he | rfl
  · exact Or.inl (remove_subset ht k e he)
  · exact Or.inr hk

theorem htableDelete_entries {ht ht' : HTable} {key : Bytes} {n : ℕ}
    (h : htableDelete ht key n = .ok ht') (hu : ht.Unique) : ht'.Unique ∧ ∀ e ∈ ht', e ∈ ht := by
  obtain ⟨k, hk, -⟩ := bind_eq_ok.mp h
  have hkn : k.length = n := (memcpy_ok hk).2
  have hrem : htableDelete ht key n = .ok (ht.remove k) := by
    simp only [htableDelete, hk, ok_bind, ← hashFind_remove]
    cases hashFind ht k <;> rfl
  rw [hrem] at h
  cases h
  exact ⟨remove_unique hu k, remove_subset ht k⟩

theorem executeRequest_entries {ht ht' : HTable} {p ack : Packet}
    (h : executeRequest ht p = .ok (ht', ack)) (hu : ht.Unique) : ht'.Unique ∧
      ∀ e ∈ ht', e ∈ ht ∨ memcpy p.key p.keyLen.toNat = .ok e.key := by
  have hsame : ht.Unique ∧ ∀ e ∈ ht, e ∈ ht ∨ memcpy p.key p.keyLen.toNat = .ok e.key :=
    ⟨hu, fun e he => Or.inl he⟩
  dsimp only [executeRequest] at h
  by_cases hget : p.flags = p.flags ||| pktFlagGet
  · rw [if_pos hget] at h
    obtain ⟨found, -, h⟩ := bind_eq_ok.mp h
    cases found with
    | none =>
      cases h
      exact hsame
    | some entry =>
      obtain ⟨key, -, h⟩ := bind_eq_ok.mp h
      obtain ⟨value, -, h⟩ := bind_eq_ok.mp h
      cases h
      exact hsame
  · rw [if_neg hget] at h
    by_cases hset : p.flags = p.flags ||| pktFlagSet
    · rw [if_pos hset] at h
      obtain ⟨ht1, hset, h⟩ := bind_eq_ok.mp h
      cases h
      exact htableSet_entries hset hu
    · rw [if_neg hset] at h
      by_cases hdel : delCondition p.flags ≠ 0
      · rw [if_pos hdel] at h
        obtain ⟨ht1, hdel, h⟩ := bind_eq_ok.mp h
        cases h
        obtain ⟨hu', hsub⟩ := htableDelete_entries hdel hu
        exact ⟨hu', fun e he => Or.inl (hsub e he)⟩
      · rw [if_neg hdel] at h
        cases h
        exact hsame

theorem pseudoHash_memcpy {key k : Bytes} {n : ℕ} (hk : memcpy key n = .ok k) {h : UInt16}
    (hh : pseudoHash key n = .ok h) : pseudoHash k k.length = .ok h := by
  obtain ⟨rfl, hlen⟩ := memcpy_ok hk
  rw [hlen, ← hh]
  have hread : ∀ i, i < n → readByte (key.take n) i = readByte key i := by
    intro i hi
    simp only [readByte, List.getElem?_take_of_lt hi]
  unfold pseudoHash
  split
  · rw [hread 0 (by omega), hread 1 (by omega)]
  · split
    · rw [hread 0 (by omega)]
    · rfl

/-! ### What every handler keeps -/

/-- Peer `i` knows its id and its predecessor's, and every key of its store is
there once and hashes into the interval the peer claims. -/
structure StoreOk (R : Ring ι) (i : ι) (s : PeerState) : Prop where
  selfId : s.self.nodeId = R.id i
  predId : s.pred.nodeId = R.id (R.pred i)
  unique : s.ht.Unique
  claimed : ∀ e ∈ s.ht, ∃ h, pseudoHash e.key e.keyLen = .ok h ∧ R.Claims i h

section
variable {R : Ring ι} {i : ι} {s : PeerState}

theorem storeOk_frame {s' : PeerState} (h : StoreOk R i s) (hht : s'.ht = s.ht)
    (hself : s'.self = s.self) (hpred : s'.pred = s.pred) : StoreOk R i s' := by
  refine ⟨by rw [hself, h.selfId], by rw [hpred, h.predId], by rw [hht]; exact h.unique, ?_⟩
  rw [hht]
  exact h.claimed

abbrev KeepsStore (R : Ring ι) (i : ι) {α : Type} (p : PeerM α) (s : PeerState) : Prop :=
  p.Always anyAnswer (fun s _ => StoreOk R i s) s ()

theorem keepsStore_silent {α : Type} {p : PeerM α} (hp : p.Silent) (h : StoreOk R i s) :
    KeepsStore R i p s :=
  Prog.silent_always hp (fun _ _ _ _ hI _ => hI) h

theorem keepsStore_bind {α β : Type} {p : PeerM α} {f : α → PeerM β} (hp : KeepsStore R i p s)
    (hf : ∀ a s', StoreOk R i s' → KeepsStore R i (f a) s') : KeepsStore R i (p >>= f) s :=
  Prog.always_bind hp fun a s' _ _ hs' => hf a s' hs'

theorem keepsStore_modify {f : PeerState → PeerState} (h : StoreOk R i s)
    (hf : ∀ s, (f s).ht = s.ht ∧ (f s).self = s.self ∧ (f s).pred = s.pred) :
    KeepsStore R i (modifyState f) s :=
  ⟨h, storeOk_frame h (hf s).1 (hf s).2.1 (hf s).2.2⟩

theorem keepsStore_read {α : Type} {f : PeerState → PeerM α} (hf : KeepsStore R i (f s) s) :
    KeepsStore R i (readState >>= f) s := hf

theorem silent_forward (n : Peer) (p : Packet) : (forward n p).Silent := by
  refine Prog.silent_bind (silent_eval _) fun b => Prog.silent_bind (silent_peerConnect n) ?_
  rintro ⟨status, n'⟩
  by_cases hs : status < 0
  · simp [hs]
  · simp only [hs, if_false, sendall_bind, Prog.silent_call]
    intro r
    by_cases hr : r < 0
    · simp [hr]
    · simp only [hr, if_false]
      split
      · exact Prog.silent_bind (silent_peerDisconnect n') fun _ => trivial
      · trivial

theorem silent_proxyRequest (csocket : Int) (p : Packet) (n : Peer) :
    (proxyRequest csocket p n).Silent := by
  refine Prog.silent_bind (silent_forward n p) ?_
  rintro ⟨status, n'⟩
  refine Prog.silent_bind (silent_recvall _) fun answer => ?_
  simp only [sendall_bind, Prog.silent_call]
  exact fun _ => Prog.silent_bind (silent_peerDisconnect n') fun _ => trivial

theorem silent_answerLookup (p : Packet) (n : Peer) : (answerLookup p n).Silent :=
  Prog.silent_bind (silent_peerGetIp n) fun _ => Prog.silent_bind (silent_forward _ _) fun _ =>
    trivial

theorem keepsStore_handleOwnRequest (h : StoreOk R i s) (csocket : Int) {p : Packet}
    {hashId : UInt16} (hh : pseudoHash p.key p.keyLen.toNat = .ok hashId)
    (hclaim : R.Claims i hashId) : KeepsStore R i (handleOwnRequest csocket p) s := by
  refine keepsStore_read ?_
  cases hexec : executeRequest s.ht p with
  | error f => exact ⟨h, fun r => r.elim⟩
  | ok res =>
    obtain ⟨ht', ack⟩ := res
    obtain ⟨hu, hentries⟩ := executeRequest_entries hexec h.unique
    have hnew : StoreOk R i { s with ht := ht' } := by
      refine ⟨h.selfId, h.predId, hu, fun e he => ?_⟩
      rcases hentries e he with hold | hkey
      · exact h.claimed e hold
      · exact ⟨hashId, pseudoHash_memcpy hkey hh, hclaim⟩
    refine keepsStore_bind (p := modifyState fun s => { s with ht := ht' }) ⟨h, hnew⟩
      fun _ s' hs' => ?_
    refine keepsStore_bind (keepsStore_silent (silent_eval _) hs') fun b s2 hs2 => ?_
    exact ⟨hs2, fun _ _ _ => hs2⟩

theorem keepsStore_lookupPeer (h : StoreOk R i s) (hashId : UInt16) :
    KeepsStore R i (lookupPeer hashId) s := by
  refine keepsStore_read ?_
  refine keepsStore_bind (keepsStore_silent (silent_peerGetIp _) h) fun ip s1 hs1 => ?_
  refine keepsStore_bind (keepsStore_silent (silent_forward _ _) hs1) ?_
  rintro ⟨status, succ⟩ s2 hs2
  refine keepsStore_bind (keepsStore_modify hs2 fun _ => ⟨rfl, rfl, rfl⟩) fun _ s3 hs3 => ?_
  split <;> exact hs3

theorem keepsStore_handlePacketData (h : StoreOk R i s) (csocket : Int) (p : Packet) :
    KeepsStore R i (handlePacketData csocket p) s := by
  rw [handlePacketData]
  cases hh : pseudoHash p.key p.keyLen.toNat with
  | error f => exact ⟨h, fun r => r.elim⟩
  | ok hashId =>
    rw [eval_ok, Prog.ret_bind]
    refine keepsStore_read ?_
    split
    · next hc =>
      rw [h.selfId, h.predId] at hc
      exact keepsStore_handleOwnRequest h csocket hh hc
    · split
      · refine keepsStore_bind (keepsStore_silent (silent_proxyRequest _ _ _) h) ?_
        rintro ⟨rsp, succ⟩ s1 hs1
        exact keepsStore_bind (keepsStore_modify hs1 fun _ => ⟨rfl, rfl, rfl⟩) fun _ s2 hs2 => hs2
      · refine keepsStore_bind (keepsStore_silent (silent_eval _) h) fun rt s1 hs1 => ?_
        refine keepsStore_bind (keepsStore_modify hs1 fun _ => ⟨rfl, rfl, rfl⟩) fun _ s2 hs2 => ?_
        exact keepsStore_bind (keepsStore_lookupPeer hs2 hashId) fun _ s3 hs3 => hs3

theorem keepsStore_proxyOpenRequests (rs : List Request) (n : Peer) (h : StoreOk R i s) :
    KeepsStore R i (proxyOpenRequests rs n) s := by
  induction rs generalizing n s with
  | nil => exact h
  | cons r rest ih =>
    refine keepsStore_bind (keepsStore_silent (silent_proxyRequest _ _ _) h) ?_
    rintro ⟨status, n'⟩ s1 hs1
    exact keepsStore_bind (keepsStore_modify hs1 fun _ => ⟨rfl, rfl, rfl⟩) fun _ s2 hs2 => ih n' hs2

theorem keepsStore_handleReply (h : StoreOk R i s) (p : Packet) :
    KeepsStore R i (handleReply p) s := by
  refine keepsStore_read ?_
  exact keepsStore_bind (keepsStore_proxyOpenRequests _ _ h) fun _ s1 hs1 =>
    keepsStore_modify hs1 fun _ => ⟨rfl, rfl, rfl⟩

theorem keepsStore_handlePacketCtrl (h : StoreOk R i s) (p : Packet) :
    KeepsStore R i (handlePacketCtrl p) s := by
  refine keepsStore_read ?_
  split
  · split
    · exact keepsStore_silent (silent_answerLookup _ _) h
    · split
      · exact keepsStore_silent (silent_answerLookup _ _) h
      · refine keepsStore_bind (keepsStore_silent (silent_forward _ _) h) ?_
        rintro ⟨status, succ⟩ s1 hs1
        exact keepsStore_bind (keepsStore_modify hs1 fun _ => ⟨rfl, rfl, rfl⟩) fun _ s2 hs2 => hs2
  · split
    · exact keepsStore_bind (keepsStore_handleReply h p) fun _ s1 hs1 => hs1
    · exact h

theorem keepsStore_serverRemoveClient (h : StoreOk R i s) (csocket : Int) :
    KeepsStore R i (serverRemoveClient csocket) s := by
  refine keepsStore_read ?_
  split
  · refine keepsStore_bind (keepsStore_modify h fun _ => ⟨rfl, rfl, rfl⟩) fun _ s1 hs1 => ?_
    exact ⟨hs1, fun _ _ _ => hs1⟩
  · exact h

theorem keepsStore_serverDeliverPacket (h : StoreOk R i s) (csocket : Int) (p : Packet) :
    KeepsStore R i (serverDeliverPacket csocket p) s := by
  have hhandle : KeepsStore R i (handlePacket csocket p) s := by
    unfold handlePacket
    split
    · exact keepsStore_handlePacketCtrl h p
    · exact keepsStore_handlePacketData h csocket p
  refine keepsStore_bind hhandle fun rsp s1 hs1 => ?_
  split
  · exact keepsStore_serverRemoveClient hs1 csocket
  · exact hs1

theorem keepsStore_removeMarked (cs : List Client) (h : StoreOk R i s) :
    KeepsStore R i (removeMarked cs) s := by
  induction cs generalizing s with
  | nil => exact h
  | cons c next ih =>
    rw [removeMarked]
    split
    · exact keepsStore_bind (keepsStore_serverRemoveClient h _) fun _ s1 hs1 => ih hs1
    · exact ih h

end

/-! ### The ring -/

/-- What the loop of `server_run` does in one go: hand a packet to the callback,
remove a client whose stream ended, sweep, or accept. -/
inductive PeerAction : PeerM Unit → Prop where
  | deliver (csocket : Int) (p : Packet) : PeerAction (serverDeliverPacket csocket p)
  | remove (csocket : Int) : PeerAction (serverRemoveClient csocket)
  | sweep : PeerAction serverSweep
  | accept (socket : Int) : PeerAction (serverAddClient socket)

theorem keepsStore_action {R : Ring ι} {i : ι} {s : PeerState} {p : PeerM Unit}
    (hp : PeerAction p) (h : StoreOk R i s) : KeepsStore R i p s := by
  cases hp with
  | deliver csocket p => exact keepsStore_serverDeliverPacket h csocket p
  | remove csocket => exact keepsStore_serverRemoveClient h csocket
  | sweep => exact keepsStore_read (keepsStore_removeMarked _ h)
  | accept socket => exact keepsStore_modify h fun _ => ⟨rfl, rfl, rfl⟩

abbrev RingProcesses (ι : Type) : Type := Processes ι PeerState SysOp SysRes

structure Started (R : LinkedRing ι) (s : RingProcesses ι) : Prop where
  wired : ∀ i, R.Wired i (s.state i)
  empty : ∀ i, (s.state i).ht = []
  idle : ∀ i, s.running i = none

/-- Keys are where their hash is claimed, once. -/
structure StoresRight (R : LinkedRing ι) (s : ι → PeerState) : Prop where
  claimed : ∀ i, ∀ e ∈ (s i).ht, ∃ h, pseudoHash e.key e.keyLen = .ok h ∧
    peerIsResponsible (R.id (R.pred i)) (R.id i) h ≠ 0
  unique : ∀ i, (s i).ht.Unique
  disjoint : ∀ i j, i ≠ j → ∀ e ∈ (s i).ht, ∀ e' ∈ (s j).ht, e.key ≠ e'.key

theorem storesRight_of_storeOk {R : LinkedRing ι} {s : ι → PeerState}
    (h : ∀ i, StoreOk R.toRing i (s i)) : StoresRight R s := by
  refine ⟨fun i => (h i).claimed, fun i => (h i).unique, fun i j hij e he e' he' hk => hij ?_⟩
  obtain ⟨x, hx, hi⟩ := (h i).claimed e he
  obtain ⟨y, hy, hj⟩ := (h j).claimed e' he'
  rw [HtEntry.keyLen, hk] at hx
  rw [HtEntry.keyLen, hx, Except.ok.injEq] at hy
  subst hy
  exact R.claims_unique hi hj

theorem storeOk_started {R : LinkedRing ι} {s : RingProcesses ι} (h : Started R s) :
    Processes.Keeps (StoreOk R.toRing) s := by
  refine ⟨fun i => ?_, fun i p hp => ?_⟩
  · have hnone := h.empty i
    refine ⟨(h.wired i).self.nodeId, (h.wired i).pred.nodeId, ?_, ?_⟩
    · rw [hnone]
      exact List.Pairwise.nil
    · rw [hnone]
      exact fun e he => absurd he List.not_mem_nil
  · rw [h.idle i] at hp
    cases hp

/-- Whatever packets the peers of a ring handle in whatever order, every state
they reach has each key at most once, at a peer that claims its hash. -/
theorem reachable_storesRight [DecidableEq ι] (R : LinkedRing ι) (s : RingProcesses ι)
    (h : Processes.Reachable (fun _ p => PeerAction p) (Started R) s) :
    StoresRight R s.state :=
  storesRight_of_storeOk (Processes.reachable_keeps (fun _ _ _ hp hs => keepsStore_action hp hs)
    (fun _ => storeOk_started) h).state

def scratchStart : RingProcesses (Fin 4) where
  state := scratchLinked.start
  running _ := none

theorem scratchStart_started : Started scratchLinked scratchStart :=
  ⟨scratchLinked.start_wired, fun _ => rfl, fun _ => rfl⟩

/-- A network in which every call succeeds; nothing is sent back. -/
def obliging (_ : Unit) : (o : SysOp) → Option (SysRes o × Unit)
  | .getaddrinfo _ _ => some ([.inet 2130706433 4710], ())
  | .socket => some (7, ())
  | .connect _ _ => some (0, ())
  | .send _ _ => some (0, ())
  | .recv _ => some ([], ())
  | .close _ => some ((), ())
  | .crash _ => none

/-- The packet is handled by peer `i` from beginning to end. -/
def RingProcesses.handled (s : RingProcesses (Fin 4)) (i : Fin 4) (p : Packet) :
    RingProcesses (Fin 4) :=
  ⟨Function.update s.state i ((serverDeliverPacket 5 p).advance obliging (s.state i) ()).2.1,
    s.running⟩

theorem handled_reachable {s : RingProcesses (Fin 4)} {i : Fin 4} {p : Packet}
    (h : Processes.Reachable (fun _ p => PeerAction p) (Started scratchLinked) s)
    (hidle : s.running i = none)
    (hret : ((serverDeliverPacket 5 p).advance obliging (s.state i) ()).1.returned = some ()) :
    Processes.Reachable (fun _ p => PeerAction p) (Started scratchLinked) (s.handled i p) :=
  Processes.reachable_run h hidle (.deliver 5 p)
    (Prog.exec_of_advance (fun _ _ _ _ _ => trivial) hret)

def setPacket (k v : UInt8) : Packet :=
  { packetNew with flags := 2, keyLen := 1, valueLen := 1, key := [k], value := [v] }

/-- Peer 138 has handled a SET for hash 100, peer 202 one for hash 150. -/
def twoStored : RingProcesses (Fin 4) :=
  (RingProcesses.handled scratchStart scratchThird (setPacket 100 7)).handled scratchLast
    (setPacket 150 8)

theorem reachable_storesRight_set : (twoStored.state scratchThird).ht = [⟨[100], [7]⟩] ∧
    (twoStored.state scratchLast).ht = [⟨[150], [8]⟩] ∧ StoresRight scratchLinked twoStored.state := by
  refine ⟨by decide, by decide, reachable_storesRight scratchLinked twoStored ?_⟩
  refine handled_reachable (handled_reachable (.init scratchStart_started) rfl ?_) rfl ?_
  all_goals decide

end RN2223.Praxis2

import RN2223.Praxis2.Peer
import RN2223.Praxis2.PacketCodec

/-!
# Requests a peer answers itself (peer.c:108-153)

The store is seen as a function from keys to values. Every request acts on that
function, and the answer to a GET is a function of the value it finds; a run
over a sequence of requests is the sequence of these answers.
-/

namespace RN2223.Praxis2
open CMemory

/-! ### Data packets with one method -/

inductive Method where
  | get
  | set
  | del
  deriving DecidableEq, Repr

def Method.flag : Method → UInt8
  | .get => pktFlagGet
  | .set => pktFlagSet
  | .del => pktFlagDel

def methodMask : UInt8 := pktFlagGet ||| pktFlagSet ||| pktFlagDel

/-- A data packet whose buffers fit its lengths and that has exactly one method
bit, with the socket of the client that sent it. -/
structure OwnRequest where
  socket : Int
  packet : Packet
  method : Method
  exact : packet.Exact
  isData : flagSet packet.flags pktFlagCtrl = false
  oneMethod : packet.flags &&& methodMask = method.flag

def OwnRequest.key (r : OwnRequest) : Bytes := r.packet.key

theorem eq_or_iff (f m : UInt8) : f = f ||| m ↔ f &&& m = m := by
  rw [← UInt8.toBitVec_inj, ← UInt8.toBitVec_inj, UInt8.toBitVec_or, UInt8.toBitVec_and]
  constructor
  · intro h
    ext i hi
    have hb := congrArg (fun b => b.getLsbD i) h
    simp at hb
    simpa [hi] using fun hm => hb hm
  · intro h
    ext i hi
    have hb := congrArg (fun b => b.getLsbD i) h
    simp at hb
    simpa [hi] using hb

/-- The tests of the dispatch see the method bits only. -/
theorem OwnRequest.eq_or_iff (r : OwnRequest) {m : UInt8} (hm : methodMask &&& m = m) :
    r.packet.flags = r.packet.flags ||| m ↔ r.method.flag &&& m = m := by
  rw [Praxis2.eq_or_iff, ← r.oneMethod, UInt8.and_assoc, hm]

/-! ### The effect on the store and the answer -/

/-- The store before and after a request, as a function from keys to values. -/
def OwnRequest.apply (r : OwnRequest) (f : Bytes → Option Bytes) (key : Bytes) : Option Bytes :=
  if key = r.key then
    match r.method with
    | .get => f key
    | .set => some r.packet.value
    | .del => none
  else f key

/-- The ACK packet when `live` is the value stored under the key. -/
def OwnRequest.ack (r : OwnRequest) (live : Option Bytes) : Packet :=
  match r.method with
  | .get =>
    match live with
    | some v => { packetNew with
        flags := 0 ||| pktFlagGet ||| pktFlagAck, key := zeroFrom r.key,
        keyLen := r.packet.keyLen, value := zeroFrom v, valueLen := UInt32.ofNat v.length }
    | none => { packetNew with flags := 0 ||| pktFlagGet ||| pktFlagAck }
  | .set => { packetNew with flags := 0 ||| pktFlagSet ||| pktFlagAck }
  | .del => { packetNew with flags := 0 ||| pktFlagDel ||| pktFlagAck }

/-- The table stands for the function, with values a header can announce. -/
structure Represents (ht : HTable) (f : Bytes → Option Bytes) : Prop where
  unique : ht.Unique
  lookup : ∀ key, ht.lookup key = f key
  short : ∀ key v, f key = some v → v.length < 2 ^ 32

theorem represents_empty : Represents [] fun _ => none :=
  ⟨List.Pairwise.nil, fun _ => rfl, fun _ _ h => nomatch h⟩

theorem hashFind_of_lookup {ht : HTable} {key v : Bytes} (h : ht.lookup key = some v) :
    hashFind ht key = some ⟨key, v⟩ := by
  rw [HTable.lookup, Option.map_eq_some_iff] at h
  obtain ⟨e, he, rfl⟩ := h
  rw [he, ← hashFind_key he]

theorem hashFind_of_lookup_none {ht : HTable} {key : Bytes} (h : ht.lookup key = none) :
    hashFind ht key = none := Option.map_eq_none_iff.mp h

theorem represents_insert {ht : HTable} {f : Bytes → Option Bytes} (h : Represents ht f)
    (key : Bytes) {v : Bytes} (hv : v.length < 2 ^ 32) :
    Represents (ht.remove key ++ [⟨key, v⟩]) fun k => if k = key then some v else f k := by
  refine ⟨insert_unique h.unique key v, fun k => ?_, fun k w hw => ?_⟩
  · by_cases hk : k = key
    · rw [hk, if_pos rfl, HTable.lookup, hashFind_insert_self h.unique]
      rfl
    · rw [if_neg hk, HTable.lookup, hashFind_insert_ne ht hk]
      exact h.lookup k
  · by_cases hk : k = key
    · rw [if_pos hk, Option.some.injEq] at hw
      rwa [← hw]
    · rw [if_neg hk] at hw
      exact h.short k w hw

theorem represents_remove {ht : HTable} {f : Bytes → Option Bytes} (h : Represents ht f)
    (key : Bytes) : Represents (ht.remove key) fun k => if k = key then none else f k := by
  refine ⟨remove_unique h.unique key, fun k => ?_, fun k w hw => ?_⟩
  · by_cases hk : k = key
    · rw [hk, if_pos rfl, HTable.lookup, hashFind_remove_self h.unique]
      rfl
    · rw [if_neg hk, HTable.lookup, hashFind_remove_ne ht hk]
      exact h.lookup k
  · by_cases hk : k = key
    · rw [if_pos hk] at hw
      cases hw
    · rw [if_neg hk] at hw
      exact h.short k w hw

/-- The dispatch acts on the table as the request acts on the function, and its
ACK depends on the value found only. -/
theorem executeRequest_refines (r : OwnRequest) {ht : HTable} {f : Bytes → Option Bytes}
    (h : Represents ht f) : ∃ ht', executeRequest ht r.packet = .ok (ht', r.ack (f r.key)) ∧
      Represents ht' (r.apply f) := by
  have hget := r.eq_or_iff (m := pktFlagGet) (by decide)
  have hset := r.eq_or_iff (m := pktFlagSet) (by decide)
  cases hm : r.method with
  | get =>
    rw [hm] at hget
    have happly : r.apply f = f := by
      funext k
      simp [OwnRequest.apply, hm]
    refine ⟨ht, ?_, by rwa [happly]⟩
    rw [executeRequest, if_pos (hget.mpr (by decide)), htableGet_exact r.exact.key]
    cases hf : f r.key with
    | none =>
      have hnone := hashFind_of_lookup_none ((h.lookup r.key).trans hf)
      rw [OwnRequest.key] at hnone
      simp only [ok_bind, hnone, OwnRequest.ack, hm]
    | some v =>
      have hfound := hashFind_of_lookup ((h.lookup r.key).trans hf)
      rw [OwnRequest.key] at hfound
      have hkl : UInt16.ofNat r.packet.key.length = r.packet.keyLen := by
        rw [r.exact.key, UInt16.ofNat_toNat]
      simp only [ok_bind, hfound, OwnRequest.ack, hm, HtEntry.keyLen, HtEntry.valueLen,
        strncpy_length, OwnRequest.key, hkl]
  | set =>
    rw [hm] at hget hset
    have happly : r.apply f = fun k => if k = r.key then some r.packet.value else f k := by
      funext k
      simp [OwnRequest.apply, hm]
    have hshort : r.packet.value.length < 2 ^ 32 := by
      rw [r.exact.value]
      exact UInt32.toNat_lt _
    refine ⟨ht.remove r.key ++ [⟨r.key, r.packet.value⟩], ?_,
      happly ▸ represents_insert h r.key hshort⟩
    rw [executeRequest, if_neg (hget.not.mpr (by decide)), if_pos (hset.mpr (by decide)),
      htableSet_exact r.exact.key r.exact.value]
    simp only [ok_bind, OwnRequest.ack, hm, OwnRequest.key]
  | del =>
    rw [hm] at hget hset
    have happly : r.apply f = fun k => if k = r.key then none else f k := by
      funext k
      simp [OwnRequest.apply, hm]
    refine ⟨ht.remove r.key, ?_, happly ▸ represents_remove h r.key⟩
    have hdel : delCondition r.packet.flags ≠ 0 := by
      simp [delCondition]
    rw [executeRequest, if_neg (hget.not.mpr (by decide)), if_neg (hset.not.mpr (by decide)),
      if_pos hdel, htableDelete_exact r.exact.key]
    simp only [ok_bind, OwnRequest.ack, hm, OwnRequest.key]

theorem OwnRequest.ack_isData (r : OwnRequest) (live : Option Bytes) :
    flagSet (r.ack live).flags pktFlagCtrl = false := by
  have hflags : (r.ack live).flags = r.method.flag ||| pktFlagAck := by
    unfold OwnRequest.ack
    cases r.method with
    | get => cases live <;> simp [Method.flag]
    | set => simp [Method.flag]
    | del => simp [Method.flag]
  rw [hflags]
  cases r.method <;> decide

theorem OwnRequest.ack_exact (r : OwnRequest) {live : Option Bytes}
    (h : ∀ v, live = some v → v.length < 2 ^ 32) : (r.ack live).Exact := by
  unfold OwnRequest.ack
  split
  · split
    · next v =>
      have hv := h v rfl
      refine ⟨?_, ?_⟩
      · rw [zeroFrom_length]
        exact r.exact.key
      · simp only [zeroFrom_length, UInt32.toNat_ofNat']
        exact (Nat.mod_eq_of_lt hv).symm
    · exact ⟨rfl, rfl⟩
  · exact ⟨rfl, rfl⟩
  · exact ⟨rfl, rfl⟩

/-! ### Runs -/

def sendLog (w : List (Int × Bytes)) : (o : SysOp) → SysRes o → List (Int × Bytes) → Prop
  | .send fd buffer, _, w' => w' = w ++ [(fd, buffer)]
  | _, _, _ => False

def handleOwnRequests : List OwnRequest → PeerM Unit
  | [] => return ()
  | r :: rest => do
    let _ ← handleOwnRequest r.socket r.packet
    handleOwnRequests rest

theorem handleOwnRequest_exec (r : OwnRequest) {s : PeerState} {f : Bytes → Option Bytes}
    (h : Represents s.ht f) (w : List (Int × Bytes)) : ∃ ht', Represents ht' (r.apply f) ∧
    ∀ a s' w', (handleOwnRequest r.socket r.packet).Exec sendLog s w a s' w' ↔
      a = cbRemoveClient ∧ s' = { s with ht := ht' } ∧
        w' = w ++ [(r.socket, (r.ack (f r.key)).wire)] := by
  obtain ⟨ht', hexec, hrep⟩ := executeRequest_refines r h
  have hser := packetSerialize_exact fun _ => r.ack_exact (h.short r.key)
  refine ⟨ht', hrep, fun a s' w' => ?_⟩
  simp only [handleOwnRequest, readState, modifyState, Prog.read_bind, Prog.exec_get, hexec,
    eval_ok, Prog.ret_bind, Prog.modify_bind, Prog.exec_put, hser, sendall_bind, Prog.exec_call,
    sendLog, Prog.pure_eq, Prog.exec_ret]
  constructor
  · rintro ⟨-, w1, rfl, ha, hs, hw⟩
    exact ⟨ha, hs, hw⟩
  · rintro ⟨ha, hs, hw⟩
    exact ⟨0, _, rfl, ha, hs, hw⟩

/-- The answers of a run over the requests, the store being `f` at its start. -/
def acks : List OwnRequest → (Bytes → Option Bytes) → List (Int × Bytes)
  | [], _ => []
  | r :: rest, f => (r.socket, (r.ack (f r.key)).wire) :: acks rest (r.apply f)

theorem handleOwnRequests_exec (rs : List OwnRequest) {s : PeerState}
    {f : Bytes → Option Bytes} (h : Represents s.ht f) (w : List (Int × Bytes)) :
    (∃ s', (handleOwnRequests rs).Exec sendLog s w () s' (w ++ acks rs f)) ∧
    ∀ s' w', (handleOwnRequests rs).Exec sendLog s w () s' w' → w' = w ++ acks rs f := by
  induction rs generalizing s f w with
  | nil =>
    refine ⟨⟨s, rfl, rfl, List.append_nil w⟩, ?_⟩
    rintro s' w' ⟨-, -, rfl⟩
    exact (List.append_nil w').symm
  | cons r rest ih =>
    obtain ⟨ht', hrep, hone⟩ := handleOwnRequest_exec r h w
    obtain ⟨⟨s2, hrest⟩, hall⟩ := ih (s := { s with ht := ht' }) hrep
      (w ++ [(r.socket, (r.ack (f r.key)).wire)])
    have happ : w ++ acks (r :: rest) f =
        w ++ [(r.socket, (r.ack (f r.key)).wire)] ++ acks rest (r.apply f) := by
      rw [acks, List.append_assoc, List.singleton_append]
    constructor
    · refine ⟨s2, Prog.exec_bind.mpr ⟨cbRemoveClient, _, _, (hone _ _ _).mpr ⟨rfl, rfl, rfl⟩, ?_⟩⟩
      rw [happ]
      exact hrest
    · intro s' w' he
      obtain ⟨a, s1, w1, h1, h2⟩ := Prog.exec_bind.mp he
      obtain ⟨-, rfl, rfl⟩ := (hone a s1 w1).mp h1
      rw [happ]
      exact hall s' w' h2

/-! ### What the last write says -/

/-- The last SET or DELETE of the key. -/
def lastWrite (rs : List OwnRequest) (key : Bytes) : Option OwnRequest :=
  (rs.filter fun r : OwnRequest => r.method ≠ .get ∧ r.key = key).getLast?

/-- The value of the last write if it was a SET. -/
def liveValue (rs : List OwnRequest) (key : Bytes) : Option Bytes :=
  match lastWrite rs key with
  | some r => if r.method = .set then some r.packet.value else none
  | none => none

/-- The bytes decode to the key and its live value, or to an ACK without both. -/
def OwnRequest.AnsweredBy (r : OwnRequest) (live : Option Bytes) (b : Bytes) : Prop :=
  ∃ q, packetDecode b b.length = .ok (some q) ∧ q.flags = pktFlagGet ||| pktFlagAck ∧
    match live with
    | some v => q.key = r.packet.key ∧ q.keyLen = r.packet.keyLen ∧ q.value = v ∧
        q.valueLen.toNat = v.length
    | none => q.keyLen = 0 ∧ q.valueLen = 0

/-- Every GET of the sequence got the answer its history calls for. -/
def AnsweredRight (rs : List OwnRequest) (log : List (Int × Bytes)) : Prop :=
  ∀ (i : ℕ) (r : OwnRequest), rs[i]? = some r → r.method = .get →
    ∃ b, log[i]? = some (r.socket, b) ∧ r.AnsweredBy (liveValue (rs.take i) r.key) b

theorem lastWrite_append (rs : List OwnRequest) (r : OwnRequest) (key : Bytes) :
    lastWrite (rs ++ [r]) key =
      if r.method ≠ .get ∧ r.key = key then some r else lastWrite rs key := by
  rw [lastWrite, List.filter_append]
  by_cases hr : r.method ≠ .get ∧ r.key = key
  · rw [if_pos hr, List.filter_cons_of_pos (by simpa using hr)]
    simp
  · rw [if_neg hr, List.filter_cons_of_neg (by simpa using hr)]
    simp [lastWrite]

theorem liveValue_append (rs : List OwnRequest) (r : OwnRequest) :
    liveValue (rs ++ [r]) = r.apply (liveValue rs) := by
  funext key
  rw [liveValue, lastWrite_append, OwnRequest.apply]
  by_cases hk : key = r.key
  · cases hm : r.method <;> simp [hk, hm, liveValue]
  · have hk' : ¬ r.key = key := fun h => hk h.symm
    simp [hk, hk', liveValue]

theorem acks_getElem (rs pre : List OwnRequest) (i : ℕ) :
    (acks rs (liveValue pre))[i]? = rs[i]?.map fun r =>
      (r.socket, (r.ack (liveValue (pre ++ rs.take i) r.key)).wire) := by
  induction rs generalizing pre i with
  | nil => simp [acks]
  | cons r rest ih =>
    cases i with
    | zero => simp [acks]
    | succ i =>
      rw [acks, List.getElem?_cons_succ, List.getElem?_cons_succ, ← liveValue_append, ih]
      simp

theorem liveValue_short (rs : List OwnRequest) {key v : Bytes}
    (h : liveValue rs key = some v) : v.length < 2 ^ 32 := by
  rw [liveValue] at h
  cases hl : lastWrite rs key with
  | none => simp [hl] at h
  | some r =>
    simp only [hl] at h
    split at h
    · rw [Option.some.injEq] at h
      rw [← h, r.exact.value]
      exact UInt32.toNat_lt _
    · cases h

/-- The answer is right exactly when `strncpy` copies key and value whole. -/
theorem answeredBy_ack_iff (r : OwnRequest) (hm : r.method = .get) {live : Option Bytes}
    (hlen : ∀ v, live = some v → v.length < 2 ^ 32) :
    r.AnsweredBy live (r.ack live).wire ↔
      ∀ v, live = some v → ZeroTailed r.key ∧ ZeroTailed v := by
  have hdec := packetDecode_wire fun _ => r.ack_exact hlen
  rw [OwnRequest.AnsweredBy]
  simp only [hdec, Except.ok.injEq, Option.some.injEq, exists_eq_left', Packet.onWire,
    r.ack_isData, Bool.false_eq_true, if_false]
  cases live with
  | none => simp [OwnRequest.ack, hm, packetNew]
  | some v =>
    have hv : (UInt32.ofNat v.length).toNat = v.length := by
      rw [UInt32.toNat_ofNat']
      exact Nat.mod_eq_of_lt (hlen v rfl)
    have hflags : (0 ||| pktFlagGet ||| pktFlagAck : UInt8) = pktFlagGet ||| pktFlagAck := by
      decide
    simp only [OwnRequest.ack, hm, hv, hflags, true_and, and_true, OwnRequest.key,
      Option.some.injEq, forall_eq', zeroFrom_eq_self_iff]

/-! ### GET after any history -/

/-- No GET meets a key or a live value in which a byte other than zero comes
after a zero byte. -/
def ZeroTailedGets (rs : List OwnRequest) : Prop :=
  ∀ (i : ℕ) (r : OwnRequest), rs[i]? = some r → r.method = .get →
    ∀ v, liveValue (rs.take i) r.key = some v → ZeroTailed r.key ∧ ZeroTailed v

theorem answeredRight_acks_iff (rs : List OwnRequest) :
    AnsweredRight rs (acks rs fun _ => none) ↔ ZeroTailedGets rs := by
  have hstep : ∀ (i : ℕ) (r : OwnRequest), rs[i]? = some r → r.method = .get →
      ((∃ b, (acks rs fun _ => none)[i]? = some (r.socket, b) ∧
        r.AnsweredBy (liveValue (rs.take i) r.key) b) ↔
      ∀ v, liveValue (rs.take i) r.key = some v → ZeroTailed r.key ∧ ZeroTailed v) := by
    intro i r hr hm
    have hget := acks_getElem rs [] i
    rw [hr] at hget
    have hempty : liveValue [] = fun _ => none := rfl
    rw [hempty, List.nil_append, Option.map_some] at hget
    rw [← answeredBy_ack_iff r hm fun v => liveValue_short (rs.take i), hget]
    simp only [Option.some.injEq, Prod.mk.injEq, true_and, exists_eq_left']
  constructor
  · exact fun h i r hr hm => (hstep i r hr hm).mp (h i r hr hm)
  · exact fun h i r hr hm => (hstep i r hr hm).mpr (h i r hr hm)

/-- Started on an empty table, any sequence of requests is answered, and the
answers to its GETs are right exactly when `strncpy` meets no inner zero byte. -/
theorem handleOwnRequests_answeredRight_iff (rs : List OwnRequest) (s : PeerState)
    (h : s.ht = []) : ∃ log,
      (∀ log', (∃ s', (handleOwnRequests rs).Exec sendLog s [] () s' log') ↔ log' = log) ∧
      (AnsweredRight rs log ↔ ZeroTailedGets rs) := by
  have hrep : Represents s.ht fun _ => none := by
    rw [h]
    exact represents_empty
  obtain ⟨hsome, hall⟩ := handleOwnRequests_exec rs hrep []
  refine ⟨acks rs fun _ => none, fun log' => ?_, answeredRight_acks_iff rs⟩
  constructor
  · rintro ⟨s', he⟩
    exact hall s' log' he
  · rintro rfl
    exact hsome

def setWithNul : OwnRequest where
  socket := 4
  packet := { packetNew with
    flags := pktFlagSet, keyLen := 1, valueLen := 3, key := [97], value := [98, 0, 99] }
  method := .set
  exact := by decide
  isData := by decide
  oneMethod := by decide

def getWithNul : OwnRequest where
  socket := 5
  packet := { packetNew with flags := pktFlagGet, keyLen := 1, key := [97] }
  method := .get
  exact := by decide
  isData := by decide
  oneMethod := by decide

theorem handleOwnRequests_answeredRight_iff_set_get : ∃ log,
    (∀ log', (∃ s', (handleOwnRequests [setWithNul, getWithNul]).Exec sendLog freshPeer [] ()
      s' log') ↔ log' = log) ∧
    (AnsweredRight [setWithNul, getWithNul] log ↔ ZeroTailedGets [setWithNul, getWithNul]) :=
  handleOwnRequests_answeredRight_iff [setWithNul, getWithNul] freshPeer rfl

/-- The value is stored whole, but the answer has lost the byte behind the zero. -/
theorem getWithNul_answered_wrong : ∃ s' log,
    (handleOwnRequests [setWithNul, getWithNul]).Exec sendLog freshPeer [] () s' log ∧
    s'.ht.lookup [97] = some [98, 0, 99] ∧ ¬ AnsweredRight [setWithNul, getWithNul] log := by
  have hrep : Represents freshPeer.ht fun _ => none := represents_empty
  obtain ⟨ht1, hrep1, hset⟩ := handleOwnRequest_exec setWithNul hrep []
  obtain ⟨ht2, hrep2, hget⟩ := handleOwnRequest_exec getWithNul (s := { freshPeer with ht := ht1 })
    hrep1 ([] ++ [(4, (setWithNul.ack none).wire)])
  refine ⟨{ freshPeer with ht := ht2 }, acks [setWithNul, getWithNul] fun _ => none, ?_, ?_, ?_⟩
  · refine Prog.exec_bind.mpr ⟨_, _, _, (hset _ _ _).mpr ⟨rfl, rfl, rfl⟩, ?_⟩
    refine Prog.exec_bind.mpr ⟨_, _, _, (hget _ _ _).mpr ⟨rfl, rfl, rfl⟩, rfl, rfl, ?_⟩
    rfl
  · exact (hrep2.lookup [97]).trans (by decide)
  · rw [answeredRight_acks_iff]
    intro hz
    obtain ⟨-, hv⟩ := hz 1 getWithNul rfl rfl [98, 0, 99] (by decide)
    revert hv
    decide

end RN2223.Praxis2

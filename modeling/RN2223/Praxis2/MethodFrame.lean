import RN2223.Praxis2.OwnRequest

/-!
# What a request may change (peer.c:108-153)

Any data packet against any table: which entries `handle_own_request` touches
and which method its ACK names. The third test of the dispatch holds of every
packet, so one without any method bit is taken for a DELETE.
-/

namespace RN2223.Praxis2
open CMemory

/-! ### Method bits -/

def Method.In (m : Method) (flags : UInt8) : Prop := flagSet flags m.flag = true

instance (m : Method) (flags : UInt8) : Decidable (m.In flags) :=
  inferInstanceAs (Decidable (_ = true))

theorem Method.in_iff (m : Method) (flags : UInt8) : m.In flags ↔ flags = flags ||| m.flag := by
  obtain ⟨flags⟩ := flags
  revert flags
  cases m with
  | get => decide
  | set => decide
  | del => decide

theorem Method.in_ack (m m' : Method) : m'.In (0 ||| m.flag ||| pktFlagAck) ↔ m' = m := by
  revert m m'
  intro m m'
  cases m <;> cases m' <;> decide

/-! ### The three branches -/

theorem packetSerialize_head {p : Packet} (hdata : flagSet p.flags pktFlagCtrl = false)
    (hk : p.keyLen.toNat ≤ p.key.length) (hv : p.valueLen.toNat ≤ p.value.length) :
    ∃ b, packetSerialize p = .ok b ∧ b.head? = some p.flags := by
  have hfield : ∀ (ptr : Bytes) (n : ℕ), n ≤ ptr.length → ∃ f, copyField ptr n = .ok f := by
    intro ptr n hn
    unfold copyField
    split
    · exact ⟨_, if_pos hn⟩
    · exact ⟨_, rfl⟩
  obtain ⟨key, hkey⟩ := hfield p.key p.keyLen.toNat hk
  obtain ⟨value, hvalue⟩ := hfield p.value p.valueLen.toNat hv
  rw [packetSerialize, hdata, packetSerializeData, hkey, hvalue]
  exact ⟨_, rfl, rfl⟩

section
variable {ht : HTable} {p : Packet}

structure IsAck (m : Method) (ack : Packet) : Prop where
  flags : ack.flags = 0 ||| m.flag ||| pktFlagAck
  key : ack.keyLen.toNat ≤ ack.key.length
  value : ack.valueLen.toNat ≤ ack.value.length

theorem executeRequest_get (hp : p.Exact) (hget : Method.get.In p.flags) :
    ∃ ack, executeRequest ht p = .ok (ht, ack) ∧ IsAck .get ack := by
  have hor : p.flags = p.flags ||| pktFlagGet := (Method.in_iff _ _).mp hget
  rw [executeRequest, if_pos hor, htableGet_exact hp.key]
  simp only [ok_bind]
  cases hashFind ht p.key with
  | none => exact ⟨_, rfl, rfl, Nat.le_refl _, Nat.le_refl _⟩
  | some entry =>
    simp only [HtEntry.keyLen, HtEntry.valueLen, strncpy_length, ok_bind]
    refine ⟨_, rfl, rfl, ?_, ?_⟩
    · rw [zeroFrom_length, UInt16.toNat_ofNat']
      exact Nat.mod_le _ _
    · rw [zeroFrom_length, UInt32.toNat_ofNat']
      exact Nat.mod_le _ _

theorem executeRequest_set (hp : p.Exact) (hget : ¬ Method.get.In p.flags)
    (hset : Method.set.In p.flags) : ∃ ack, executeRequest ht p =
      .ok (ht.remove p.key ++ [⟨p.key, p.value⟩], ack) ∧ IsAck .set ack := by
  have hor : ¬ p.flags = p.flags ||| pktFlagGet := mt (Method.in_iff .get _).mpr hget
  have hor' : p.flags = p.flags ||| pktFlagSet := (Method.in_iff _ _).mp hset
  rw [executeRequest, if_neg hor, if_pos hor', htableSet_exact hp.key hp.value]
  exact ⟨_, rfl, rfl, Nat.le_refl _, Nat.le_refl _⟩

/-- Whatever bits are left, the entry is deleted. -/
theorem executeRequest_del (hp : p.Exact) (hget : ¬ Method.get.In p.flags)
    (hset : ¬ Method.set.In p.flags) :
    ∃ ack, executeRequest ht p = .ok (ht.remove p.key, ack) ∧ IsAck .del ack := by
  have hdel : delCondition p.flags ≠ 0 := by simp [delCondition]
  have hor : ¬ p.flags = p.flags ||| pktFlagGet := mt (Method.in_iff .get _).mpr hget
  have hor' : ¬ p.flags = p.flags ||| pktFlagSet := mt (Method.in_iff .set _).mpr hset
  rw [executeRequest, if_neg hor, if_neg hor', if_pos hdel, htableDelete_exact hp.key]
  exact ⟨_, rfl, rfl, Nat.le_refl _, Nat.le_refl _⟩

def takenMethod (flags : UInt8) : Method :=
  if Method.get.In flags then .get else if Method.set.In flags then .set else .del

def Method.change (ht : HTable) (p : Packet) : Method → HTable
  | .get => ht
  | .set => ht.remove p.key ++ [⟨p.key, p.value⟩]
  | .del => ht.remove p.key

variable (ht) in
theorem executeRequest_taken (hp : p.Exact) : ∃ ack,
    executeRequest ht p = .ok ((takenMethod p.flags).change ht p, ack) ∧
      IsAck (takenMethod p.flags) ack := by
  unfold takenMethod
  split
  · next hget => exact executeRequest_get hp hget
  · next hget =>
    split
    · next hset => exact executeRequest_set hp hget hset
    · next hset => exact executeRequest_del hp hget hset

theorem change_lookup_ne (m : Method) {key : Bytes} (hkey : key ≠ p.key) :
    (m.change ht p).lookup key = ht.lookup key := by
  cases m with
  | get => rfl
  | set => rw [Method.change, HTable.lookup, hashFind_insert_ne ht hkey, HTable.lookup]
  | del => rw [Method.change, HTable.lookup, hashFind_remove_ne ht hkey, HTable.lookup]

end

/-! ### The frame of a request -/

/-- Only SET and DELETE change the table, at the key of the packet, GET changes
nothing, and the ACK names methods of the request. -/
structure MethodFrame (ht ht' : HTable) (p : Packet) (ackFlags : UInt8) : Prop where
  changed : ht' ≠ ht → Method.set.In p.flags ∨ Method.del.In p.flags
  ownKey : ∀ key, key ≠ p.key → ht'.lookup key = ht.lookup key
  get : Method.get.In p.flags → ht' = ht
  named : ∀ m, Method.In m ackFlags → m.In p.flags
  answered : ∀ m, Method.In m p.flags → ∃ m', Method.In m' ackFlags

/-- `handle_own_request` sends one ACK and keeps to the frame. -/
def FramesRequest (s : PeerState) (csocket : Int) (p : Packet) : Prop :=
  (∃ a s' log, (handleOwnRequest csocket p).Exec sendLog s [] a s' log) ∧
  ∀ a s' log, (handleOwnRequest csocket p).Exec sendLog s [] a s' log →
    s' = { s with ht := s'.ht } ∧ ∃ b ackFlags, log = [(csocket, b)] ∧
      b.head? = some ackFlags ∧ MethodFrame s.ht s'.ht p ackFlags

theorem handleOwnRequest_taken (s : PeerState) (csocket : Int) {p : Packet} (hp : p.Exact) :
    ∃ b, b.head? = some (0 ||| (takenMethod p.flags).flag ||| pktFlagAck) ∧
      ∀ a s' log, (handleOwnRequest csocket p).Exec sendLog s [] a s' log ↔
        a = cbRemoveClient ∧ s' = { s with ht := (takenMethod p.flags).change s.ht p } ∧
          log = [(csocket, b)] := by
  obtain ⟨ack, hexec, hack⟩ := executeRequest_taken s.ht hp
  have hdata : flagSet ack.flags pktFlagCtrl = false := by
    rw [hack.flags]
    cases takenMethod p.flags <;> decide
  obtain ⟨b, hser, hhead⟩ := packetSerialize_head hdata hack.key hack.value
  refine ⟨b, hack.flags ▸ hhead, fun a s' log => ?_⟩
  simp only [handleOwnRequest, readState, modifyState, Prog.read_bind, Prog.exec_get, hexec,
    eval_ok, Prog.ret_bind, Prog.modify_bind, Prog.exec_put, hser, sendall_bind, Prog.exec_call,
    sendLog, Prog.pure_eq, Prog.exec_ret, List.nil_append]
  constructor
  · rintro ⟨-, w1, rfl, ha, hs, hw⟩
    exact ⟨ha, hs, hw⟩
  · rintro ⟨ha, hs, hw⟩
    exact ⟨0, _, rfl, ha, hs, hw⟩

theorem takenMethod_in {flags : UInt8} {m : Method} (h : m.In flags) :
    (takenMethod flags).In flags := by
  unfold takenMethod
  split
  · next hget => exact hget
  · next hget =>
    split
    · next hset => exact hset
    · next hset =>
      cases m with
      | get => exact absurd h hget
      | set => exact absurd h hset
      | del => exact h

theorem takenMethod_get {flags : UInt8} (h : Method.get.In flags) : takenMethod flags = .get :=
  if_pos h

theorem framesRequest_iff_named (s : PeerState) (csocket : Int) {p : Packet} (hp : p.Exact) :
    FramesRequest s csocket p ↔ (takenMethod p.flags).In p.flags := by
  obtain ⟨b, hhead, hexec⟩ := handleOwnRequest_taken s csocket hp
  have hack : ∀ m, Method.In m (0 ||| (takenMethod p.flags).flag ||| pktFlagAck) ↔
      m = takenMethod p.flags := fun m => Method.in_ack _ m
  constructor
  · rintro ⟨⟨a, s', log, he⟩, hall⟩
    obtain ⟨-, b', f, hlog, hf, hframe⟩ := hall a s' log he
    obtain ⟨-, -, rfl⟩ := (hexec a s' log).mp he
    rw [List.cons.injEq, Prod.mk.injEq] at hlog
    obtain ⟨⟨-, rfl⟩, -⟩ := hlog
    obtain rfl := Option.some.inj (hhead.symm.trans hf)
    exact hframe.named _ ((hack _).mpr rfl)
  · intro hin
    refine ⟨⟨_, _, _, (hexec _ _ _).mpr ⟨rfl, rfl, rfl⟩⟩, fun a s' log he => ?_⟩
    obtain ⟨-, rfl, rfl⟩ := (hexec a s' log).mp he
    refine ⟨rfl, b, _, rfl, hhead, ?_, ?_, ?_, ?_, ?_⟩
    · intro hne
      cases hm : takenMethod p.flags with
      | get =>
        rw [hm] at hne
        exact absurd rfl hne
      | set =>
        rw [hm] at hin
        exact Or.inl hin
      | del =>
        rw [hm] at hin
        exact Or.inr hin
    · exact fun key hkey => change_lookup_ne _ hkey
    · intro hget
      rw [takenMethod_get hget]
      rfl
    · intro m hm
      rw [(hack m).mp hm]
      exact hin
    · exact fun m hm => ⟨_, (hack _).mpr rfl⟩

/-- The request is handled within its frame exactly when it has a method bit. -/
theorem handleOwnRequest_frame_iff (s : PeerState) (csocket : Int) (p : Packet) (hp : p.Exact) :
    FramesRequest s csocket p ↔ ∃ m : Method, m.In p.flags := by
  rw [framesRequest_iff_named s csocket hp]
  exact ⟨fun h => ⟨_, h⟩, fun ⟨_, h⟩ => takenMethod_in h⟩

theorem handleOwnRequest_frame_iff_set :
    FramesRequest freshPeer 4 setWithNul.packet ↔ ∃ m : Method, m.In setWithNul.packet.flags :=
  handleOwnRequest_frame_iff freshPeer 4 setWithNul.packet setWithNul.exact

/-- No flag at all, and the entry of the key is gone. -/
theorem noMethod_deletes :
    ¬ FramesRequest { freshPeer with ht := [⟨[97], [98]⟩] } 4
      { packetNew with keyLen := 1, key := [97] } := by
  rw [framesRequest_iff_named _ _ ⟨rfl, rfl⟩]
  decide

end RN2223.Praxis2

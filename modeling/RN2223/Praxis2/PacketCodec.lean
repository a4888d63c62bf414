import RN2223.Praxis2.Packet

/-!
# Codec round trips over the whole packet format

`packet_decode` after `packet_serialize` and `packet_serialize` after
`packet_decode`, for both packet kinds and every admitted length.
-/

namespace RN2223.Praxis2
open CMemory ByteOrder

/-- A packet stripped to the fields its kind puts on the wire. -/
def Packet.onWire (p : Packet) : Packet :=
  if flagSet p.flags pktFlagCtrl then
    { packetNew with
      flags := p.flags, hashId := p.hashId, nodeId := p.nodeId, nodeIp := p.nodeIp,
      nodePort := p.nodePort }
  else
    { packetNew with
      flags := p.flags, keyLen := p.keyLen, valueLen := p.valueLen, key := p.key,
      value := p.value }

def Packet.SameFields (p q : Packet) : Prop :=
  p.flags = q.flags ∧
  if flagSet q.flags pktFlagCtrl then
    p.hashId = q.hashId ∧ p.nodeId = q.nodeId ∧ p.nodeIp = q.nodeIp ∧ p.nodePort = q.nodePort
  else
    p.keyLen = q.keyLen ∧ p.valueLen = q.valueLen ∧ p.key = q.key ∧ p.value = q.value

theorem onWire_sameFields (p : Packet) : p.onWire.SameFields p := by
  by_cases hc : flagSet p.flags pktFlagCtrl <;>
    simp [Packet.onWire, Packet.SameFields, hc]

/-! ### The two decoder stages on well-formed bytes -/

theorem packetDecodeHdr_cons (b0 b1 b2 b3 b4 b5 b6 : UInt8) (rest : Bytes) (n : ℕ)
    (hn : pktHeaderLen ≤ n) :
    packetDecodeHdr (b0 :: b1 :: b2 :: b3 :: b4 :: b5 :: b6 :: rest) n = .ok (some
      (if !flagSet b0 pktFlagCtrl then
        { packetNew with flags := b0, keyLen := join16 b1 b2, valueLen := join32 b3 b4 b5 b6 }
      else
        { packetNew with
          flags := b0, hashId := join16 b1 b2, nodeId := join16 b3 b4,
          nodeIp := shl b5 24 ||| shl b6 16 })) := by
  have hlt : ¬ n < pktHeaderLen := by omega
  simp only [packetDecodeHdr, if_neg hlt, readByte, List.getElem?_cons_zero,
    List.getElem?_cons_succ, ok_bind]
  by_cases hc : flagSet b0 pktFlagCtrl <;> simp [hc]

theorem packetDecodeBody_ctrl (p : Packet) (hc : flagSet p.flags pktFlagCtrl = true)
    (b0 b1 b2 b3 : UInt8) (rest : Bytes) (n : ℕ) :
    packetDecodeBody p (b0 :: b1 :: b2 :: b3 :: rest) n = .ok (some { p with
      nodeIp := p.nodeIp ||| (shl b0 8 ||| shl b1 0), nodePort := join16 b2 b3 }) := by
  simp only [packetDecodeBody, hc, readByte, List.getElem?_cons_zero, List.getElem?_cons_succ,
    ok_bind, if_true]

theorem sum32_le (p : Packet) :
    (p.keyLen.toUInt32 + p.valueLen).toNat ≤ p.keyLen.toNat + p.valueLen.toNat := by
  simp only [UInt32.toNat_add, UInt16.toNat_toUInt32]
  exact Nat.mod_le _ _

/-- A complete body that passes the length check is taken whole, whatever comes
behind it. -/
theorem packetDecodeBody_data (p : Packet) (hc : flagSet p.flags pktFlagCtrl = false)
    (hk : p.key = []) (hv : p.value = []) (key value rest : Bytes)
    (hkl : key.length = p.keyLen.toNat) (hvl : value.length = p.valueLen.toNat) (n : ℕ)
    (hn : (p.keyLen.toUInt32 + p.valueLen).toNat ≤ n) :
    packetDecodeBody p (key ++ (value ++ rest)) n =
      .ok (some { p with key := key, value := value }) := by
  have hdrop : (key ++ (value ++ rest)).drop p.keyLen.toNat = value ++ rest := by
    rw [← hkl, List.drop_left]
  simp only [packetDecodeBody, hc, Bool.false_eq_true, if_false, if_neg (Nat.not_lt.mpr hn), hk, hv,
    decodeField_append hkl, ok_bind, hdrop, decodeField_append hvl]

/-! ### Packet to bytes to packet -/

/-- The packet passes the two length checks of `packet_decode` in a buffer said to
have `n` bytes. Its body may reach seven bytes further. -/
def Packet.Passes (p : Packet) (n : ℕ) : Prop :=
  pktHeaderLen ≤ n ∧
  (flagSet p.flags pktFlagCtrl = false → (p.keyLen.toUInt32 + p.valueLen).toNat ≤ n)

theorem wire_length_ctrl {p : Packet} (hc : flagSet p.flags pktFlagCtrl = true) :
    p.wire.length = 11 := by simp [Packet.wire, hc, packetSerializeCtrl]

theorem wire_length_data {p : Packet} (hc : flagSet p.flags pktFlagCtrl = false)
    (he : p.Exact) : p.wire.length = 7 + (p.keyLen.toNat + p.valueLen.toNat) := by
  simp only [Packet.wire, hc, List.length_append, List.length_cons, List.length_nil,
    ← he.key, ← he.value, Bool.false_eq_true, if_false]
  omega

theorem packetDecode_wire_append {p : Packet} (h : flagSet p.flags pktFlagCtrl = false → p.Exact)
    {n : ℕ} (hpass : p.Passes n) (rest : Bytes) :
    packetDecode (p.wire ++ rest) n = .ok (some p.onWire) := by
  obtain ⟨hn, hbody⟩ := hpass
  by_cases hc : flagSet p.flags pktFlagCtrl
  · simp only [packetDecode, Packet.wire, hc, if_true, packetSerializeCtrl, List.cons_append,
      List.nil_append]
    rw [packetDecodeHdr_cons _ _ _ _ _ _ _ _ _ hn]
    simp only [hc, Bool.not_true, Bool.false_eq_true, if_false]
    show packetDecodeBody _ _ _ = _
    simp only [pktHeaderLen, List.drop_succ_cons, List.drop_zero]
    refine (packetDecodeBody_ctrl _ ?_ _ _ _ _ _ _).trans ?_
    · exact hc
    simp only [Packet.onWire, hc, if_true, join32_halves, join32_octet32, join16_octet16]
  · have hc' : flagSet p.flags pktFlagCtrl = false := by simpa using hc
    have he := h hc'
    simp only [packetDecode, Packet.wire, hc', Bool.false_eq_true, if_false, List.cons_append,
      List.nil_append, List.append_assoc]
    rw [packetDecodeHdr_cons _ _ _ _ _ _ _ _ _ hn]
    simp only [hc', Bool.not_false, if_true]
    show packetDecodeBody _ _ _ = _
    simp only [pktHeaderLen, List.drop_succ_cons, List.drop_zero, join16_octet16, join32_octet32]
    refine (packetDecodeBody_data _ ?_ ?_ ?_ _ _ _ ?_ ?_ _ ?_).trans ?_
    · exact hc'
    · rfl
    · rfl
    · exact he.key
    · exact he.value
    · exact hbody hc'
    · simp only [Packet.onWire, hc', Bool.false_eq_true, if_false]

theorem passes_wire {p : Packet} (h : flagSet p.flags pktFlagCtrl = false → p.Exact) :
    p.Passes p.wire.length := by
  by_cases hc : flagSet p.flags pktFlagCtrl
  · rw [wire_length_ctrl hc]
    exact ⟨by decide, fun hdata => by rw [hc] at hdata; cases hdata⟩
  · have hc' : flagSet p.flags pktFlagCtrl = false := by simpa using hc
    have hsum := sum32_le p
    rw [wire_length_data hc' (h hc')]
    exact ⟨Nat.le_add_right 7 _, fun _ => by omega⟩

theorem packetDecode_wire {p : Packet} (h : flagSet p.flags pktFlagCtrl = false → p.Exact) :
    packetDecode p.wire p.wire.length = .ok (some p.onWire) := by
  have hdecode := packetDecode_wire_append h (passes_wire h) []
  rwa [List.append_nil] at hdecode

/-! ### Bytes to packet to bytes -/

def announcedSize (b0 b1 b2 b3 b4 b5 b6 : UInt8) : ℕ :=
  if flagSet b0 pktFlagCtrl then 11
  else 7 + (join16 b1 b2).toNat + (join32 b3 b4 b5 b6).toNat

/-- The byte string is exactly one packet. -/
def OnePacket : Bytes → Prop
  | b0 :: b1 :: b2 :: b3 :: b4 :: b5 :: b6 :: rest =>
    7 + rest.length = announcedSize b0 b1 b2 b3 b4 b5 b6
  | _ => False

theorem onePacket_cases {b : Bytes} (h : OnePacket b) : ∃ b0 b1 b2 b3 b4 b5 b6 rest,
    b = b0 :: b1 :: b2 :: b3 :: b4 :: b5 :: b6 :: rest ∧
    7 + rest.length = announcedSize b0 b1 b2 b3 b4 b5 b6 := by
  match b, h with
  | b0 :: b1 :: b2 :: b3 :: b4 :: b5 :: b6 :: rest, h =>
    exact ⟨b0, b1, b2, b3, b4, b5, b6, rest, rfl, h⟩

theorem exists_wire_eq {b : Bytes} (h : OnePacket b) :
    ∃ p : Packet, (flagSet p.flags pktFlagCtrl = false → p.Exact) ∧ p.onWire = p ∧ p.wire = b := by
  obtain ⟨b0, b1, b2, b3, b4, b5, b6, rest, rfl, hlen⟩ := onePacket_cases h
  by_cases hc : flagSet b0 pktFlagCtrl
  · simp only [announcedSize, hc, if_true] at hlen
    obtain ⟨b7, b8, b9, b10, rfl⟩ := List.length_eq_four.mp (by omega : rest.length = 4)
    refine ⟨{ packetNew with
      flags := b0, hashId := join16 b1 b2, nodeId := join16 b3 b4,
      nodeIp := join32 b5 b6 b7 b8, nodePort := join16 b9 b10 }, ?_, ?_, ?_⟩
    · intro hf
      simp [hc] at hf
    · simp only [Packet.onWire, hc, if_true]
    · obtain ⟨h5, h6, h7, h8⟩ := octet32_join32 b5 b6 b7 b8
      simp only [Packet.wire, hc, if_true, packetSerializeCtrl, octet16_hi_join16,
        octet16_lo_join16, h5, h6, h7, h8]
  · have hc' : flagSet b0 pktFlagCtrl = false := by simpa using hc
    simp only [announcedSize, hc', Bool.false_eq_true, if_false] at hlen
    have hkl : (rest.take (join16 b1 b2).toNat).length = (join16 b1 b2).toNat := by
      rw [List.length_take]
      omega
    have hvl : (rest.drop (join16 b1 b2).toNat).length = (join32 b3 b4 b5 b6).toNat := by
      rw [List.length_drop]
      omega
    refine ⟨{ packetNew with
      flags := b0, keyLen := join16 b1 b2, valueLen := join32 b3 b4 b5 b6,
      key := rest.take (join16 b1 b2).toNat, value := rest.drop (join16 b1 b2).toNat },
      fun _ => ⟨hkl, hvl⟩, ?_, ?_⟩
    · simp only [Packet.onWire, hc', Bool.false_eq_true, if_false]
    · obtain ⟨h3, h4, h5, h6⟩ := octet32_join32 b3 b4 b5 b6
      simp only [Packet.wire, hc', Bool.false_eq_true, if_false, octet16_hi_join16,
        octet16_lo_join16, h3, h4, h5, h6, List.cons_append, List.nil_append,
        List.take_append_drop]

theorem packetDecode_onePacket {b : Bytes} (h : OnePacket b) :
    ∃ p, packetDecode b b.length = .ok (some p) ∧
      (flagSet p.flags pktFlagCtrl = false → p.Exact) ∧ p.wire = b := by
  obtain ⟨p, hexact, honWire, rfl⟩ := exists_wire_eq h
  have hdecode := packetDecode_wire hexact
  rw [honWire] at hdecode
  exact ⟨p, hdecode, hexact, rfl⟩

theorem onePacket_wire {p : Packet} (h : flagSet p.flags pktFlagCtrl = false → p.Exact) :
    OnePacket p.wire := by
  by_cases hc : flagSet p.flags pktFlagCtrl
  · simp [Packet.wire, hc, packetSerializeCtrl, OnePacket, announcedSize]
  · have hc' : flagSet p.flags pktFlagCtrl = false := by simpa using hc
    have he := h hc'
    simp [Packet.wire, hc', OnePacket, announcedSize, he.key, he.value, Nat.add_assoc]

/-- Both directions of the codec: a packet survives encoding and decoding in
every field of its kind, and one packet's bytes survive decoding and encoding. -/
theorem packet_codec_round_trip :
    (∀ p : Packet, (flagSet p.flags pktFlagCtrl = false → p.Exact) →
      ∃ b q, packetSerialize p = .ok b ∧ packetDecode b b.length = .ok (some q) ∧
        q.SameFields p) ∧
    (∀ b : Bytes, OnePacket b →
      ∃ p, packetDecode b b.length = .ok (some p) ∧ packetSerialize p = .ok b) := by
  constructor
  · intro p hp
    exact ⟨p.wire, p.onWire, packetSerialize_exact hp, packetDecode_wire hp,
      onWire_sameFields p⟩
  · intro b hb
    obtain ⟨p, hd, he, hw⟩ := packetDecode_onePacket hb
    refine ⟨p, hd, ?_⟩
    rw [packetSerialize_exact he, hw]

end RN2223.Praxis2

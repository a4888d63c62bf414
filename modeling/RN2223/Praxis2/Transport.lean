import RN2223.Praxis2.BodyLength
import RN2223.Praxis2.RecvLoop

/-!
# A packet from sendall to recvall (util.c:21-64)

`sendall` hands its bytes over in as many pieces as `send` makes of them, `recvall`
takes them in pieces of its own. What is decoded behind the two loops is the packet
that was sent. When the connection broke before its end, a packet can still come out
whose last bytes are those behind the received ones.
-/

namespace RN2223.Praxis2
open CMemory ByteOrder

/-! ### The send loop -/

/-- The result of `send` in a variable of type `int`. -/
def asInt (n : ℕ) : Int := Int.bmod n (2^32)

/-- `sendall` from offset `sent` on (`util.c:23-31`), with the bytes it gets rid of.
Every `send` fails, or takes as many bytes as it can up to a number; one that has
not answered yet leaves the loop without a result. -/
def sendRounds (buffer : Bytes) : List (Option ℕ) → ℕ → Option Int × Bytes
  | [], sent => (if sent < buffer.length then none else some 0, [])
  | none :: _, sent => (if sent < buffer.length then some (-1) else some 0, [])
  | some k :: answers, sent =>
    if sent < buffer.length then
      let piece := (buffer.drop sent).take k
      let n := asInt piece.length
      if n < 1 then (some (-1), piece)
      else
        let r := sendRounds buffer answers (sent + n.toNat)
        (r.1, piece ++ r.2)
    else (some 0, [])

def sendallRun (buffer : Bytes) (answers : List (Option ℕ)) : Option Int × Bytes :=
  sendRounds buffer answers 0

theorem asInt_of_lt {n : ℕ} (h : n < 2^31) : asInt n = n := by
  have hn : Int.bmod (n : Int) (2^32) = n := by
    rw [Int.bmod_def]
    push_cast
    split <;> omega
  exact hn

/-- No `send` takes more than an `int` can hold. -/
def IntSends (answers : List (Option ℕ)) : Prop := ∀ k, some k ∈ answers → k < 2^31

/-- The bytes are a part of `v` from the front, the loop is through if they are all
of it, and every `send` that did not end the loop has taken one. -/
structure Sends (v : Bytes) (answers : List (Option ℕ)) (r : Option Int × Bytes) : Prop where
  front : r.2 <+: v
  done : r.1 = some 0 ↔ r.2 = v
  busy : r.1 = none → answers.length ≤ r.2.length

theorem sends_empty (answers : List (Option ℕ)) : Sends [] answers (some 0, []) :=
  ⟨List.prefix_rfl, iff_of_true rfl rfl, fun h => by cases h⟩

theorem sends_failed {v piece : Bytes} (answers : List (Option ℕ)) (hv : v ≠ [])
    (hpiece : piece = []) : Sends v answers (some (-1), piece) := by
  subst hpiece
  exact ⟨List.nil_prefix, iff_of_false (by decide) hv.symm, fun h => by cases h⟩

theorem Sends.piece {v : Bytes} {answers : List (Option ℕ)} {r : Option Int × Bytes} {k : ℕ}
    (hk : 0 < (v.take k).length) (h : Sends (v.drop (v.take k).length) answers r) :
    Sends v (some k :: answers) (r.1, v.take k ++ r.2) := by
  have hsplit : v.take k ++ v.drop (v.take k).length = v := by
    have htake := List.prefix_iff_eq_take.mp (List.take_prefix k v)
    calc v.take k ++ v.drop (v.take k).length
        = v.take (v.take k).length ++ v.drop (v.take k).length := by rw [← htake]
      _ = v := List.take_append_drop _ v
  refine ⟨?_, ?_, fun hbusy => ?_⟩
  · have hfront := (List.prefix_append_right_inj (v.take k)).mpr h.front
    rwa [hsplit] at hfront
  · have hdone := h.done.trans (List.append_cancel_left_eq (v.take k) _ _).symm.to_iff
    rwa [hsplit] at hdone
  · have hmore := h.busy hbusy
    rw [List.length_cons, List.length_append]
    omega

theorem sendRounds_sends {buffer v : Bytes} {answers : List (Option ℕ)} {sent : ℕ}
    (h : IntSends answers) (hv : buffer.drop sent = v) :
    Sends v answers (sendRounds buffer answers sent) := by
  have hlen : v.length = buffer.length - sent := by rw [← hv, List.length_drop]
  induction answers generalizing v sent with
  | nil =>
    by_cases hmore : sent < buffer.length
    · have hne : v ≠ [] := List.ne_nil_of_length_pos (by omega)
      rw [sendRounds, if_pos hmore]
      exact ⟨List.nil_prefix, iff_of_false (by decide) hne.symm, fun _ => Nat.le_refl 0⟩
    · have hnil : v = [] := List.length_eq_zero_iff.mp (by omega)
      rw [sendRounds, if_neg hmore, hnil]
      exact sends_empty []
  | cons answer answers ih =>
    by_cases hmore : sent < buffer.length
    · have hne : v ≠ [] := List.ne_nil_of_length_pos (by omega)
      cases answer with
      | none =>
        rw [sendRounds, if_pos hmore]
        exact sends_failed _ hne rfl
      | some k =>
        rw [sendRounds, if_pos hmore]
        have hk := h k (List.mem_cons_self ..)
        have hshort : (v.take k).length ≤ k := List.length_take_le k v
        dsimp only
        rw [hv, asInt_of_lt (by omega)]
        by_cases hnone : ((v.take k).length : Int) < 1
        · rw [if_pos hnone]
          exact sends_failed _ hne (List.length_eq_zero_iff.mp (by omega))
        · rw [if_neg hnone, Int.toNat_natCast]
          refine Sends.piece (by omega) (ih (fun k' hk' => h k' (List.mem_cons_of_mem _ hk')) ?_ ?_)
          · rw [← hv, List.drop_drop]
          · rw [List.length_drop]
            omega
    · have hnil : v = [] := List.length_eq_zero_iff.mp (by omega)
      rw [hnil]
      cases answer <;> rw [sendRounds, if_neg hmore] <;> exact sends_empty _

/-! ### What arrives -/

theorem onePacket_length_eq {b b' : Bytes} (h : OnePacket b) (h' : OnePacket b')
    (hhdr : b.take 7 = b'.take 7) : b.length = b'.length := by
  obtain ⟨b0, b1, b2, b3, b4, b5, b6, rest, rfl, hlen⟩ := onePacket_cases h
  obtain ⟨c0, c1, c2, c3, c4, c5, c6, rest', rfl, hlen'⟩ := onePacket_cases h'
  simp only [List.take_succ_cons, List.cons.injEq] at hhdr
  obtain ⟨rfl, rfl, rfl, rfl, rfl, rfl, rfl, -⟩ := hhdr
  simp only [List.length_cons]
  omega

theorem take_eq_of_front {a b : Bytes} {n : ℕ} (h : a <+: b) (hn : n ≤ a.length) :
    b.take n = a.take n := by
  obtain ⟨more, rfl⟩ := h
  exact List.take_append_of_le_length hn

theorem Packet.Passes.length_le {q : Packet} {n : ℕ} (h : q.Passes n)
    (hq : flagSet q.flags pktFlagCtrl = false → q.Exact) (hsum : q.wire.length < 2^32 + 7) :
    q.wire.length ≤ n + 7 := by
  obtain ⟨hn, hbody⟩ := h
  rw [pktHeaderLen] at hn
  by_cases hc : flagSet q.flags pktFlagCtrl = true
  · rw [wire_length_ctrl hc]
    omega
  · have hdata : flagSet q.flags pktFlagCtrl = false := by simpa using hc
    have hlen := hbody hdata
    rw [wire_length_data hdata (hq hdata)] at hsum ⊢
    rw [UInt32.toNat_add, UInt16.toNat_toUInt32, Nat.mod_eq_of_lt (by omega)] at hlen
    omega

/-! ### From one end to the other -/

theorem wire_short {p : Packet} (hp : flagSet p.flags pktFlagCtrl = false → p.Exact) :
    p.wire.length < 2^63 := by
  by_cases hc : flagSet p.flags pktFlagCtrl = true
  · simp [Packet.wire, hc, packetSerializeCtrl]
  · have hexact := hp (Bool.eq_false_of_not_eq_true hc)
    have hkey := UInt16.toNat_lt p.keyLen
    have hvalue := UInt32.toNat_lt p.valueLen
    rw [Packet.wire, if_neg hc, List.length_append, List.length_append, hexact.key, hexact.value]
    simp only [List.length_cons, List.length_nil]
    omega

theorem recvRun_received {stream : Bytes} (ks : ℕ → ℕ) (h : stream.length < 2^63) : ∃ buffer,
    recvRun stream ks .eof (stream.length + 1) = .returned buffer stream.length ∧
      buffer.take stream.length = stream := by
  obtain ⟨s, got, rest, -, hsplit, -, hlong⟩ | hdone := recvRun_eof ks h (stream.length + 1)
  · have hlen := congrArg List.length hsplit
    rw [List.length_append] at hlen
    omega
  · exact hdone

theorem Sends.answered {v : Bytes} {answers : List (Option ℕ)} {r : Option Int × Bytes}
    (h : Sends v answers r) (hlong : v.length ≤ answers.length) : r.1 ≠ none := by
  intro hbusy
  have hpart := h.busy hbusy
  have hall := h.front.eq_of_length_le (hlong.trans hpart)
  rw [h.done.mpr hall] at hbusy
  cases hbusy

/-- However the two loops cut the bytes, the packet comes out as it was sent when
`sendall` has returned 0. Otherwise `packet_decode` still makes a packet of what
`recvall` returns when the bytes received are as many as the body has: it has the
header that was sent, and at most seven bytes behind the received ones. -/
theorem sendall_recvall_packet {p : Packet} (hp : flagSet p.flags pktFlagCtrl = false → p.Exact)
    {answers : List (Option ℕ)} (hsends : IntSends answers) (ks : ℕ → ℕ) :
    let sent := (sendallRun p.wire answers).2
    (p.wire.length ≤ answers.length → (sendallRun p.wire answers).1 ≠ none) ∧
    ∃ rounds buffer size,
      recvRun sent ks .eof rounds = .returned buffer size ∧ size = sent.length ∧
      ∀ block : Bytes, block.take size = buffer.take size →
        ((sendallRun p.wire answers).1 = some 0 →
          packetDecode block size = .ok (some p.onWire)) ∧
        ∀ q, packetDecode block size = .ok (some q) →
          sent <+: q.wire ∧ q.wire.length = p.wire.length ∧
          (p.wire.length < 2^32 + 7 → p.wire.length ≤ size + 7) := by
  intro sent
  have hrun : Sends p.wire answers (sendallRun p.wire answers) := sendRounds_sends hsends rfl
  obtain ⟨buffer, hrecv, hbuffer⟩ :=
    recvRun_received ks (Nat.lt_of_le_of_lt hrun.front.length_le (wire_short hp))
  refine ⟨hrun.answered, _, buffer, _, hrecv, rfl, fun block hblock => ?_⟩
  have hsent : sent <+: block := List.prefix_iff_eq_take.mpr (hblock.trans hbuffer).symm
  refine ⟨fun hdone => ?_, fun q hq => ?_⟩
  · have hall : sent = p.wire := hrun.done.mp hdone
    obtain ⟨rest, rfl⟩ := hsent
    have hsize : (sendallRun p.wire answers).2.length = p.wire.length := congrArg List.length hall
    rw [hall, hsize]
    exact packetDecode_wire_append hp (passes_wire hp) rest
  · obtain ⟨hexact, -, hwire, hpass⟩ := packetDecode_eq_some.mp hq
    have hseven : 7 ≤ sent.length := hpass.1
    have hhdr : q.wire.take 7 = p.wire.take 7 :=
      calc q.wire.take 7 = block.take 7 := (take_eq_of_front hwire (passes_wire hexact).1).symm
        _ = sent.take 7 := take_eq_of_front hsent hseven
        _ = p.wire.take 7 := (take_eq_of_front hrun.front hseven).symm
    have hlen : q.wire.length = p.wire.length :=
      onePacket_length_eq (onePacket_wire hexact) (onePacket_wire hp) hhdr
    refine ⟨?_, hlen, fun hsum => ?_⟩
    · refine List.prefix_of_prefix_length_le hsent hwire ?_
      rw [hlen]
      exact hrun.front.length_le
    · rw [← hlen] at hsum ⊢
      exact hpass.length_le hexact hsum

/-- A GET of one byte whose last byte is not sent: the client that waits for it
takes the byte behind the received ones for the key. -/
theorem sendall_recvall_packet_broken : ∃ rounds buffer size,
    recvRun [4, 0, 1, 0, 0, 0, 0] (fun _ => 0) .eof rounds = .returned buffer size ∧ size = 7 ∧
    ∀ block : Bytes, block.take size = buffer.take size →
      ∀ q, packetDecode block size = .ok (some q) →
        [4, 0, 1, 0, 0, 0, 0] <+: q.wire ∧ q.wire.length = 8 := by
  have hexact : ({ packetNew with flags := pktFlagGet, keyLen := 1, key := [97] } : Packet).Exact :=
    ⟨rfl, rfl⟩
  have hsends : IntSends [some 3, some 4, none] := by
    intro k hk
    have hsmall : k = 3 ∨ k = 4 := by simpa using hk
    rcases hsmall with rfl | rfl <;> decide
  obtain ⟨-, rounds, buffer, size, hrecv, hsize, hdecode⟩ :=
    sendall_recvall_packet (fun _ => hexact) hsends fun _ => 0
  refine ⟨rounds, buffer, size, hrecv, hsize, fun block hblock q hq => ?_⟩
  obtain ⟨hfront, hlen, -⟩ := (hdecode block hblock).2 q hq
  exact ⟨hfront, hlen⟩

example (x : UInt8) (rest : Bytes) : packetDecode (4 :: 0 :: 1 :: 0 :: 0 :: 0 :: 0 :: x :: rest) 7 =
    .ok (some { packetNew with flags := pktFlagGet, keyLen := 1, key := [x] }) := rfl

end RN2223.Praxis2

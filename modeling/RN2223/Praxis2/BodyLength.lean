import RN2223.Praxis2.Framing

/-!
# Two lengths for one packet body (packet.c:40-45,105-194, server.c:60-79)

`client_decode_hdr` sizes the body buffer by a sum of 32 bits, while
`packet_decode_body` copies both fields whole; and `packet_decode` hands it the
length of the whole buffer together with a pointer seven bytes into it.
-/

namespace RN2223.Praxis2
open CMemory ByteOrder

def bodyLength (p : Packet) : ℕ :=
  if flagSet p.flags pktFlagCtrl then 4 else p.keyLen.toNat + p.valueLen.toNat

def collect (b : RingBuffer) (chunks : List Bytes) : RingBuffer :=
  chunks.foldl (fun b chunk => (rbWrite b chunk).1) b

/-- Whoever has sent this header: the body buffer has room for the announced
body, and once it is full the body is decoded, every byte of it used, on any
stack that has the room for it. -/
def CollectsBody (hdr : Bytes) : Prop :=
  ∀ c : Client, c.headerBuf.Ok → c.headerBuf.contents = hdr →
    ∃ c' p b, clientDecodeHdr c = .ok c' ∧ packetDecodeHdr hdr pktHeaderLen = .ok (some p) ∧
      c'.pack = some p ∧ c'.pktBuf = some b ∧ rbCanWrite b = bodyLength p ∧
      ∀ chunks : List Bytes, chunks.flatten.length = rbCanWrite b →
        ∀ left, rbCanWrite b ≤ left →
        ∃ c'' q, clientDecodeBody { c' with pktBuf := some (collect b chunks) } left = .ok c'' ∧
          c''.pack = some q ∧ q.wire = hdr ++ chunks.flatten

theorem collect_spec {b : RingBuffer} (h : b.Ok) (chunks : List Bytes)
    (hfit : b.stored + chunks.flatten.length < b.bufsize) : (collect b chunks).Ok ∧
    (collect b chunks).contents = b.contents ++ chunks.flatten := by
  induction chunks generalizing b with
  | nil => exact ⟨h, (List.append_nil _).symm⟩
  | cons chunk rest ih =>
    obtain ⟨hok, hcont, hsize⟩ := rbWrite_spec h chunk
    rw [List.flatten_cons, List.length_append] at hfit
    rw [List.take_of_length_le (by rw [rbCanWrite_eq h]; omega)] at hcont
    have hstored : (rbWrite b chunk).1.stored = b.stored + chunk.length := by
      rw [← contents_length, hcont, List.length_append, contents_length]
    obtain ⟨hok', hcont'⟩ := ih hok (by rw [hstored, hsize]; omega)
    refine ⟨hok', hcont'.trans ?_⟩
    rw [hcont, List.append_assoc, List.flatten_cons]

theorem clientDecodeHdr_eq {c : Client} {hdr : Bytes} {p : Packet} (hok : c.headerBuf.Ok)
    (hcont : c.headerBuf.contents = hdr) (hlen : hdr.length = 7)
    (hp : packetDecodeHdr hdr pktHeaderLen = .ok (some p)) :
    clientDecodeHdr c = .ok { c with
      state := .hdrRecvd, headerBuf := (rbRead c.headerBuf pktHeaderLen).1, pack := some p,
      pktBuf := some (rbNew (packetBodySize p)) } := by
  obtain ⟨-, hread, -, -⟩ := rbRead_spec hok pktHeaderLen
  have htake : hdr.take pktHeaderLen = hdr :=
    List.take_of_length_le (by rw [hlen]; decide)
  rw [hcont, htake] at hread
  simp only [clientDecodeHdr, hread, hp, ok_bind]

theorem clientDecodeBody_eq {c : Client} {p q : Packet} {b : RingBuffer} {body : Bytes}
    (hb : c.pktBuf = some b) (hp : c.pack = some p) (hok : b.Ok) (hcont : b.contents = body)
    (hq : packetDecodeBody p body body.length = .ok (some q)) {left : ℕ}
    (hleft : body.length ≤ left) :
    clientDecodeBody c left = .ok { c with pack := some q, state := .idle, pktBuf := none } := by
  have havail : rbCanRead b = body.length := by rw [rbCanRead_eq hok, ← contents_length, hcont]
  obtain ⟨-, hread, -, -⟩ := rbRead_spec hok body.length
  rw [hcont, List.take_length] at hread
  simp only [clientDecodeBody, hb, hp, havail, stackArray_fits hleft, hread, hq, ok_bind]

theorem rbCanWrite_new (p : Packet) :
    (rbNew (packetBodySize p)).Ok ∧ (rbNew (packetBodySize p)).contents = [] ∧
    rbCanWrite (rbNew (packetBodySize p)) = packetBodySize p := by
  have hlt := packetBodySize_lt p
  obtain ⟨hok, hcont, hsize⟩ := rbNew_ok (packetBodySize p) (by omega)
  refine ⟨hok, hcont, ?_⟩
  rw [rbCanWrite_eq hok, hsize, ← contents_length, hcont, List.length_nil]
  omega

theorem exists_client_with (hdr : Bytes) (hlen : hdr.length = 7) :
    ∃ c : Client, c.headerBuf.Ok ∧ c.headerBuf.contents = hdr := by
  obtain ⟨hok, hcont, hsize⟩ := rbNew_ok pktHeaderLen (by decide)
  obtain ⟨hok', hcont', -⟩ := rbWrite_spec hok hdr
  refine ⟨{ newClient 4 with headerBuf := (rbWrite (rbNew pktHeaderLen) hdr).1 }, hok', ?_⟩
  have hcan : rbCanWrite (rbNew pktHeaderLen) = 7 := by decide
  rw [hcont, hcan, List.nil_append, List.take_of_length_le (Nat.le_of_eq hlen)] at hcont'
  exact hcont'

theorem size_of_collectsBody {hdr : Bytes} {p : Packet} (hlen : hdr.length = 7)
    (hp : packetDecodeHdr hdr pktHeaderLen = .ok (some p)) (h : CollectsBody hdr) :
    packetBodySize p = bodyLength p := by
  obtain ⟨c, hok, hcont⟩ := exists_client_with hdr hlen
  obtain ⟨c', p', b, hc', hp', -, hb, hcan, -⟩ := h c hok hcont
  obtain rfl := Option.some.inj (Except.ok.inj (hp.symm.trans hp'))
  rw [clientDecodeHdr_eq hok hcont hlen hp] at hc'
  rw [← Except.ok.inj hc'] at hb
  rw [← Option.some.inj hb, (rbCanWrite_new p).2.2] at hcan
  exact hcan

theorem collectsBody_of_size {hdr : Bytes} {p : Packet} (hlen : hdr.length = 7)
    (hp : packetDecodeHdr hdr pktHeaderLen = .ok (some p))
    (hone : ∀ body : Bytes, body.length = packetBodySize p → OnePacket (hdr ++ body))
    (hsize : packetBodySize p = bodyLength p) : CollectsBody hdr := by
  intro c hok hcont
  obtain ⟨hbok, hbcont, hbcan⟩ := rbCanWrite_new p
  refine ⟨_, p, _, clientDecodeHdr_eq hok hcont hlen hp, hp, rfl, rfl, hbcan.trans hsize, ?_⟩
  intro chunks hchunks left hleft
  rw [hbcan] at hchunks hleft
  have hstored : (rbNew (packetBodySize p)).stored = 0 := by
    rw [← contents_length, hbcont, List.length_nil]
  have hbsize : (rbNew (packetBodySize p)).bufsize = packetBodySize p + 1 := by
    have hlt := packetBodySize_lt p
    exact (rbNew_ok (packetBodySize p) (by omega)).2.2
  obtain ⟨hcok, hccont⟩ := collect_spec hbok chunks (by omega)
  rw [hbcont, List.nil_append] at hccont
  have hshort : (hdr ++ chunks.flatten).length < 2^32 + 7 := by
    have hlt := packetBodySize_lt p
    rw [List.length_append, hlen, hchunks]
    omega
  let w : WirePacket := ⟨hdr ++ chunks.flatten, hone _ hchunks, hshort⟩
  have htake : w.bytes.take 7 = hdr := List.take_left' hlen
  have hdrop : w.bytes.drop 7 = chunks.flatten := List.drop_left' hlen
  obtain ⟨q, hq, -, hwire⟩ := packetDecode_onePacket w.onePacket
  obtain ⟨-, hdecode, -⟩ := wirePacket_header w (p := p) (by rw [htake, hp])
  have hbody : packetDecodeBody p chunks.flatten chunks.flatten.length = .ok (some q) := by
    rw [hchunks, ← hdrop, ← hdecode, decodeWire, hq]
  exact ⟨_, q, clientDecodeBody_eq rfl rfl hcok hccont hbody (hchunks ▸ hleft), rfl, hwire⟩

/-- The sum fits into 32 bits exactly when it is the announced length. -/
theorem packetBodySize_eq_iff (p : Packet) : packetBodySize p = bodyLength p ↔
    (flagSet p.flags pktFlagCtrl = true ∨ p.keyLen.toNat + p.valueLen.toNat < 2^32) := by
  have hk := UInt16.toNat_lt p.keyLen
  have hv := UInt32.toNat_lt p.valueLen
  unfold packetBodySize bodyLength
  by_cases hc : flagSet p.flags pktFlagCtrl
  · simp [hc]
  · have hc' : flagSet p.flags pktFlagCtrl = false := by simpa using hc
    simp only [hc', Bool.not_false, Bool.false_eq_true, if_true, if_false, UInt32.toNat_add,
      UInt16.toNat_toUInt32, false_or]
    omega

/-- A header's body is collected whole if and only if the two lengths have a sum
below `2^32`, or the packet is a control packet. -/
theorem collectsBody_iff (b0 b1 b2 b3 b4 b5 b6 : UInt8) :
    CollectsBody [b0, b1, b2, b3, b4, b5, b6] ↔ (flagSet b0 pktFlagCtrl = true ∨
      (join16 b1 b2).toNat + (join32 b3 b4 b5 b6).toNat < 2^32) := by
  have hp := packetDecodeHdr_cons b0 b1 b2 b3 b4 b5 b6 [] pktHeaderLen (Nat.le_refl _)
  by_cases hc : flagSet b0 pktFlagCtrl
  · simp only [hc, Bool.not_true, Bool.false_eq_true, if_false] at hp
    refine ⟨fun _ => Or.inl hc, fun _ => collectsBody_of_size rfl hp ?_ ?_⟩
    · intro body hbody
      simp only [packetBodySize, hc] at hbody
      simp only [OnePacket, announcedSize, hc, List.cons_append, List.nil_append, hbody]
      rfl
    · exact (packetBodySize_eq_iff _).mpr (Or.inl hc)
  · have hc' : flagSet b0 pktFlagCtrl = false := by simpa using hc
    simp only [hc', Bool.not_false, if_true] at hp
    constructor
    · intro h
      rcases (packetBodySize_eq_iff _).mp (size_of_collectsBody rfl hp h) with hctrl | hsum
      · exact Or.inl hctrl
      · exact Or.inr hsum
    · intro h
      have hsum := h.resolve_left hc
      have hsize := (packetBodySize_eq_iff { packetNew with
        flags := b0, keyLen := join16 b1 b2, valueLen := join32 b3 b4 b5 b6 }).mpr (Or.inr hsum)
      refine collectsBody_of_size rfl hp (fun body hbody => ?_) hsize
      rw [hsize] at hbody
      simp only [bodyLength, hc', Bool.false_eq_true, if_false] at hbody
      simp only [OnePacket, announcedSize, hc', Bool.false_eq_true, if_false, List.cons_append,
        List.nil_append, hbody]
      omega

/-- Key length 2 and value length `2^32 - 1`: one byte is waited for. -/
theorem wrappedHeader_not_collected : ¬ CollectsBody [2, 0, 2, 255, 255, 255, 255] := by
  intro h
  have hp := packetDecodeHdr_cons 2 0 2 255 255 255 255 [] pktHeaderLen (Nat.le_refl _)
  have hsize := size_of_collectsBody rfl hp h
  revert hsize
  decide

/-! ### A whole buffer at once -/

def Complete : Bytes → Prop
  | b0 :: b1 :: b2 :: b3 :: b4 :: b5 :: b6 :: rest =>
    announcedSize b0 b1 b2 b3 b4 b5 b6 ≤ 7 + rest.length
  | _ => False

/-- The buffer is too short for a header, or shorter than the 32-bit sum of the
lengths in it. -/
def RefusedByLength : Bytes → Prop
  | b0 :: b1 :: b2 :: b3 :: b4 :: b5 :: b6 :: rest =>
    flagSet b0 pktFlagCtrl = false ∧
      7 + rest.length < ((join16 b1 b2).toUInt32 + join32 b3 b4 b5 b6).toNat
  | _ => True

/-- `packet_decode` reads nothing behind the buffer and returns a packet if and
only if there is a complete one. -/
def DecodesComplete (b : Bytes) : Prop :=
  ∃ r, packetDecode b b.length = .ok r ∧ (r.isSome = true ↔ Complete b)

theorem decodeField_fits {b : Bytes} {n : ℕ} (h : n ≤ b.length) (old : Bytes) :
    ∃ f, decodeField b n old = .ok f := by
  unfold decodeField
  split
  · exact ⟨_, if_pos h⟩
  · exact ⟨_, rfl⟩

theorem decodeField_outOfBounds {b : Bytes} {n : ℕ} (h : b.length < n) (old : Bytes) :
    decodeField b n old = .error .outOfBounds := by
  rw [decodeField, if_pos (by omega), memcpy, if_neg (by omega)]

/-- The body of a control packet is read without looking at the length. -/
theorem packetDecodeBody_ctrl_short {p : Packet} (hc : flagSet p.flags pktFlagCtrl = true)
    {body : Bytes} (h : body.length < 4) (n : ℕ) :
    packetDecodeBody p body n = .error .outOfBounds := by
  rw [packetDecodeBody, if_pos hc]
  rcases body with _ | ⟨c0, _ | ⟨c1, _ | ⟨c2, _ | ⟨c3, more⟩⟩⟩⟩
  case cons.cons.cons.cons =>
    simp only [List.length_cons] at h
    omega
  all_goals rfl

theorem exists_cons_of_four_le {rest : Bytes} (h : 4 ≤ rest.length) :
    ∃ c0 c1 c2 c3 more, rest = c0 :: c1 :: c2 :: c3 :: more := by
  rcases rest with _ | ⟨c0, _ | ⟨c1, _ | ⟨c2, _ | ⟨c3, more⟩⟩⟩⟩
  case cons.cons.cons.cons => exact ⟨c0, c1, c2, c3, more, rfl⟩
  all_goals
    simp only [List.length_cons, List.length_nil] at h
    omega

theorem packetDecodeBody_refused {p : Packet} (hc : flagSet p.flags pktFlagCtrl = false)
    (body : Bytes) {n : ℕ} (h : n < (p.keyLen.toUInt32 + p.valueLen).toNat) :
    packetDecodeBody p body n = .ok none := by
  simp only [packetDecodeBody, hc, Bool.false_eq_true, if_false, if_pos h]

theorem packetDecodeBody_accepted {p : Packet} (hc : flagSet p.flags pktFlagCtrl = false)
    {body : Bytes} {n : ℕ} (h : (p.keyLen.toUInt32 + p.valueLen).toNat ≤ n)
    (hfit : p.keyLen.toNat + p.valueLen.toNat ≤ body.length) :
    ∃ q, packetDecodeBody p body n = .ok (some q) := by
  obtain ⟨key, hkey⟩ := decodeField_fits (b := body) (n := p.keyLen.toNat) (by omega) p.key
  obtain ⟨value, hvalue⟩ := decodeField_fits (b := body.drop p.keyLen.toNat)
    (n := p.valueLen.toNat) (by rw [List.length_drop]; omega) p.value
  simp only [packetDecodeBody, hc, Bool.false_eq_true, if_false, if_neg (Nat.not_lt.mpr h), hkey,
    hvalue, ok_bind]
  exact ⟨_, rfl⟩

/-- Otherwise it is read past its end. -/
theorem packetDecodeBody_overrun {p : Packet} (hc : flagSet p.flags pktFlagCtrl = false)
    {body : Bytes} {n : ℕ} (h : (p.keyLen.toUInt32 + p.valueLen).toNat ≤ n)
    (hover : body.length < p.keyLen.toNat + p.valueLen.toNat) :
    packetDecodeBody p body n = .error .outOfBounds := by
  simp only [packetDecodeBody, hc, Bool.false_eq_true, if_false, if_neg (Nat.not_lt.mpr h)]
  by_cases hk : p.keyLen.toNat ≤ body.length
  · obtain ⟨key, hkey⟩ := decodeField_fits hk p.key
    rw [hkey, ok_bind, decodeField_outOfBounds (by rw [List.length_drop]; omega)]
    rfl
  · rw [decodeField_outOfBounds (Nat.lt_of_not_le hk)]
    rfl

theorem header_cases {b : Bytes} (h : 7 ≤ b.length) : ∃ b0 b1 b2 b3 b4 b5 b6 rest,
    b = b0 :: b1 :: b2 :: b3 :: b4 :: b5 :: b6 :: rest := by
  match b, h with
  | b0 :: b1 :: b2 :: b3 :: b4 :: b5 :: b6 :: rest, _ =>
    exact ⟨b0, b1, b2, b3, b4, b5, b6, rest, rfl⟩

theorem short_cases {b : Bytes} (h : b.length < 7) : ¬ Complete b ∧ RefusedByLength b := by
  match b, h with
  | [], _ => exact ⟨id, trivial⟩
  | [_], _ => exact ⟨id, trivial⟩
  | [_, _], _ => exact ⟨id, trivial⟩
  | [_, _, _], _ => exact ⟨id, trivial⟩
  | [_, _, _, _], _ => exact ⟨id, trivial⟩
  | [_, _, _, _, _], _ => exact ⟨id, trivial⟩
  | [_, _, _, _, _, _], _ => exact ⟨id, trivial⟩

theorem decodesComplete_of_eq {b : Bytes} {r : Option Packet}
    (h : packetDecode b b.length = .ok r) : DecodesComplete b ↔ (r.isSome = true ↔ Complete b) := by
  constructor
  · rintro ⟨r', h', hr⟩
    rwa [← Except.ok.inj (h'.symm.trans h)]
  · exact fun hr => ⟨r, h, hr⟩

theorem not_decodesComplete_of_error {b : Bytes} {f : Fault}
    (h : packetDecode b b.length = .error f) : ¬ DecodesComplete b := by
  rintro ⟨r, h', -⟩
  cases h'.symm.trans h

section
variable {b0 b1 b2 b3 b4 b5 b6 : UInt8} {rest : Bytes}

theorem packetDecode_cons {p : Packet} {n : ℕ}
    (hp : packetDecodeHdr (b0 :: b1 :: b2 :: b3 :: b4 :: b5 :: b6 :: rest) n = .ok (some p)) :
    packetDecode (b0 :: b1 :: b2 :: b3 :: b4 :: b5 :: b6 :: rest) n =
      packetDecodeBody p rest n := by
  rw [packetDecode, hp]
  rfl

theorem packetDecode_whole {p : Packet}
    (hp : packetDecodeHdr (b0 :: b1 :: b2 :: b3 :: b4 :: b5 :: b6 :: rest) (7 + rest.length) =
      .ok (some p)) :
    packetDecode (b0 :: b1 :: b2 :: b3 :: b4 :: b5 :: b6 :: rest)
      (b0 :: b1 :: b2 :: b3 :: b4 :: b5 :: b6 :: rest).length =
        packetDecodeBody p rest (7 + rest.length) := by
  have hlen : (b0 :: b1 :: b2 :: b3 :: b4 :: b5 :: b6 :: rest).length = 7 + rest.length := by
    simp only [List.length_cons]
    omega
  rw [hlen, packetDecode_cons hp]

theorem decodesComplete_ctrl (hc : flagSet b0 pktFlagCtrl = true) :
    DecodesComplete (b0 :: b1 :: b2 :: b3 :: b4 :: b5 :: b6 :: rest) ↔
      Complete (b0 :: b1 :: b2 :: b3 :: b4 :: b5 :: b6 :: rest) := by
  have hhdr := packetDecodeHdr_cons b0 b1 b2 b3 b4 b5 b6 rest _ (Nat.le_add_right 7 rest.length)
  simp only [hc, Bool.not_true, Bool.false_eq_true, if_false] at hhdr
  have hbody := packetDecode_whole hhdr
  have hcomplete : Complete (b0 :: b1 :: b2 :: b3 :: b4 :: b5 :: b6 :: rest) ↔ 4 ≤ rest.length := by
    simp only [Complete, announcedSize, hc, if_true]
    omega
  rw [hcomplete]
  by_cases hfour : 4 ≤ rest.length
  · obtain ⟨c0, c1, c2, c3, more, rfl⟩ := exists_cons_of_four_le hfour
    rw [packetDecodeBody_ctrl _ hc] at hbody
    rw [decodesComplete_of_eq hbody, hcomplete, Option.isSome_some, eq_self_iff_true, true_iff]
  · rw [packetDecodeBody_ctrl_short hc (Nat.lt_of_not_le hfour)] at hbody
    exact iff_of_false (not_decodesComplete_of_error hbody) hfour

theorem decodesComplete_data (hc : flagSet b0 pktFlagCtrl = false) :
    DecodesComplete (b0 :: b1 :: b2 :: b3 :: b4 :: b5 :: b6 :: rest) ↔
      (join16 b1 b2).toNat + (join32 b3 b4 b5 b6).toNat ≤ rest.length ∨
      7 + rest.length < ((join16 b1 b2).toUInt32 + join32 b3 b4 b5 b6).toNat := by
  have hhdr := packetDecodeHdr_cons b0 b1 b2 b3 b4 b5 b6 rest _ (Nat.le_add_right 7 rest.length)
  simp only [hc, Bool.not_false, if_true] at hhdr
  obtain ⟨p, hflags, hk, hv, hp⟩ : ∃ p : Packet, flagSet p.flags pktFlagCtrl = false ∧
      p.keyLen = join16 b1 b2 ∧ p.valueLen = join32 b3 b4 b5 b6 ∧
      packetDecodeHdr (b0 :: b1 :: b2 :: b3 :: b4 :: b5 :: b6 :: rest) (7 + rest.length) =
        .ok (some p) := ⟨_, hc, rfl, rfl, hhdr⟩
  have hbody := packetDecode_whole hp
  have hsum := sum32_le p
  have hcomplete : Complete (b0 :: b1 :: b2 :: b3 :: b4 :: b5 :: b6 :: rest) ↔
      p.keyLen.toNat + p.valueLen.toNat ≤ rest.length := by
    rw [hk, hv]
    simp only [Complete, announcedSize, hc, Bool.false_eq_true, if_false]
    omega
  rw [← hk, ← hv]
  by_cases hrefused : 7 + rest.length < (p.keyLen.toUInt32 + p.valueLen).toNat
  · rw [packetDecodeBody_refused hflags _ hrefused] at hbody
    rw [decodesComplete_of_eq hbody, hcomplete, Option.isSome_none]
    have hlong : ¬ p.keyLen.toNat + p.valueLen.toNat ≤ rest.length := by omega
    simp only [Bool.false_eq_true, hlong, hrefused, iff_self, or_true]
  · by_cases hfit : p.keyLen.toNat + p.valueLen.toNat ≤ rest.length
    · obtain ⟨q, hq⟩ := packetDecodeBody_accepted hflags (Nat.not_lt.mp hrefused) hfit
      rw [hq] at hbody
      rw [decodesComplete_of_eq hbody, hcomplete, Option.isSome_some]
      simp only [hfit, iff_self, true_or]
    · rw [packetDecodeBody_overrun hflags (Nat.not_lt.mp hrefused) (Nat.lt_of_not_le hfit)] at hbody
      exact iff_of_false (not_decodesComplete_of_error hbody) fun h => h.elim hfit hrefused

end

/-- The one-shot decoder is right on exactly those buffers that are complete or
refused by their length. -/
theorem decodesComplete_iff (b : Bytes) :
    DecodesComplete b ↔ Complete b ∨ RefusedByLength b := by
  by_cases hshort : b.length < 7
  · obtain ⟨hincomplete, hrefused⟩ := short_cases hshort
    have hnone : packetDecode b b.length = .ok none := by
      rw [packetDecode, packetDecodeHdr, pktHeaderLen, if_pos hshort]
      rfl
    rw [decodesComplete_of_eq hnone]
    simp [hincomplete, hrefused]
  · obtain ⟨b0, b1, b2, b3, b4, b5, b6, rest, rfl⟩ := header_cases (Nat.not_lt.mp hshort)
    by_cases hc : flagSet b0 pktFlagCtrl
    · rw [decodesComplete_ctrl hc]
      simp only [RefusedByLength, hc, Bool.true_eq_false, false_and, or_false]
    · have hc' : flagSet b0 pktFlagCtrl = false := by simpa using hc
      rw [decodesComplete_data hc']
      simp only [Complete, RefusedByLength, announcedSize, hc', Bool.false_eq_true, if_false,
        true_and]
      omega

/-- The answer to a GET cut off behind its key: the value is read from behind
the buffer. -/
theorem cutAnswer_overruns : ¬ DecodesComplete [12, 0, 1, 0, 0, 0, 3, 97] :=
  not_decodesComplete_of_error (f := .outOfBounds) (by decide)

/-! ### A packet in a longer block -/

theorem packetDecodeHdr_room {b : Bytes} {n : ℕ} {p : Packet}
    (h : packetDecodeHdr b n = .ok (some p)) : pktHeaderLen ≤ n ∧ 7 ≤ b.length := by
  unfold packetDecodeHdr at h
  split at h
  · cases h
  · next hn =>
    obtain ⟨b0, -, h⟩ := bind_eq_ok.mp h
    obtain ⟨b1, -, h⟩ := bind_eq_ok.mp h
    obtain ⟨b2, -, h⟩ := bind_eq_ok.mp h
    obtain ⟨b3, -, h⟩ := bind_eq_ok.mp h
    obtain ⟨b4, -, h⟩ := bind_eq_ok.mp h
    obtain ⟨b5, -, h⟩ := bind_eq_ok.mp h
    obtain ⟨b6, hread, -⟩ := bind_eq_ok.mp h
    refine ⟨Nat.not_lt.mp hn, Nat.not_lt.mp fun hshort => ?_⟩
    rw [readByte, List.getElem?_eq_none (by omega)] at hread
    cases hread

/-- Whatever length `packet_decode` is given, it makes a packet of a complete one
only. -/
theorem complete_of_decoded {b : Bytes} {n : ℕ} {p : Packet}
    (h : packetDecode b n = .ok (some p)) : Complete b := by
  obtain ⟨hdr, hhdr, -⟩ := bind_eq_ok.mp h
  cases hdr with
  | none =>
    rw [packetDecode, hhdr] at h
    cases h
  | some hdr =>
    obtain ⟨hn, hroom⟩ := packetDecodeHdr_room hhdr
    obtain ⟨b0, b1, b2, b3, b4, b5, b6, rest, rfl⟩ := header_cases hroom
    have hfields := packetDecodeHdr_cons b0 b1 b2 b3 b4 b5 b6 rest n hn
    rw [packetDecode_cons hhdr] at h
    rw [hhdr, Except.ok.injEq, Option.some.injEq] at hfields
    by_contra hpart
    by_cases hc : flagSet b0 pktFlagCtrl = true
    · simp only [Complete, announcedSize, hc, if_true] at hpart
      have hflags : flagSet hdr.flags pktFlagCtrl = true := by
        rw [hfields]
        simp [hc]
      rw [packetDecodeBody_ctrl_short hflags (by omega)] at h
      cases h
    · have hdata : flagSet b0 pktFlagCtrl = false := by simpa using hc
      simp only [Complete, announcedSize, hdata, Bool.false_eq_true, if_false] at hpart
      simp only [hdata, Bool.not_false, if_true] at hfields
      have hflags : flagSet hdr.flags pktFlagCtrl = false := by rw [hfields, hdata]
      by_cases hrefused : n < (hdr.keyLen.toUInt32 + hdr.valueLen).toNat
      · rw [packetDecodeBody_refused hflags _ hrefused] at h
        cases h
      · have hover : rest.length < hdr.keyLen.toNat + hdr.valueLen.toNat := by
          rw [hfields]
          dsimp only
          omega
        rw [packetDecodeBody_overrun hflags (Nat.not_lt.mp hrefused) hover] at h
        cases h

theorem exists_onePacket {b : Bytes} (h : Complete b) : ∃ b', OnePacket b' ∧ b' <+: b := by
  by_cases hshort : b.length < 7
  · exact absurd h (short_cases hshort).1
  · obtain ⟨b0, b1, b2, b3, b4, b5, b6, rest, rfl⟩ := header_cases (Nat.not_lt.mp hshort)
    have hroom : announcedSize b0 b1 b2 b3 b4 b5 b6 ≤ 7 + rest.length := h
    have hseven : 7 ≤ announcedSize b0 b1 b2 b3 b4 b5 b6 := by
      unfold announcedSize
      split <;> omega
    refine ⟨b0 :: b1 :: b2 :: b3 :: b4 :: b5 :: b6 ::
      rest.take (announcedSize b0 b1 b2 b3 b4 b5 b6 - 7), ?_, ?_⟩
    · simp only [OnePacket, List.length_take]
      omega
    · simp only [List.cons_prefix_cons, true_and]
      exact List.take_prefix _ _

theorem packetDecode_wire_refused {p : Packet} {n : ℕ} (h : ¬ p.Passes n) (rest : Bytes) :
    packetDecode (p.wire ++ rest) n = .ok none := by
  by_cases hn : n < pktHeaderLen
  · rw [packetDecode, packetDecodeHdr, if_pos hn]
    rfl
  · obtain ⟨hdata, hsum⟩ : flagSet p.flags pktFlagCtrl = false ∧
        n < (p.keyLen.toUInt32 + p.valueLen).toNat := by
      by_contra hneither
      exact h ⟨Nat.not_lt.mp hn, fun hdata => Nat.not_lt.mp fun hlt => hneither ⟨hdata, hlt⟩⟩
    simp only [Packet.wire, hdata, Bool.false_eq_true, if_false, List.cons_append, List.nil_append]
    have hhdr := packetDecodeHdr_cons p.flags (octet16 p.keyLen 8) (octet16 p.keyLen 0)
      (octet32 p.valueLen 24) (octet32 p.valueLen 16) (octet32 p.valueLen 8)
      (octet32 p.valueLen 0) (p.key ++ p.value ++ rest) n (Nat.not_lt.mp hn)
    simp only [hdata, Bool.not_false, if_true, join16_octet16, join32_octet32] at hhdr
    rw [packetDecode_cons hhdr]
    refine packetDecodeBody_refused ?_ _ ?_
    · exact hdata
    · exact hsum

/-- What `packet_decode` makes a packet of: a block that begins with its bytes. They
pass the length checks, but they may end behind the length. -/
theorem packetDecode_eq_some {block : Bytes} {n : ℕ} {q : Packet} :
    packetDecode block n = .ok (some q) ↔
      (flagSet q.flags pktFlagCtrl = false → q.Exact) ∧ q.onWire = q ∧
      q.wire <+: block ∧ q.Passes n := by
  constructor
  · intro h
    obtain ⟨b, hone, rest, rfl⟩ := exists_onePacket (complete_of_decoded h)
    obtain ⟨p, hexact, honWire, rfl⟩ := exists_wire_eq hone
    by_cases hpass : p.Passes n
    · rw [packetDecode_wire_append hexact hpass, honWire] at h
      cases h
      exact ⟨hexact, honWire, List.prefix_append _ _, hpass⟩
    · rw [packetDecode_wire_refused hpass] at h
      cases h
  · rintro ⟨hexact, honWire, ⟨rest, rfl⟩, hpass⟩
    rw [packetDecode_wire_append hexact hpass, honWire]

end RN2223.Praxis2

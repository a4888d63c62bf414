import Mathlib.Data.List.Induction
import RN2223.Praxis2.PacketCodec
import RN2223.Praxis2.Server

/-!
# Packets out of a byte stream

One connection over any number of poll passes, each of which hands the client a
piece of the stream. What the client holds after some bytes is a function of the
bytes since the last complete packet.
-/

namespace RN2223.Praxis2
open CMemory

/-! ### The connection -/

/-- The bytes of one well-formed packet, key and value below `2^32` together. -/
structure WirePacket where
  bytes : Bytes
  onePacket : OnePacket bytes
  short : bytes.length < 2^32 + 7

def decodeWire (w : WirePacket) : Except Fault (Option Packet) :=
  packetDecode w.bytes w.bytes.length

def wireBytes (ws : List WirePacket) : Bytes := (ws.map WirePacket.bytes).flatten

inductive Conn where
  | active (c : Client)
  | closed
  | faulted (f : Fault)
  deriving DecidableEq

/-- A client connection: the bytes received, the bytes still to come, and the
packets the callback was called with. -/
structure Feed where
  conn : Conn
  received : Bytes
  rest : Bytes
  calls : List (Option Packet)
  deriving DecidableEq

/-- What the client asks `recv` for (`server.c:161,180`). -/
def bytesNeeded [Stack] (c : Client) : Except Fault ℕ :=
  if c.state = .idle then arrayLen (rbCanWrite c.headerBuf)
  else
    match c.pktBuf with
    | some pktBuf => arrayLen (rbCanWrite pktBuf)
    | none => .error .nullPointer

/-- `recv` on an open connection with bytes to read: at most `k + 1` of those
asked for, and 0 when none were asked for. -/
def recvChunk (rest : Bytes) (k n : ℕ) : Recv :=
  if n = 0 then .closed else .data (rest.take (min (k + 1) n))

def Feed.took (f : Feed) (m : ℕ) (c : Client) : Feed :=
  { f with conn := .active c, received := f.received ++ f.rest.take m, rest := f.rest.drop m }

/-- One poll pass; without bytes to read `poll` does not report the socket. The
callback answers `CB_OK`. -/
def Feed.pass [Stack] (f : Feed) (k : ℕ) : Feed :=
  match f.conn with
  | .active c =>
    if f.rest = [] then f
    else
      match bytesNeeded c with
      | .error e => { f with conn := .faulted e }
      | .ok n =>
        match serveClient c (recvChunk f.rest k) with
        | .error e => { f with conn := .faulted e }
        | .ok (.kept c') => f.took (min (k + 1) n) c'
        | .ok (.deliver c' pack) =>
          { f.took (min (k + 1) n) c' with calls := f.calls ++ [pack] }
        | .ok .closed => { f with conn := .closed }
  | _ => f

def Feed.run [Stack] (f : Feed) (ks : List ℕ) : Feed := ks.foldl Feed.pass f

/-- A connection just accepted on which the packets are going to be sent. -/
def Feed.start (ws : List WirePacket) : Feed := ⟨.active (newClient 4), [], wireBytes ws, []⟩

/-! ### What should have happened -/

/-- The packets whose last byte is among the first `m` bytes. -/
def completed : List WirePacket → ℕ → List WirePacket
  | [], _ => []
  | w :: ws, m => if w.bytes.length ≤ m then w :: completed ws (m - w.bytes.length) else []

/-- The connection is open, no byte is lost, and the callback got exactly the
packets that are complete, each as `packet_decode` has it. -/
structure Framed (ws : List WirePacket) (f : Feed) : Prop where
  active : ∃ c, f.conn = .active c
  bytes : f.received ++ f.rest = wireBytes ws
  calls : f.calls.map Except.ok = (completed ws f.received.length).map decodeWire

theorem wireBytes_append (a b : List WirePacket) : wireBytes (a ++ b) = wireBytes a ++ wireBytes b := by
  simp [wireBytes]

theorem completed_append (done todo : List WirePacket) (m : ℕ) :
    completed (done ++ todo) ((wireBytes done).length + m) = done ++ completed todo m := by
  induction done with
  | nil => simp [wireBytes]
  | cons w ws ih =>
    have hlen : (wireBytes (w :: ws)).length = w.bytes.length + (wireBytes ws).length := by
      simp [wireBytes]
    rw [hlen, List.cons_append, completed, if_pos (by omega), Nat.add_assoc, Nat.add_sub_cancel_left,
      ih, List.cons_append]

theorem completed_short {todo : List WirePacket} {m : ℕ}
    (h : ∀ w, todo.head? = some w → m < w.bytes.length) : completed todo m = [] := by
  cases todo with
  | nil => rfl
  | cons w ws => rw [completed, if_neg (Nat.not_le.mpr (h w rfl))]

/-! ### Integer conversion of the buffer size -/

theorem bmod_small {n : ℕ} (h : n < 2147483648) : Int.bmod n 4294967296 = n := by
  rw [Int.bmod_def]
  omega

theorem bmod_large {n : ℕ} (h : 2147483648 ≤ n) (h' : n < 4294967296) :
    Int.bmod n 4294967296 < 0 := by
  rw [Int.bmod_def]
  split <;> omega

theorem arrayLen_eq [Stack] {n : ℕ} (h : n < 2^31) : arrayLen n = stackArray Stack.room n := by
  have hb : Int.bmod n (2^32) = n := bmod_small (by omega)
  unfold arrayLen
  rw [hb, if_neg (by omega), Int.toNat_natCast]

theorem arrayLen_small [Stack] {n : ℕ} (h : n < 2^31) (hroom : n ≤ Stack.room) : arrayLen n = .ok n := by
  rw [arrayLen_eq h, stackArray_fits hroom]

theorem arrayLen_large [Stack] {n : ℕ} (h : 2^31 ≤ n) (h' : n < 2^32) :
    arrayLen n = .error .arraySize := by
  have hb : Int.bmod n (2^32) < 0 := bmod_large (by omega) (by omega)
  unfold arrayLen
  exact if_pos hb

/-! ### What a client holds -/

structure HoldsHeader (c : Client) (part : Bytes) : Prop where
  state : c.state = .idle
  short : part.length < 7
  ok : c.headerBuf.Ok
  size : c.headerBuf.bufsize = 8
  contents : c.headerBuf.contents = part

/-- Waiting for the body of a packet with header `p`; `part` is what has arrived
of the packet. -/
structure HoldsBody (c : Client) (part : Bytes) (p : Packet) (b : RingBuffer) : Prop where
  state : c.state = .hdrRecvd
  header : packetDecodeHdr (part.take 7) pktHeaderLen = .ok (some p)
  long : 7 ≤ part.length
  pack : c.pack = some p
  pktBuf : c.pktBuf = some b
  headerOk : c.headerBuf.Ok
  headerSize : c.headerBuf.bufsize = 8
  headerContents : c.headerBuf.contents = []
  ok : b.Ok
  size : b.bufsize = packetBodySize p + 1
  contents : b.contents = part.drop 7

def Holds (c : Client) (part : Bytes) : Prop :=
  HoldsHeader c part ∨ ∃ p b, HoldsBody c part p b

theorem packetBodySize_lt (p : Packet) : packetBodySize p < 2^32 := by
  unfold packetBodySize
  split
  · exact UInt32.toNat_lt _
  · decide

theorem newClient_holds (socket : Int) : Holds (newClient socket) [] := by
  obtain ⟨hok, hcont, hsize⟩ := rbNew_ok pktHeaderLen (by decide)
  exact Or.inl ⟨rfl, by decide, hok, hsize, hcont⟩

theorem packetDecodeHdr_seven {b : Bytes} (h : b.length = 7) :
    ∃ p, packetDecodeHdr b pktHeaderLen = .ok (some p) := by
  match b, h with
  | [b0, b1, b2, b3, b4, b5, b6], _ =>
    exact ⟨_, packetDecodeHdr_cons b0 b1 b2 b3 b4 b5 b6 [] pktHeaderLen (Nat.le_refl _)⟩

theorem wirePacket_header (w : WirePacket) {p : Packet}
    (h : packetDecodeHdr (w.bytes.take 7) pktHeaderLen = .ok (some p)) :
    w.bytes.length = 7 + packetBodySize p ∧
      decodeWire w = packetDecodeBody p (w.bytes.drop 7) (packetBodySize p) ∧
      ∃ q, decodeWire w = .ok (some q) := by
  obtain ⟨q, hq, -, -⟩ := packetDecode_onePacket w.onePacket
  obtain ⟨b0, b1, b2, b3, b4, b5, b6, rest, hb, hlen⟩ := onePacket_cases w.onePacket
  have hshort := w.short
  have htake : w.bytes.take 7 = [b0, b1, b2, b3, b4, b5, b6] := by
    rw [hb]
    rfl
  have hdrop : w.bytes.drop 7 = rest := by
    rw [hb]
    rfl
  have hwl : w.bytes.length = 7 + rest.length := by
    rw [hb]
    simp only [List.length_cons]
    omega
  rw [htake, packetDecodeHdr_cons b0 b1 b2 b3 b4 b5 b6 [] _ (Nat.le_refl _), Except.ok.injEq,
    Option.some.injEq] at h
  have hdecode : decodeWire w = packetDecodeBody p rest w.bytes.length := by
    rw [decodeWire, packetDecode, hwl, hb,
      packetDecodeHdr_cons b0 b1 b2 b3 b4 b5 b6 rest _ (Nat.le_add_right 7 _), h]
    rfl
  have hflags : p.flags = b0 := by
    rw [← h]
    split <;> rfl
  have hbody : packetBodySize p = rest.length := by
    by_cases hc : flagSet b0 pktFlagCtrl
    · rw [packetBodySize, hflags, hc]
      simp only [announcedSize, hc, if_true] at hlen
      simp
      omega
    · have hc' : flagSet b0 pktFlagCtrl = false := by simpa using hc
      simp only [announcedSize, hc', Bool.false_eq_true, if_false] at hlen
      simp only [hc', Bool.not_false, if_true] at h
      rw [packetBodySize, hflags, hc', ← h]
      simp only [Bool.not_false, if_true, UInt32.toNat_add, UInt16.toNat_toUInt32]
      rw [Nat.mod_eq_of_lt (by omega)]
      omega
  refine ⟨by omega, ?_, q, hq⟩
  rw [hdecode, hdrop, hbody]
  have hqd : packetDecodeBody p rest w.bytes.length = .ok (some q) := hdecode.symm.trans hq
  unfold packetDecodeBody at hqd ⊢
  split
  · rfl
  · next hc =>
    have hsize : (p.keyLen.toUInt32 + p.valueLen).toNat = rest.length := by
      rw [← hbody, packetBodySize]
      simp [hc]
    rw [hsize, if_neg (by omega), if_neg (Nat.lt_irrefl _)]

/-! ### One piece of the stream -/

theorem canWrite_body {c : Client} {part : Bytes} {p : Packet} {b : RingBuffer}
    (h : HoldsBody c part p b) : rbCanWrite b = 7 + packetBodySize p - part.length := by
  have hlong := h.long
  rw [rbCanWrite_eq h.ok, h.size, ← contents_length, h.contents, List.length_drop]
  omega

/-- A piece of the body that fits joins what is there of it. -/
theorem body_written {c : Client} {part chunk : Bytes} {p : Packet} {b : RingBuffer}
    (h : HoldsBody c part p b) (hfit : part.length + chunk.length ≤ 7 + packetBodySize p) :
    (rbWrite b chunk).1.Ok ∧ (rbWrite b chunk).1.bufsize = packetBodySize p + 1 ∧
    (rbWrite b chunk).1.contents = (part ++ chunk).drop 7 ∧
    rbCanWrite (rbWrite b chunk).1 = 7 + packetBodySize p - (part.length + chunk.length) ∧
    rbCanRead (rbWrite b chunk).1 = part.length + chunk.length - 7 := by
  have hlong := h.long
  obtain ⟨hok, hcont, hsize⟩ := rbWrite_spec h.ok chunk
  rw [canWrite_body h, List.take_of_length_le (by omega), h.contents,
    ← List.drop_append_of_le_length h.long] at hcont
  rw [h.size] at hsize
  have hstored : (rbWrite b chunk).1.stored = part.length + chunk.length - 7 := by
    rw [← contents_length, hcont, List.length_drop, List.length_append]
  refine ⟨hok, hsize, hcont, ?_, ?_⟩
  · rw [rbCanWrite_eq hok, hsize, hstored]
    omega
  · rw [rbCanRead_eq hok, hstored]

section
variable [Stack]

theorem bytesNeeded_header {c : Client} {part : Bytes} (h : HoldsHeader c part) :
    bytesNeeded c = .ok (7 - part.length) := by
  have hcan : rbCanWrite c.headerBuf = 7 - part.length := by
    rw [rbCanWrite_eq h.ok, h.size, ← contents_length, h.contents]
  have hroom : 7 - part.length ≤ Stack.room := (Nat.sub_le ..).trans header_le_room
  rw [bytesNeeded, if_pos h.state, hcan, arrayLen_small (by omega) hroom]

theorem bytesNeeded_body {c : Client} {part : Bytes} {p : Packet} {b : RingBuffer}
    (h : HoldsBody c part p b) :
    bytesNeeded c = arrayLen (7 + packetBodySize p - part.length) := by
  have hne : c.state ≠ .idle := by
    rw [h.state]
    decide
  rw [bytesNeeded, if_neg hne, h.pktBuf]
  simp only [canWrite_body h]

/-- Bytes for a client that waits for a header: they join the header, and the
seventh one turns it into a packet without body. -/
theorem serveClient_header {c : Client} {part chunk : Bytes} (h : HoldsHeader c part)
    {recv : ℕ → Recv} (hrecv : recv (7 - part.length) = .data chunk)
    (hfit : part.length + chunk.length ≤ 7) :
    ∃ c', serveClient c recv = .ok (.kept c') ∧ Holds c' (part ++ chunk) := by
  have hcan : rbCanWrite c.headerBuf = 7 - part.length := by
    rw [rbCanWrite_eq h.ok, h.size, ← contents_length, h.contents]
  obtain ⟨hok, hcont, hsize⟩ := rbWrite_spec h.ok chunk
  rw [h.contents, hcan, List.take_of_length_le (by omega)] at hcont
  rw [h.size] at hsize
  have hread : rbCanRead (rbWrite c.headerBuf chunk).1 = part.length + chunk.length := by
    rw [rbCanRead_eq hok, ← contents_length, hcont, List.length_append]
  have hroom : 7 - part.length ≤ Stack.room := (Nat.sub_le ..).trans header_le_room
  simp only [serveClient, h.state, if_true, serveIdle, hcan, arrayLen_small (show
    7 - part.length < 2^31 by omega) hroom, ok_bind, hrecv, hread, pktHeaderLen]
  by_cases hfull : part.length + chunk.length = 7
  · have hlen : (part ++ chunk).length = 7 := by rw [List.length_append, hfull]
    obtain ⟨p, hp⟩ := packetDecodeHdr_seven hlen
    obtain ⟨hok', hread', hcont', hsize'⟩ := rbRead_spec hok 7
    rw [hcont, List.take_of_length_le (by omega)] at hread'
    rw [hcont, List.drop_eq_nil_of_le (by omega)] at hcont'
    obtain ⟨hbok, hbcont, hbsize⟩ := rbNew_ok (packetBodySize p) (by
      have hlt := packetBodySize_lt p
      omega)
    rw [if_pos hfull]
    simp only [clientDecodeHdr, pktHeaderLen, hread']
    rw [pktHeaderLen] at hp
    simp only [hp, ok_bind]
    refine ⟨_, rfl, Or.inr ⟨p, rbNew (packetBodySize p), rfl, ?_, ?_, rfl, rfl, hok', ?_, hcont',
      hbok, hbsize, ?_⟩⟩
    · rw [List.take_of_length_le (by omega)]
      exact hp
    · omega
    · rw [hsize', hsize]
    · rw [hbcont, List.drop_eq_nil_of_le (by omega)]
  · rw [if_neg hfull]
    have hshort : (part ++ chunk).length < 7 := by
      rw [List.length_append]
      omega
    exact ⟨{ c with headerBuf := (rbWrite c.headerBuf chunk).1 }, by rw [h.state],
      Or.inl ⟨h.state, hshort, hok, hsize, hcont⟩⟩

theorem serveClient_body {c : Client} {part chunk : Bytes} {p : Packet} {b : RingBuffer}
    (h : HoldsBody c part p b) {recv : ℕ → Recv} (hsmall : packetBodySize p < 2^31)
    (hroom : 2 * packetBodySize p ≤ Stack.room)
    (hrecv : recv (7 + packetBodySize p - part.length) = .data chunk)
    (hfit : part.length + chunk.length ≤ 7 + packetBodySize p) :
    (part.length + chunk.length < 7 + packetBodySize p ∧
      ∃ c', serveClient c recv = .ok (.kept c') ∧ Holds c' (part ++ chunk)) ∨
    (part.length + chunk.length = 7 + packetBodySize p ∧
      ∀ q, packetDecodeBody p ((part ++ chunk).drop 7) (packetBodySize p) = .ok (some q) →
        ∃ c', serveClient c recv = .ok (.deliver c' (some q)) ∧ Holds c' []) := by
  have hlong := h.long
  have hne : c.state ≠ .idle := by
    rw [h.state]
    decide
  obtain ⟨hok, hsize, hcont, hwrite, hread⟩ := body_written h hfit
  have htake : (part ++ chunk).take 7 = part.take 7 := List.take_append_of_le_length h.long
  simp only [serveClient, hne, if_false, h.pktBuf, serveBody, canWrite_body h,
    arrayLen_small (show 7 + packetBodySize p - part.length < 2^31 by omega) (by omega), ok_bind,
    hrecv, hwrite]
  by_cases hfull : part.length + chunk.length = 7 + packetBodySize p
  · refine Or.inr ⟨hfull, fun q hq => ?_⟩
    rw [if_pos (by omega)]
    have havail : rbCanRead (rbWrite b chunk).1 = packetBodySize p := by omega
    obtain ⟨-, hbody, -, -⟩ := rbRead_spec hok (packetBodySize p)
    rw [hcont, List.take_of_length_le (by simp; omega)] at hbody
    -- the array of the last recv and the one for the body share the room
    have hleft : packetBodySize p ≤ Stack.room - (7 + packetBodySize p - part.length) := by omega
    simp only [clientDecodeBody, h.pack, havail, stackArray_fits hleft, hbody, hq, ok_bind]
    exact ⟨_, rfl, Or.inl ⟨rfl, by decide, h.headerOk, h.headerSize, h.headerContents⟩⟩
  · refine Or.inl ⟨by omega, ?_⟩
    rw [if_neg (by omega)]
    refine ⟨_, rfl, Or.inr ⟨p, (rbWrite b chunk).1, h.state, ?_, ?_, h.pack, rfl, h.headerOk,
      h.headerSize, h.headerContents, hok, hsize, hcont⟩⟩
    · rw [htake]
      exact h.header
    · rw [List.length_append]
      omega

/-- A body that comes in one piece and fits the stack only once: the array for its
decoding does not find room any more. -/
theorem serveClient_overflows {c : Client} {part chunk : Bytes} {p : Packet} {b : RingBuffer}
    (h : HoldsBody c part p b) (hpart : part.length = 7) {recv : ℕ → Recv}
    (hsmall : packetBodySize p < 2^31) (hroom : packetBodySize p ≤ Stack.room)
    (htwice : Stack.room < 2 * packetBodySize p)
    (hrecv : recv (packetBodySize p) = .data chunk) (hchunk : chunk.length = packetBodySize p) :
    serveClient c recv = .error .stackOverflow := by
  have hne : c.state ≠ .idle := by
    rw [h.state]
    decide
  obtain ⟨-, -, -, hwrite, hread⟩ := body_written h
    (show part.length + chunk.length ≤ 7 + packetBodySize p by omega)
  have hcan : rbCanWrite b = packetBodySize p := by
    rw [canWrite_body h]
    omega
  have hfull : rbCanWrite (rbWrite b chunk).1 = 0 := by omega
  have havail : rbCanRead (rbWrite b chunk).1 = packetBodySize p := by omega
  have hleft : Stack.room - packetBodySize p < packetBodySize p := by omega
  simp only [serveClient, hne, if_false, h.pktBuf, serveBody, hcan, arrayLen_small hsmall hroom,
    ok_bind, hrecv, hfull, if_true, clientDecodeBody, h.pack, havail, stackArray_overflows hleft]
  rfl

end

/-! ### The whole stream -/

theorem wire_long (w : WirePacket) : 7 ≤ w.bytes.length := by
  obtain ⟨b0, b1, b2, b3, b4, b5, b6, rest, hb, -⟩ := onePacket_cases w.onePacket
  rw [hb]
  simp only [List.length_cons]
  omega

theorem recvChunk_data (rest : Bytes) (k : ℕ) {n : ℕ} (hn : n ≠ 0) :
    recvChunk rest k n = .data (rest.take (min (k + 1) n)) := by
  rw [recvChunk, if_neg hn]

theorem took_grows {f : Feed} (hrest : f.rest ≠ []) {m k : ℕ} (hm : 0 < m) (hmk : m ≤ k + 1) (c : Client) :
    f.received.length < (f.took m c).received.length ∧
      (f.took m c).received.length ≤ f.received.length + (k + 1) := by
  have hpos : 0 < f.rest.length := List.length_pos_iff.mpr hrest
  rw [Feed.took, List.length_append, List.length_take]
  omega

section
variable [Stack]

/-- A body the server can receive: not empty, below `2^31` bytes, and with room for
it twice on the stack, once where `recv` puts it and once where it is decoded. -/
def WirePacket.Receivable (w : WirePacket) : Prop :=
  pktHeaderLen < w.bytes.length ∧ w.bytes.length < 2^31 + pktHeaderLen ∧
  2 * (w.bytes.length - pktHeaderLen) ≤ Stack.room

structure Midway (ws : List WirePacket) (f : Feed) (done todo : List WirePacket)
    (part : Bytes) : Prop where
  split : ws = done ++ todo
  received : f.received = wireBytes done ++ part
  rest : part ++ f.rest = wireBytes todo
  calls : f.calls.map Except.ok = done.map decodeWire
  client : ∃ c, f.conn = .active c ∧ Holds c part
  short : ∀ w, todo.head? = some w → part.length < w.bytes.length ∨ part.length = 7
  receivable : ∀ w ∈ done, w.Receivable

theorem midway_start (ws : List WirePacket) : Midway ws (Feed.start ws) [] ws [] := by
  refine ⟨rfl, rfl, rfl, rfl, ⟨newClient 4, rfl, newClient_holds 4⟩, fun w _ => Or.inl ?_,
    fun w hw => absurd hw List.not_mem_nil⟩
  have hlong := wire_long w
  simp only [List.length_nil]
  omega

section
variable {ws done todo : List WirePacket} {f : Feed} {part : Bytes}

theorem midway_head (h : Midway ws f done todo part) (hrest : f.rest ≠ []) :
    ∃ w more, todo = w :: more ∧ part.length ≤ w.bytes.length ∧
      w.bytes = part ++ f.rest.take (w.bytes.length - part.length) ∧
      wireBytes more = f.rest.drop (w.bytes.length - part.length) := by
  cases todo with
  | nil =>
    have hnil := h.rest
    simp only [wireBytes, List.map_nil, List.flatten_nil, List.append_eq_nil_iff] at hnil
    exact absurd hnil.2 hrest
  | cons w more =>
    have hle : part.length ≤ w.bytes.length := by
      rcases h.short w rfl with hlt | heq
      · exact Nat.le_of_lt hlt
      · have hlong := wire_long w
        omega
    have hflat : part ++ f.rest = w.bytes ++ wireBytes more := h.rest
    have htake := congrArg (List.take w.bytes.length) hflat
    have hdrop := congrArg (List.drop w.bytes.length) hflat
    rw [List.take_left, List.take_append, List.take_of_length_le hle] at htake
    rw [List.drop_left, List.drop_append, List.drop_eq_nil_of_le hle, List.nil_append] at hdrop
    exact ⟨w, more, rfl, hle, htake.symm, hdrop.symm⟩

theorem midway_more {w : WirePacket} {more : List WirePacket} {c : Client} {m : ℕ}
    (h : Midway ws f done (w :: more) part)
    (hm : part.length + (f.rest.take m).length < w.bytes.length ∨
      part.length + (f.rest.take m).length = 7)
    (hc : Holds c (part ++ f.rest.take m)) :
    Midway ws (f.took m c) done (w :: more) (part ++ f.rest.take m) := by
  refine ⟨h.split, ?_, ?_, h.calls, ⟨c, rfl, hc⟩, fun w' hw' => ?_, h.receivable⟩
  · rw [Feed.took, h.received, List.append_assoc]
  · rw [Feed.took, List.append_assoc, List.take_append_drop]
    exact h.rest
  · cases hw'
    rw [List.length_append]
    exact hm

theorem midway_deliver {w : WirePacket} {more : List WirePacket} {c : Client} {m : ℕ}
    {q : Packet} (h : Midway ws f done (w :: more) part)
    (hw : w.bytes = part ++ f.rest.take m) (hmore : wireBytes more = f.rest.drop m)
    (hq : decodeWire w = .ok (some q)) (hr : w.Receivable) (hc : Holds c []) :
    Midway ws { f.took m c with calls := f.calls ++ [some q] } (done ++ [w]) more [] := by
  refine ⟨?_, ?_, hmore.symm, ?_, ⟨c, rfl, hc⟩, fun w' _ => Or.inl ?_, fun w' hw' => ?_⟩
  · rw [h.split, List.append_assoc, List.singleton_append]
  · have hone : wireBytes [w] = w.bytes := by simp [wireBytes]
    rw [Feed.took, h.received, wireBytes_append, hone, hw, List.append_nil, List.append_assoc]
  · simp only [List.map_append, h.calls, List.map_cons, List.map_nil, hq]
  · have hlong := wire_long w'
    simp only [List.length_nil]
    omega
  · rcases List.mem_append.mp hw' with hd | hone
    · exact h.receivable w' hd
    · rwa [List.mem_singleton.mp hone]

theorem midway_header {w : WirePacket} {more : List WirePacket} {c : Client}
    (h : Midway ws f done (w :: more) part) (hconn : f.conn = .active c) (hh : HoldsHeader c part)
    (hrest : f.rest ≠ []) (k : ℕ) :
    ∃ m c', 0 < m ∧ m ≤ k + 1 ∧ f.pass k = f.took m c' ∧
      Midway ws (f.took m c') done (w :: more) (part ++ f.rest.take m) := by
  -- at most the seven bytes of the header are asked for
  have hshort := hh.short
  have hn : 7 - part.length ≠ 0 := by omega
  have hlong := wire_long w
  obtain ⟨c', hserve, hc'⟩ := serveClient_header hh (recvChunk_data f.rest k hn)
    (by rw [List.length_take]; omega)
  refine ⟨min (k + 1) (7 - part.length), c', by omega, by omega, ?_, midway_more h ?_ hc'⟩
  · simp only [Feed.pass, hconn, hrest, if_false, bytesNeeded_header hh, hserve]
  · rw [List.length_take]
    omega

theorem midway_body {w : WirePacket} {more : List WirePacket} {c : Client} {p : Packet}
    {b : RingBuffer} (h : Midway ws f done (w :: more) part)
    (hw : w.bytes = part ++ f.rest.take (w.bytes.length - part.length))
    (hmore : wireBytes more = f.rest.drop (w.bytes.length - part.length))
    (hconn : f.conn = .active c) (hb : HoldsBody c part p b) (hrecv : w.Receivable)
    (hrest : f.rest ≠ []) (k : ℕ) :
    ∃ m c', 0 < m ∧ m ≤ k + 1 ∧
      (f.pass k = f.took m c' ∧
        Midway ws (f.took m c') done (w :: more) (part ++ f.rest.take m) ∨
      ∃ q, f.pass k = { f.took m c' with calls := f.calls ++ [some q] } ∧
        Midway ws { f.took m c' with calls := f.calls ++ [some q] } (done ++ [w]) more []) := by
  -- what is missing from the packet is asked for
  have hlong := hb.long
  have hheader : packetDecodeHdr (w.bytes.take 7) pktHeaderLen = .ok (some p) := by
    rw [hw, List.take_append_of_le_length hlong]
    exact hb.header
  obtain ⟨hwl, hdecode, q, hq⟩ := wirePacket_header w hheader
  obtain ⟨hr7, hr31, hroom⟩ := id hrecv
  rw [pktHeaderLen] at hr7 hr31 hroom
  have hsmall : packetBodySize p < 2^31 := by omega
  have htwice : 2 * packetBodySize p ≤ Stack.room := by omega
  have hlt : part.length < w.bytes.length := by
    rcases h.short w rfl with hlt | heq
    · exact hlt
    · omega
  have hn : 7 + packetBodySize p - part.length ≠ 0 := by omega
  have hneed := bytesNeeded_body hb
  rw [arrayLen_small (by omega) (by omega)] at hneed
  have hfit : part.length + (f.rest.take (min (k + 1)
      (7 + packetBodySize p - part.length))).length ≤ 7 + packetBodySize p := by
    rw [List.length_take]
    omega
  rcases serveClient_body hb hsmall htwice (recvChunk_data f.rest k hn) hfit with
    ⟨hmid, c', hserve, hc'⟩ | ⟨hfull, hdel⟩
  · refine ⟨min (k + 1) (7 + packetBodySize p - part.length), c', by omega, by omega,
      Or.inl ⟨?_, midway_more h (Or.inl ?_) hc'⟩⟩
    · simp only [Feed.pass, hconn, hrest, if_false, hneed, hserve]
    · rw [hwl]
      exact hmid
  · have hm : min (k + 1) (7 + packetBodySize p - part.length) = w.bytes.length - part.length := by
      rw [List.length_take] at hfull
      omega
    rw [hm, ← hw, ← hdecode] at hdel
    obtain ⟨c', hserve, hc'⟩ := hdel q hq
    refine ⟨w.bytes.length - part.length, c', by omega, by omega,
      Or.inr ⟨q, ?_, midway_deliver h hw hmore hq hrecv hc'⟩⟩
    simp only [Feed.pass, hconn, hrest, if_false, hneed, hserve, hm]

/-- One pass over a ready connection brings at least one byte and keeps the
packets apart, unless the next packet cannot be received. -/
theorem midway_pass (h : Midway ws f done todo part) (hrest : f.rest ≠ [])
    (hgood : ∀ w, todo.head? = some w → w.Receivable ∨ part.length < 7) (k : ℕ) :
    ∃ done' todo' part', Midway ws (f.pass k) done' todo' part' ∧
      f.received.length < (f.pass k).received.length ∧
      (f.pass k).received.length ≤ f.received.length + (k + 1) := by
  obtain ⟨w, more, rfl, -, hw, hmore⟩ := midway_head h hrest
  obtain ⟨c, hconn, hh | ⟨p, b, hb⟩⟩ := h.client
  · obtain ⟨m, c', hm, hmk, hpass, hmid⟩ := midway_header h hconn hh hrest k
    rw [hpass]
    exact ⟨_, _, _, hmid, took_grows hrest hm hmk c'⟩
  · have hlong := hb.long
    have hrecv : w.Receivable := (hgood w rfl).resolve_right (by omega)
    obtain ⟨m, c', hm, hmk, ⟨hpass, hmid⟩ | ⟨q, hpass, hmid⟩⟩ :=
      midway_body h hw hmore hconn hb hrecv hrest k
    · rw [hpass]
      exact ⟨_, _, _, hmid, took_grows hrest hm hmk c'⟩
    · rw [hpass]
      exact ⟨_, _, _, hmid, took_grows hrest hm hmk c'⟩

theorem midway_framed (h : Midway ws f done todo part)
    (hshort : ∀ w, todo.head? = some w → part.length < w.bytes.length) : Framed ws f := by
  obtain ⟨c, hconn, -⟩ := h.client
  refine ⟨⟨c, hconn⟩, ?_, ?_⟩
  · rw [h.received, List.append_assoc, h.rest, h.split, wireBytes_append]
  · rw [h.calls, h.received, List.length_append, h.split, completed_append,
      completed_short hshort, List.append_nil]

end

/-! ### Receivable packets are framed, others are not -/

theorem run_midway {ws : List WirePacket} (hgood : ∀ w ∈ ws, w.Receivable) (ks : List ℕ) :
    ∃ done todo part, Midway ws ((Feed.start ws).run ks) done todo part := by
  induction ks using List.reverseRecOn with
  | nil => exact ⟨_, _, _, midway_start ws⟩
  | append_singleton ks k ih =>
    obtain ⟨done, todo, part, h⟩ := ih
    rw [Feed.run, List.foldl_append, List.foldl_cons, List.foldl_nil]
    change ∃ done todo part, Midway ws (Feed.pass ((Feed.start ws).run ks) k) done todo part
    by_cases hrest : ((Feed.start ws).run ks).rest = []
    · have hpass : ((Feed.start ws).run ks).pass k = (Feed.start ws).run ks := by
        obtain ⟨c, hconn, -⟩ := h.client
        simp only [Feed.pass, hconn, hrest, if_true]
      rw [hpass]
      exact ⟨done, todo, part, h⟩
    · obtain ⟨done', todo', part', h', -⟩ := midway_pass h hrest (fun w hw => Or.inl (hgood w (by
        rw [h.split]
        exact List.mem_append_right _ (List.mem_of_mem_head? (by rw [hw]; rfl))))) k
      exact ⟨done', todo', part', h'⟩

theorem receivable_framed {ws : List WirePacket} (hgood : ∀ w ∈ ws, w.Receivable) (ks : List ℕ) :
    Framed ws ((Feed.start ws).run ks) := by
  obtain ⟨done, todo, part, h⟩ := run_midway hgood ks
  refine midway_framed h fun w hw => ?_
  have hmem : w ∈ ws := by
    rw [h.split]
    exact List.mem_append_right _ (List.mem_of_mem_head? (by rw [hw]; rfl))
  have hlong := (hgood w hmem).1
  rw [pktHeaderLen] at hlong
  rcases h.short w hw with hlt | heq
  · exact hlt
  · omega

theorem exists_first_unreceivable {ws : List WirePacket} (h : ¬ ∀ w ∈ ws, w.Receivable) :
    ∃ good w more, ws = good ++ w :: more ∧ (∀ g ∈ good, g.Receivable) ∧ ¬ w.Receivable := by
  induction ws with
  | nil => exact absurd (fun w hw => absurd hw List.not_mem_nil) h
  | cons w ws ih =>
    by_cases hw : w.Receivable
    · obtain ⟨good, x, more, hws, hgood, hx⟩ := ih fun hall => h fun y hy => by
        rcases List.mem_cons.mp hy with rfl | hy
        · exact hw
        · exact hall y hy
      refine ⟨w :: good, x, more, by rw [hws, List.cons_append], fun g hg => ?_, hx⟩
      rcases List.mem_cons.mp hg with rfl | hg
      · exact hw
      · exact hgood g hg
    · exact ⟨[], w, ws, rfl, fun g hg => absurd hg List.not_mem_nil, hw⟩

section
variable {good more : List WirePacket} {w : WirePacket} {f : Feed}

theorem midway_done {done todo : List WirePacket} {part : Bytes} (hw : ¬ w.Receivable)
    (h : Midway (good ++ w :: more) f done todo part) :
    (done = good ∧ todo = w :: more) ∨ ∃ g rest, good = done ++ g :: rest ∧ todo.head? = some g := by
  rcases List.append_eq_append_iff.mp h.split with ⟨as, hdone, htodo⟩ | ⟨as, hgood, htodo⟩
  · cases as with
    | nil =>
      rw [List.append_nil] at hdone
      rw [List.nil_append] at htodo
      exact Or.inl ⟨hdone, htodo.symm⟩
    | cons x xs =>
      rw [List.cons_append, List.cons.injEq] at htodo
      have hmem : w ∈ done := by
        rw [hdone, htodo.1]
        exact List.mem_append_right _ (List.mem_cons_self ..)
      exact absurd (h.receivable w hmem) hw
  · cases as with
    | nil =>
      rw [List.append_nil] at hgood
      rw [List.nil_append] at htodo
      exact Or.inl ⟨hgood.symm, htodo⟩
    | cons x xs =>
      refine Or.inr ⟨x, xs, hgood, ?_⟩
      rw [htodo]
      rfl

theorem run_to_header (more : List WirePacket) (hgood : ∀ g ∈ good, g.Receivable) (hw : ¬ w.Receivable) {j : ℕ}
    (hj : j ≤ (wireBytes good).length + 7) : ∃ done todo part,
      Midway (good ++ w :: more) ((Feed.start (good ++ w :: more)).run (List.replicate j 0))
        done todo part ∧
      ((Feed.start (good ++ w :: more)).run (List.replicate j 0)).received.length = j := by
  induction j with
  | zero => exact ⟨_, _, _, midway_start _, rfl⟩
  | succ j ih =>
    obtain ⟨done, todo, part, h, hlen⟩ := ih (by omega)
    rw [List.replicate_succ', Feed.run, List.foldl_append, List.foldl_cons, List.foldl_nil]
    generalize hf : (Feed.start (good ++ w :: more)).run (List.replicate j 0) = f at h hlen
    rw [Feed.run] at hf
    rw [hf]
    have hrec := congrArg List.length h.received
    rw [List.length_append] at hrec
    have hrest : f.rest ≠ [] := by
      intro hnil
      have hall := congrArg List.length h.rest
      have hws := congrArg List.length (wireBytes_append done todo)
      rw [← h.split, wireBytes_append] at hws
      have hlong := wire_long w
      have hhead : (wireBytes (w :: more)).length = w.bytes.length + (wireBytes more).length := by
        simp [wireBytes]
      rw [hnil, List.append_nil] at hall
      rw [List.length_append, List.length_append] at hws
      omega
    have hhead : ∀ w', todo.head? = some w' → w'.Receivable ∨ part.length < 7 := by
      intro w' hw'
      rcases midway_done hw h with ⟨rfl, -⟩ | ⟨g, rest, hg, hgt⟩
      · right
        omega
      · rw [hgt, Option.some.injEq] at hw'
        subst hw'
        refine Or.inl (hgood g ?_)
        rw [hg]
        exact List.mem_append_right _ (List.mem_cons_self ..)
    obtain ⟨done', todo', part', h', hlt, hle⟩ := midway_pass h hrest hhead 0
    exact ⟨done', todo', part', h', by omega⟩

theorem header_received (more : List WirePacket) (hgood : ∀ g ∈ good, g.Receivable) (hw : ¬ w.Receivable) :
    ∃ part, Midway (good ++ w :: more) ((Feed.start (good ++ w :: more)).run
      (List.replicate ((wireBytes good).length + 7) 0)) good (w :: more) part ∧
      part.length = 7 := by
  obtain ⟨done, todo, part, h, hlen⟩ := run_to_header more hgood hw (Nat.le_refl _)
  have hrec := congrArg List.length h.received
  rw [List.length_append] at hrec
  rcases midway_done hw h with ⟨rfl, rfl⟩ | ⟨g, rest, hg, hgt⟩
  · exact ⟨part, h, by omega⟩
  · have hlong := (hgood g (by rw [hg]; simp)).1
    rw [pktHeaderLen] at hlong
    have hshort := h.short g hgt
    have hlen' := congrArg (fun l => (wireBytes l).length) hg
    simp only [wireBytes_append, List.length_append] at hlen'
    have hcons : (wireBytes (g :: rest)).length = g.bytes.length + (wireBytes rest).length := by
      simp [wireBytes]
    omega

end

/-- The body of a packet that cannot be received, in one piece after its header. -/
theorem pass_faults {f : Feed} {c : Client} {part : Bytes} {p : Packet} {b : RingBuffer}
    (hconn : f.conn = .active c) (hb : HoldsBody c part p b) (hpart : part.length = 7)
    (hbody : 0 < packetBodySize p) (hrest : packetBodySize p ≤ f.rest.length)
    (hbad : ¬ (packetBodySize p < 2^31 ∧ 2 * packetBodySize p ≤ Stack.room)) :
    ∃ e, (f.pass (packetBodySize p)).conn = .faulted e := by
  have hnil : f.rest ≠ [] := List.ne_nil_of_length_pos (by omega)
  have hneed := bytesNeeded_body hb
  rw [hpart, Nat.add_sub_cancel_left] at hneed
  by_cases hsmall : packetBodySize p < 2^31
  · rw [arrayLen_eq hsmall] at hneed
    by_cases hroom : packetBodySize p ≤ Stack.room
    · rw [stackArray_fits hroom] at hneed
      have hdata := recvChunk_data f.rest (packetBodySize p) (Nat.ne_of_gt hbody)
      rw [Nat.min_eq_right (Nat.le_succ _)] at hdata
      have hserve := serveClient_overflows hb hpart hsmall hroom (by omega) hdata
        (List.length_take_of_le hrest)
      simp only [Feed.pass, hconn, hnil, if_false, hneed, hserve]
      exact ⟨_, rfl⟩
    · rw [stackArray_overflows (Nat.lt_of_not_le hroom)] at hneed
      simp only [Feed.pass, hconn, hnil, if_false, hneed]
      exact ⟨_, rfl⟩
  · rw [arrayLen_large (Nat.le_of_not_lt hsmall) (packetBodySize_lt p)] at hneed
    simp only [Feed.pass, hconn, hnil, if_false, hneed]
    exact ⟨_, rfl⟩

/-- A packet without body is not delivered with its last byte, and a body that is
too long for an array ends the process. -/
theorem unreceivable_not_framed {ws : List WirePacket} (h : ¬ ∀ w ∈ ws, w.Receivable) :
    ∃ ks, ¬ Framed ws ((Feed.start ws).run ks) := by
  obtain ⟨good, w, more, rfl, hgood, hw⟩ := exists_first_unreceivable h
  obtain ⟨part, hmid, hpart⟩ := header_received more hgood hw
  by_cases hseven : w.bytes.length = 7
  · refine ⟨List.replicate ((wireBytes good).length + 7) 0, fun hframed => ?_⟩
    have hcalls := congrArg List.length (hmid.calls.symm.trans hframed.calls)
    rw [hmid.received, List.length_append, completed_append, completed, if_pos (by omega)] at hcalls
    simp at hcalls
  · have hlong := wire_long w
    refine ⟨List.replicate ((wireBytes good).length + 7) 0 ++ [w.bytes.length - 7],
      fun hframed => ?_⟩
    obtain ⟨c', hactive⟩ := hframed.active
    rw [Feed.run, List.foldl_append, List.foldl_cons, List.foldl_nil] at hactive
    generalize hf : (Feed.start (good ++ w :: more)).run
      (List.replicate ((wireBytes good).length + 7) 0) = f at hmid
    rw [Feed.run] at hf
    rw [hf] at hactive
    have hleft : w.bytes.length - 7 ≤ f.rest.length := by
      have hall := congrArg List.length hmid.rest
      have hhead : (wireBytes (w :: more)).length = w.bytes.length + (wireBytes more).length := by
        simp [wireBytes]
      rw [List.length_append] at hall
      omega
    have hrest : f.rest ≠ [] := List.ne_nil_of_length_pos (by omega)
    obtain ⟨w', more', heq, -, hbytes, -⟩ := midway_head hmid hrest
    rw [List.cons.injEq] at heq
    obtain ⟨rfl, rfl⟩ := heq
    obtain ⟨c, hconn, hh | ⟨p, b, hb⟩⟩ := hmid.client
    · have hshort := hh.short
      omega
    · have hheader : packetDecodeHdr (w.bytes.take 7) pktHeaderLen = .ok (some p) := by
        rw [hbytes, List.take_append_of_le_length (by omega)]
        exact hb.header
      obtain ⟨hwl, -, -⟩ := wirePacket_header w hheader
      have hsize : w.bytes.length - 7 = packetBodySize p := by omega
      have hbad : ¬ (packetBodySize p < 2^31 ∧ 2 * packetBodySize p ≤ Stack.room) := by
        rintro ⟨hsmall, htwice⟩
        refine hw ⟨?_, ?_, ?_⟩
        all_goals rw [pktHeaderLen]
        all_goals omega
      rw [hsize] at hactive hleft
      obtain ⟨e, hfault⟩ := pass_faults hconn hb hpart (by omega) hleft hbad
      cases hfault.symm.trans hactive

/-- Whatever the pieces, the packets are framed, if and only if each of them has
a body that the stack takes twice, below `2^31` bytes. -/
theorem framed_iff_receivable (ws : List WirePacket) :
    (∀ ks, Framed ws ((Feed.start ws).run ks)) ↔ ∀ w ∈ ws, w.Receivable := by
  constructor
  · intro hall
    by_contra h
    obtain ⟨ks, hks⟩ := unreceivable_not_framed h
    exact hks (hall ks)
  · exact fun hgood ks => receivable_framed hgood ks

end

def emptyDelete : WirePacket where
  bytes := [1, 0, 0, 0, 0, 0, 0]
  onePacket := by
    unfold OnePacket
    decide
  short := by decide

/-- Two of them: the first is never delivered, and the second one's bytes being
there makes the server take the connection for closed. -/
theorem emptyDelete_not_framed :
    ((Feed.start [emptyDelete, emptyDelete]).run [6, 6]).conn = .closed ∧
    ((Feed.start [emptyDelete, emptyDelete]).run [6, 6]).calls = [] ∧
    ¬ Framed [emptyDelete, emptyDelete] ((Feed.start [emptyDelete, emptyDelete]).run [6, 6]) := by
  have hconn : ((Feed.start [emptyDelete, emptyDelete]).run [6, 6]).conn = .closed := by decide
  refine ⟨hconn, by decide, fun hframed => ?_⟩
  obtain ⟨c, hc⟩ := hframed.active
  rw [hconn] at hc
  cases hc

end RN2223.Praxis2

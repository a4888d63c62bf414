import Mathlib.Algebra.Group.Nat.Defs
import RN2223.Lib.CMemory

/-!
# The ring buffer of util.c

A circular byte buffer with one spare slot, so that full and empty differ. All
positions and counts are `size_t`: sums and differences are taken modulo `2^64`,
which `rb_can_write` relies on when `rpos` is zero.
-/

namespace RN2223.Praxis2
open CMemory

def sizeAdd (a b : ℕ) : ℕ := (a + b) % 2^64

/-- `a - b` in `size_t`, wrapping below zero. -/
def sizeSub (a b : ℕ) : ℕ := (a + (2^64 - b)) % 2^64

/-- `struct _ring_buffer` (`util.h:7-12`). -/
structure RingBuffer where
  buffer : Bytes
  bufsize : ℕ
  wpos : ℕ
  rpos : ℕ
  deriving DecidableEq, Repr

/-- `rb_new` (`util.c:84-92`). -/
def rbNew (size : ℕ) : RingBuffer where
  buffer := List.replicate (sizeAdd size 1) 0
  bufsize := sizeAdd size 1
  wpos := 0
  rpos := 0

/-- `rb_can_read` (`util.c:94-101`). -/
def rbCanRead (rb : RingBuffer) : ℕ :=
  if rb.rpos ≤ rb.wpos then sizeSub rb.wpos rb.rpos
  else sizeAdd (sizeSub rb.bufsize rb.rpos) rb.wpos

/-- `rb_can_write` (`util.c:103-109`). -/
def rbCanWrite (rb : RingBuffer) : ℕ :=
  if rb.wpos < rb.rpos then sizeSub (sizeSub rb.rpos rb.wpos) 1
  else sizeAdd (sizeSub rb.bufsize rb.wpos) (sizeSub rb.rpos 1)

def rbPut (rb : RingBuffer) (b : UInt8) : RingBuffer :=
  { rb with buffer := rb.buffer.set rb.wpos b, wpos := sizeAdd rb.wpos 1 % rb.bufsize }

/-- The loop of `rb_write`: bytes offered against the bound taken before it. -/
def rbWriteLoop : RingBuffer → Bytes → ℕ → RingBuffer
  | rb, [], _ => rb
  | rb, _ :: _, 0 => rb
  | rb, b :: bs, avail + 1 => rbWriteLoop (rbPut rb b) bs avail

/-- `rb_write` (`util.c:111-119`) of a buffer offered with its length. -/
def rbWrite (rb : RingBuffer) (buffer : Bytes) : RingBuffer × ℕ :=
  (rbWriteLoop rb buffer (rbCanWrite rb), rbCanWrite rb)

def rbGet (rb : RingBuffer) : RingBuffer × UInt8 :=
  ({ rb with rpos := sizeAdd rb.rpos 1 % rb.bufsize }, rb.buffer.getD rb.rpos 0)

/-- The loop of `rb_read` over the given number of rounds. -/
def rbReadLoop : RingBuffer → ℕ → RingBuffer × Bytes
  | rb, 0 => (rb, [])
  | rb, n + 1 =>
    let r := rbReadLoop (rbGet rb).1 n
    (r.1, (rbGet rb).2 :: r.2)

/-- `rb_read` (`util.c:121-129`): the buffer after it and the bytes delivered. -/
def rbRead (rb : RingBuffer) (bufsize : ℕ) : RingBuffer × Bytes :=
  rbReadLoop rb (min (rbCanRead rb) bufsize)

/-! ### The queue a ring buffer holds -/

/-- Positions inside the buffer, a buffer that `size_t` can index. -/
structure RingBuffer.Ok (rb : RingBuffer) : Prop where
  length : rb.buffer.length = rb.bufsize
  size : rb.bufsize < 2^64
  wpos : rb.wpos < rb.bufsize
  rpos : rb.rpos < rb.bufsize

def RingBuffer.stored (rb : RingBuffer) : ℕ :=
  if rb.rpos ≤ rb.wpos then rb.wpos - rb.rpos else rb.bufsize - rb.rpos + rb.wpos

def RingBuffer.slot (rb : RingBuffer) (k : ℕ) : ℕ :=
  if rb.rpos + k < rb.bufsize then rb.rpos + k else rb.rpos + k - rb.bufsize

/-- The stored bytes, oldest first. -/
def RingBuffer.contents (rb : RingBuffer) : Bytes :=
  (List.range rb.stored).map fun k => rb.buffer.getD (rb.slot k) 0

@[simp] theorem contents_length (rb : RingBuffer) : rb.contents.length = rb.stored := by
  simp [RingBuffer.contents]

theorem sizeAdd_of_lt {a b : ℕ} (h : a + b < 2^64) : sizeAdd a b = a + b :=
  Nat.mod_eq_of_lt h

theorem rbCanRead_eq {rb : RingBuffer} (h : rb.Ok) : rbCanRead rb = rb.stored := by
  have h1 := h.size
  have h2 := h.wpos
  have h3 := h.rpos
  unfold rbCanRead RingBuffer.stored sizeAdd sizeSub
  split <;> omega

theorem rbCanWrite_eq {rb : RingBuffer} (h : rb.Ok) :
    rbCanWrite rb = rb.bufsize - 1 - rb.stored := by
  have h1 := h.size
  have h2 := h.wpos
  have h3 := h.rpos
  unfold rbCanWrite RingBuffer.stored sizeAdd sizeSub
  split <;> split <;> omega

theorem stored_lt {rb : RingBuffer} (h : rb.Ok) : rb.stored < rb.bufsize := by
  have h2 := h.wpos
  have h3 := h.rpos
  unfold RingBuffer.stored
  split <;> omega

theorem next_pos {n p : ℕ} (hn : n < 2^64) (hp : p < n) :
    sizeAdd p 1 % n = if p + 1 = n then 0 else p + 1 := by
  rw [sizeAdd_of_lt (by omega)]
  by_cases he : p + 1 = n
  · rw [if_pos he, he, Nat.mod_self]
  · rw [if_neg he, Nat.mod_eq_of_lt (by omega)]

theorem rbNew_ok (size : ℕ) (h : size + 1 < 2^64) :
    (rbNew size).Ok ∧ (rbNew size).contents = [] ∧ (rbNew size).bufsize = size + 1 := by
  have hs : sizeAdd size 1 = size + 1 := sizeAdd_of_lt h
  refine ⟨⟨?_, ?_, ?_, ?_⟩, ?_, hs⟩
  · simp [rbNew]
  · show sizeAdd size 1 < 2^64
    omega
  · show 0 < sizeAdd size 1
    omega
  · show 0 < sizeAdd size 1
    omega
  · simp [RingBuffer.contents, RingBuffer.stored, rbNew]

/-! ### One byte in, one byte out -/

theorem rbPut_spec {rb : RingBuffer} (h : rb.Ok) (hfree : rb.stored < rb.bufsize - 1)
    (b : UInt8) : (rbPut rb b).Ok ∧ (rbPut rb b).contents = rb.contents ++ [b] ∧
    (rbPut rb b).bufsize = rb.bufsize := by
  have h0 := h.length
  have h1 := h.size
  have h2 := h.wpos
  have h3 := h.rpos
  have hw := next_pos h1 h2
  have hstored : (rbPut rb b).stored = rb.stored + 1 := by
    unfold RingBuffer.stored at hfree ⊢
    simp only [rbPut, hw]
    split at hfree <;> split <;> split <;> omega
  have hslot : ∀ k, (rbPut rb b).slot k = rb.slot k := fun k => rfl
  have hlast : rb.slot rb.stored = rb.wpos := by
    unfold RingBuffer.slot RingBuffer.stored
    split <;> split <;> omega
  refine ⟨⟨?_, h1, ?_, h3⟩, ?_, rfl⟩
  · simp [rbPut, h0]
  · simp only [rbPut, hw]
    split <;> omega
  · simp only [RingBuffer.contents, hstored, List.range_succ, List.map_append, List.map_cons,
      List.map_nil, hslot, hlast]
    congr 1
    · apply List.map_congr_left
      intro k hk
      have hk' := List.mem_range.mp hk
      have hne : rb.wpos ≠ rb.slot k := by
        unfold RingBuffer.slot RingBuffer.stored at *
        split at hk' <;> split <;> omega
      simp [rbPut, List.getD_eq_getElem?_getD, List.getElem?_set_ne hne]
    · simp [rbPut, List.getD_eq_getElem?_getD, List.getElem?_set_self (by omega : rb.wpos <
        rb.buffer.length)]

theorem rbGet_spec {rb : RingBuffer} (h : rb.Ok) {b : UInt8} {bs : Bytes}
    (hc : rb.contents = b :: bs) : (rbGet rb).1.Ok ∧ (rbGet rb).2 = b ∧
    (rbGet rb).1.contents = bs ∧ (rbGet rb).1.bufsize = rb.bufsize := by
  have h1 := h.size
  have h2 := h.wpos
  have h3 := h.rpos
  have hr := next_pos h1 h3
  have hlen : rb.stored = bs.length + 1 := by
    rw [← contents_length, hc, List.length_cons]
  have hsplit : rb.contents = rb.buffer.getD rb.rpos 0 ::
      (List.range bs.length).map fun k => rb.buffer.getD (rb.slot (k + 1)) 0 := by
    simp only [RingBuffer.contents, hlen, List.range_succ_eq_map, List.map_cons, List.map_map]
    congr 1
    simp [RingBuffer.slot, h3]
  rw [hc, List.cons.injEq] at hsplit
  have hstored : (rbGet rb).1.stored = bs.length := by
    unfold RingBuffer.stored at hlen ⊢
    simp only [rbGet, hr]
    split at hlen <;> split <;> split <;> omega
  refine ⟨⟨h.length, h1, h2, ?_⟩, hsplit.1.symm, ?_, rfl⟩
  · simp only [rbGet, hr]
    split <;> omega
  · rw [hsplit.2]
    simp only [RingBuffer.contents, hstored]
    apply List.map_congr_left
    intro k hk
    have hk' := List.mem_range.mp hk
    have hlt := stored_lt h
    have hsl : (rbGet rb).1.slot k = rb.slot (k + 1) := by
      unfold RingBuffer.slot
      simp only [rbGet, hr]
      split <;> split <;> split <;> omega
    rw [hsl]
    rfl

/-! ### Whole writes and reads -/

theorem rbWriteLoop_spec {rb : RingBuffer} (h : rb.Ok) (bs : Bytes) {avail : ℕ}
    (ha : avail ≤ rb.bufsize - 1 - rb.stored) : (rbWriteLoop rb bs avail).Ok ∧
    (rbWriteLoop rb bs avail).contents = rb.contents ++ bs.take avail ∧
    (rbWriteLoop rb bs avail).bufsize = rb.bufsize := by
  induction bs generalizing rb avail with
  | nil => simp [rbWriteLoop, h]
  | cons b bs ih =>
    cases avail with
    | zero => simp [rbWriteLoop, h]
    | succ avail =>
      obtain ⟨hok, hcont, hsize⟩ := rbPut_spec h (by omega) b
      have hst : (rbPut rb b).stored = rb.stored + 1 := by
        rw [← contents_length, hcont, List.length_append, contents_length]
        rfl
      have hroom : avail ≤ (rbPut rb b).bufsize - 1 - (rbPut rb b).stored := by
        rw [hsize, hst]
        omega
      obtain ⟨hok', hcont', hsize'⟩ := ih hok hroom
      refine ⟨hok', ?_, hsize'.trans hsize⟩
      simp only [rbWriteLoop, hcont', hcont, List.take_succ_cons, List.append_assoc,
        List.singleton_append]

/-- `rb_write` appends the bytes there is room for. -/
theorem rbWrite_spec {rb : RingBuffer} (h : rb.Ok) (bs : Bytes) : (rbWrite rb bs).1.Ok ∧
    (rbWrite rb bs).1.contents = rb.contents ++ bs.take (rbCanWrite rb) ∧
    (rbWrite rb bs).1.bufsize = rb.bufsize :=
  rbWriteLoop_spec h bs (Nat.le_of_eq (rbCanWrite_eq h))

theorem rbReadLoop_spec {rb : RingBuffer} (h : rb.Ok) {n : ℕ} (hn : n ≤ rb.stored) :
    (rbReadLoop rb n).1.Ok ∧ (rbReadLoop rb n).2 = rb.contents.take n ∧
    (rbReadLoop rb n).1.contents = rb.contents.drop n ∧
    (rbReadLoop rb n).1.bufsize = rb.bufsize := by
  induction n generalizing rb with
  | zero => simp [rbReadLoop, h]
  | succ n ih =>
    cases hc : rb.contents with
    | nil =>
      have hl := congrArg List.length hc
      rw [contents_length, List.length_nil] at hl
      omega
    | cons b bs =>
      obtain ⟨hok, hb, hcont, hsize⟩ := rbGet_spec h hc
      have hst : (rbGet rb).1.stored = bs.length := by rw [← contents_length, hcont]
      have hlen : rb.stored = bs.length + 1 := by rw [← contents_length, hc, List.length_cons]
      obtain ⟨hok', hbs, hcont', hsize'⟩ := ih hok (by omega)
      refine ⟨hok', ?_, ?_, hsize'.trans hsize⟩
      · simp only [rbReadLoop, hb, hbs, hcont, List.take_succ_cons]
      · simp only [rbReadLoop, hcont', hcont, List.drop_succ_cons]

/-- `rb_read` removes the oldest bytes, as many as asked for and stored. -/
theorem rbRead_spec {rb : RingBuffer} (h : rb.Ok) (n : ℕ) : (rbRead rb n).1.Ok ∧
    (rbRead rb n).2 = rb.contents.take n ∧ (rbRead rb n).1.contents = rb.contents.drop n ∧
    (rbRead rb n).1.bufsize = rb.bufsize := by
  have hlen := contents_length rb
  have hmin : min (rbCanRead rb) n = min n rb.contents.length := by
    rw [rbCanRead_eq h, hlen, Nat.min_comm]
  obtain ⟨hok, hbytes, hcont, hsize⟩ := rbReadLoop_spec h (n := min n rb.contents.length)
    (by rw [hlen]; exact Nat.min_le_right _ _)
  rw [rbRead, hmin]
  refine ⟨hok, ?_, ?_, hsize⟩
  · rw [hbytes, List.take_eq_take_iff]
    omega
  · rw [hcont]
    by_cases hle : n ≤ rb.contents.length
    · rw [Nat.min_eq_left hle]
    · rw [Nat.min_eq_right (by omega), List.drop_length, List.drop_of_length_le (by omega)]

end RN2223.Praxis2

import RN2223.Lib.BoundedQueue
import RN2223.Praxis2.RingBuffer

/-!
# The ring buffer is a queue

What any sequence of `rb_write` and `rb_read` calls (util.c:94-129) does to a
buffer from `rb_new`: it stands for a queue of bounded length, in the middle of
a call no less than between two of them.
-/

namespace RN2223.Praxis2
open CMemory BoundedQueue

/-- One call; `rb_write` is offered the bytes with their number. -/
def rbCall (rb : RingBuffer) : QueueCall UInt8 → RingBuffer
  | .write buffer => (rbWrite rb buffer).1
  | .read bufsize => (rbRead rb bufsize).1

def rbStored (rb : RingBuffer) : QueueCall UInt8 → Bytes
  | .write buffer => buffer.take (min buffer.length (rbCanWrite rb))
  | .read _ => []

def rbDelivered (rb : RingBuffer) : QueueCall UInt8 → Bytes
  | .write _ => []
  | .read bufsize => (rbRead rb bufsize).2

/-- The buffer when `k` rounds of the call's loop are over. -/
def rbDuring (rb : RingBuffer) (k : ℕ) : QueueCall UInt8 → RingBuffer
  | .write buffer => rbWriteLoop rb buffer (min k (rbCanWrite rb))
  | .read bufsize => (rbReadLoop rb (min k (min (rbCanRead rb) bufsize))).1

structure RingHolds (size : ℕ) (rb : RingBuffer) (q : BoundedQueue UInt8 size) : Prop where
  ok : rb.Ok
  bufsize : rb.bufsize = size + 1
  contents : rb.contents = q.items

/-- What is asked of a buffer of capacity `size` after the calls `cs`. -/
structure QueueLike (size : ℕ) (cs : List (QueueCall UInt8)) (rb : RingBuffer) : Prop where
  inside : ∀ k c, (rbDuring rb k c).wpos < (rbDuring rb k c).bufsize ∧
    (rbDuring rb k c).rpos < (rbDuring rb k c).bufsize
  balance : ∀ k c, rbCanRead (rbDuring rb k c) + rbCanWrite (rbDuring rb k c) = size
  writes : ∀ buffer, (rbWrite rb buffer).1.contents =
    rb.contents ++ buffer.take (min buffer.length (rbCanWrite rb))
  reads : ∀ bufsize, (rbRead rb bufsize).2.length = min bufsize (rbCanRead rb) ∧
    rb.contents = (rbRead rb bufsize).2 ++ (rbRead rb bufsize).1.contents
  fifo : outputs rbCall rbStored (rbNew size) cs =
    outputs rbCall rbDelivered (rbNew size) cs ++ rb.contents
  still : rb.contents.length = rbCanRead rb

section
variable {size : ℕ} {rb : RingBuffer} {q : BoundedQueue UInt8 size}

theorem RingHolds.stored (h : RingHolds size rb q) : rb.stored = q.items.length := by
  rw [← contents_length, h.contents]

theorem RingHolds.canRead (h : RingHolds size rb q) : rbCanRead rb = q.items.length :=
  (rbCanRead_eq h.ok).trans h.stored

theorem RingHolds.canWrite (h : RingHolds size rb q) : rbCanWrite rb = q.free := by
  rw [rbCanWrite_eq h.ok, h.bufsize, h.stored, free, Nat.add_sub_cancel]

theorem RingHolds.balance (h : RingHolds size rb q) : rbCanRead rb + rbCanWrite rb = size := by
  have hfits := q.fits
  rw [h.canRead, h.canWrite, free]
  omega

theorem RingHolds.write (h : RingHolds size rb q) (buffer : Bytes) :
    RingHolds size (rbWrite rb buffer).1 (q.after (.write buffer)) := by
  obtain ⟨hok, hcontents, hbufsize⟩ := rbWrite_spec h.ok buffer
  refine ⟨hok, hbufsize.trans h.bufsize, ?_⟩
  rw [hcontents, h.contents, h.canWrite]
  rfl

theorem RingHolds.read (h : RingHolds size rb q) (n : ℕ) :
    RingHolds size (rbRead rb n).1 (q.after (.read n)) := by
  obtain ⟨hok, -, hcontents, hbufsize⟩ := rbRead_spec h.ok n
  refine ⟨hok, hbufsize.trans h.bufsize, ?_⟩
  rw [hcontents, h.contents]
  rfl

theorem RingHolds.call (h : RingHolds size rb q) (c : QueueCall UInt8) :
    RingHolds size (rbCall rb c) (q.after c) := by
  cases c with
  | write buffer => exact h.write buffer
  | read n => exact h.read n

theorem RingHolds.during (h : RingHolds size rb q) (k : ℕ) (c : QueueCall UInt8) :
    ∃ q' : BoundedQueue UInt8 size, RingHolds size (rbDuring rb k c) q' := by
  cases c with
  | write buffer =>
    have hroom : min k (rbCanWrite rb) ≤ rb.bufsize - 1 - rb.stored := by
      rw [← rbCanWrite_eq h.ok]
      exact Nat.min_le_right _ _
    obtain ⟨hok, hcontents, hbufsize⟩ := rbWriteLoop_spec h.ok buffer hroom
    refine ⟨⟨q.items ++ buffer.take (min k (rbCanWrite rb)), ?_⟩, hok, hbufsize.trans h.bufsize, ?_⟩
    · have hfits := q.fits
      rw [List.length_append, List.length_take, h.canWrite, free]
      omega
    · rw [rbDuring, hcontents, h.contents]
  | read n =>
    have hstored : min k (min (rbCanRead rb) n) ≤ rb.stored := by
      rw [← rbCanRead_eq h.ok]
      omega
    obtain ⟨hok, -, hcontents, hbufsize⟩ := rbReadLoop_spec h.ok hstored
    refine ⟨⟨q.items.drop (min k (min (rbCanRead rb) n)), ?_⟩, hok, hbufsize.trans h.bufsize, ?_⟩
    · exact q.read_fits _
    · rw [rbDuring, hcontents, h.contents]

end

theorem rbNew_holds {size : ℕ} (h : size + 1 < 2^64) :
    RingHolds size (rbNew size) (empty : BoundedQueue UInt8 size) := by
  obtain ⟨hok, hcontents, hbufsize⟩ := rbNew_ok size h
  exact ⟨hok, hbufsize, hcontents⟩

theorem ring_implements (size : ℕ) : Implements (RingHolds size) rbCall rbStored rbDelivered where
  after _ _ c h := h.call c
  stored rb q c h := by
    cases c with
    | write buffer =>
      rw [rbStored, h.canWrite, Nat.min_comm, ← List.take_take, List.take_length]
      rfl
    | read n => rfl
  delivered rb q c h := by
    cases c with
    | write buffer => rfl
    | read n =>
      obtain ⟨-, hbytes, -⟩ := rbRead_spec h.ok n
      rw [rbDelivered, hbytes, h.contents]
      rfl

/-- After any calls the buffer is a queue that has lost, doubled or overtaken nothing. -/
theorem ringBuffer_queueLike {size : ℕ} (h : size + 1 < 2^64) (cs : List (QueueCall UInt8)) :
    QueueLike size cs (cs.foldl rbCall (rbNew size)) := by
  obtain ⟨hrun, hstored, hdelivered⟩ := (ring_implements size).run (rbNew_holds h) cs
  generalize cs.foldl rbCall (rbNew size) = rb at hrun ⊢
  refine ⟨fun k c => ?_, fun k c => ?_, fun buffer => ?_, fun n => ⟨?_, ?_⟩, ?_, ?_⟩
  · obtain ⟨q', hq'⟩ := hrun.during k c
    exact ⟨hq'.ok.wpos, hq'.ok.rpos⟩
  · obtain ⟨q', hq'⟩ := hrun.during k c
    exact hq'.balance
  · obtain ⟨-, hcontents, -⟩ := rbWrite_spec hrun.ok buffer
    rw [hcontents, Nat.min_comm, ← List.take_take, List.take_length]
  · obtain ⟨-, hbytes, -⟩ := rbRead_spec hrun.ok n
    rw [hbytes, List.length_take, contents_length, rbCanRead_eq hrun.ok]
  · obtain ⟨-, hbytes, hcontents, -⟩ := rbRead_spec hrun.ok n
    rw [hbytes, hcontents, List.take_append_drop]
  · have hqueue := run_items (empty : BoundedQueue UInt8 size) cs
    rw [hstored, hdelivered, hrun.contents]
    exact hqueue
  · rw [contents_length, rbCanRead_eq hrun.ok]

theorem ringBuffer_queueLike_two : 2 + 1 < 2^64 ∧
    QueueLike 2 [.write [1, 2, 3], .read 1, .write [4, 5]]
      ([.write [1, 2, 3], .read 1, .write [4, 5]].foldl rbCall (rbNew 2)) :=
  ⟨by decide, ringBuffer_queueLike (by decide) _⟩

example : outputs rbCall rbDelivered (rbNew 2)
    [.write [1, 2, 3], .read 1, .write [4, 5], .read 5] = [1, 2, 4] := by decide

end RN2223.Praxis2

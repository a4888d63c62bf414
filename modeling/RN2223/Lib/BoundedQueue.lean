import Mathlib.Data.List.Basic

/-!
# Queues of bounded length

A queue takes of the values it is offered as many as it has room for, and gives
them back in their order.
-/

namespace RN2223

inductive QueueCall (α : Type) where
  | write (xs : List α)
  | read (n : ℕ)

structure BoundedQueue (α : Type) (capacity : ℕ) where
  items : List α
  fits : items.length ≤ capacity

namespace BoundedQueue

variable {α S : Type} {capacity : ℕ}

def empty : BoundedQueue α capacity := ⟨[], Nat.zero_le _⟩

def free (q : BoundedQueue α capacity) : ℕ := capacity - q.items.length

def stored (q : BoundedQueue α capacity) : QueueCall α → List α
  | .write xs => xs.take q.free
  | .read _ => []

def delivered (q : BoundedQueue α capacity) : QueueCall α → List α
  | .write _ => []
  | .read n => q.items.take n

theorem write_fits (q : BoundedQueue α capacity) (xs : List α) :
    (q.items ++ xs.take q.free).length ≤ capacity := by
  have hfits := q.fits
  rw [List.length_append, List.length_take, free]
  omega

theorem read_fits (q : BoundedQueue α capacity) (n : ℕ) : (q.items.drop n).length ≤ capacity := by
  have hfits := q.fits
  rw [List.length_drop]
  omega

def after (q : BoundedQueue α capacity) : QueueCall α → BoundedQueue α capacity
  | .write xs => ⟨q.items ++ xs.take q.free, q.write_fits xs⟩
  | .read n => ⟨q.items.drop n, q.read_fits n⟩

theorem after_items (q : BoundedQueue α capacity) (c : QueueCall α) :
    q.items ++ q.stored c = q.delivered c ++ (q.after c).items := by
  cases c with
  | write xs => rfl
  | read n =>
    show q.items ++ [] = q.items.take n ++ q.items.drop n
    rw [List.append_nil, List.take_append_drop]

/-! ### Sequences of calls -/

def run (q : BoundedQueue α capacity) : List (QueueCall α) → BoundedQueue α capacity
  | [] => q
  | c :: cs => (q.after c).run cs

def allStored (q : BoundedQueue α capacity) : List (QueueCall α) → List α
  | [] => []
  | c :: cs => q.stored c ++ (q.after c).allStored cs

def allDelivered (q : BoundedQueue α capacity) : List (QueueCall α) → List α
  | [] => []
  | c :: cs => q.delivered c ++ (q.after c).allDelivered cs

/-- What goes in comes out, in the same order. -/
theorem run_items (q : BoundedQueue α capacity) (cs : List (QueueCall α)) :
    q.items ++ q.allStored cs = q.allDelivered cs ++ (q.run cs).items := by
  induction cs generalizing q with
  | nil => exact List.append_nil _
  | cons c cs ih =>
    rw [allStored, allDelivered, run, ← List.append_assoc, after_items, List.append_assoc, ih,
      List.append_assoc]

/-! ### Implementations -/

/-- The states of `call` stand for queues, and what a call stores and delivers is
what the queue stores and delivers. -/
structure Implements (R : S → BoundedQueue α capacity → Prop)
    (call : S → QueueCall α → S) (stores delivers : S → QueueCall α → List α) : Prop where
  after : ∀ s q c, R s q → R (call s c) (q.after c)
  stored : ∀ s q c, R s q → stores s c = q.stored c
  delivered : ∀ s q c, R s q → delivers s c = q.delivered c

def outputs (call : S → QueueCall α → S) (f : S → QueueCall α → List α) :
    S → List (QueueCall α) → List α
  | _, [] => []
  | s, c :: cs => f s c ++ outputs call f (call s c) cs

theorem Implements.run {R : S → BoundedQueue α capacity → Prop} {call : S → QueueCall α → S}
    {stores delivers : S → QueueCall α → List α} (h : Implements R call stores delivers) {s : S}
    {q : BoundedQueue α capacity} (hs : R s q) (cs : List (QueueCall α)) :
    R (cs.foldl call s) (q.run cs) ∧ outputs call stores s cs = q.allStored cs ∧
      outputs call delivers s cs = q.allDelivered cs := by
  induction cs generalizing s q with
  | nil => exact ⟨hs, rfl, rfl⟩
  | cons c cs ih =>
    obtain ⟨hrun, hstored, hdelivered⟩ := ih (h.after s q c hs)
    refine ⟨hrun, ?_, ?_⟩
    · rw [outputs, allStored, h.stored s q c hs, hstored]
    · rw [outputs, allDelivered, h.delivered s q c hs, hdelivered]

end BoundedQueue

end RN2223

import Mathlib.Data.List.Basic

/-!
# Bytes, C buffers and the faults of reading them

A C object is the list of its bytes; a pointer with a length is the object it
points into together with a count. Reads are checked: what C leaves undefined
is a `Fault`, never a value.
-/

namespace RN2223.CMemory

abbrev Bytes := List UInt8

inductive Fault where
  | outOfBounds
  | nullPointer
  | arraySize
  | stackOverflow
  deriving DecidableEq, Repr

@[simp] theorem ok_bind {α β : Type} (a : α) (f : α → Except Fault β) :
    (Except.ok a >>= f) = f a := rfl

theorem bind_eq_ok {α β : Type} {x : Except Fault α} {f : α → Except Fault β} {b : β} :
    (x >>= f) = .ok b ↔ ∃ a, x = .ok a ∧ f a = .ok b := by
  cases x with
  | ok a => simp
  | error e =>
    constructor
    · exact fun h => nomatch h
    · rintro ⟨a, h, -⟩
      cases h

def readByte (b : Bytes) (i : ℕ) : Except Fault UInt8 :=
  match b[i]? with
  | some x => .ok x
  | none => .error .outOfBounds

/-- The `n` bytes `memcpy` takes from the object `src`. -/
def memcpy (src : Bytes) (n : ℕ) : Except Fault Bytes :=
  if n ≤ src.length then .ok (src.take n) else .error .outOfBounds

@[simp] theorem readByte_cons_zero (x : UInt8) (b : Bytes) : readByte (x :: b) 0 = .ok x := rfl

theorem memcpy_append (src rest : Bytes) : memcpy (src ++ rest) src.length = .ok src := by
  simp [memcpy]

theorem memcpy_length (src : Bytes) : memcpy src src.length = .ok src := by
  simp [memcpy]

theorem memcpy_exact {src : Bytes} {n : ℕ} (h : src.length = n) : memcpy src n = .ok src := by
  rw [← h, memcpy_length]

theorem memcpy_ok {src dst : Bytes} {n : ℕ} (h : memcpy src n = .ok dst) :
    dst = src.take n ∧ dst.length = n := by
  by_cases hn : n ≤ src.length
  · simp only [memcpy, if_pos hn] at h
    cases h
    exact ⟨rfl, List.length_take_of_le hn⟩
  · simp [memcpy, if_neg hn] at h

/-! ### Arrays on the stack -/

/-- An array of `n` bytes where the stack has `left` bytes for it. -/
def stackArray (left n : ℕ) : Except Fault ℕ :=
  if n ≤ left then .ok n else .error .stackOverflow

theorem stackArray_fits {left n : ℕ} (h : n ≤ left) : stackArray left n = .ok n := if_pos h

theorem stackArray_overflows {left n : ℕ} (h : left < n) :
    stackArray left n = .error .stackOverflow := if_neg (Nat.not_le.mpr h)

theorem stackArray_eq_ok {left n m : ℕ} : stackArray left n = .ok m ↔ n ≤ left ∧ m = n := by
  by_cases h : n ≤ left
  · rw [stackArray_fits h, Except.ok.injEq]
    exact ⟨fun e => ⟨h, e.symm⟩, fun e => e.2.symm⟩
  · rw [stackArray_overflows (Nat.lt_of_not_le h)]
    exact ⟨fun e => (nomatch e), fun e => absurd e.1 h⟩

/-! ### Copying strings -/

/-- `strncpy`: bytes are copied up to the first NUL, the rest of the `n` bytes
is filled with zeros. -/
def strncpy : Bytes → ℕ → Except Fault Bytes
  | _, 0 => .ok []
  | [], _ + 1 => .error .outOfBounds
  | b :: bs, n + 1 =>
    if b = 0 then .ok (List.replicate (n + 1) 0) else (strncpy bs n).map fun r => b :: r

/-- Bytes in which nothing but zeros follows a zero byte: `strncpy` copies
exactly these faithfully. -/
def ZeroTailed (b : Bytes) : Prop := b.Pairwise fun x y => x = 0 → y = 0

instance (b : Bytes) : Decidable (ZeroTailed b) :=
  inferInstanceAs (Decidable (b.Pairwise fun x y => x = 0 → y = 0))

def zeroFrom : Bytes → Bytes
  | [] => []
  | b :: bs => if b = 0 then List.replicate (bs.length + 1) 0 else b :: zeroFrom bs

theorem zeroFrom_length (b : Bytes) : (zeroFrom b).length = b.length := by
  induction b with
  | nil => rfl
  | cons x bs ih =>
    by_cases hx : x = 0
    · simp [zeroFrom, hx]
    · simp [zeroFrom, hx, ih]

theorem strncpy_length (src : Bytes) : strncpy src src.length = .ok (zeroFrom src) := by
  induction src with
  | nil => rfl
  | cons b bs ih =>
    by_cases hb : b = 0
    · simp [strncpy, zeroFrom, hb]
    · simp only [List.length_cons, strncpy, zeroFrom, if_neg hb, ih]
      rfl

theorem zeroFrom_eq_self_iff (b : Bytes) : zeroFrom b = b ↔ ZeroTailed b := by
  induction b with
  | nil => simp [zeroFrom, ZeroTailed]
  | cons x bs ih =>
    by_cases hx : x = 0
    · have hz : zeroFrom (x :: bs) = 0 :: List.replicate bs.length 0 := by
        simp [zeroFrom, hx, List.replicate_succ]
      have hall : List.replicate bs.length 0 = bs ↔ ∀ y ∈ bs, y = 0 := by
        rw [eq_comm, List.eq_replicate_iff]
        simp
      rw [hz, hx, ZeroTailed, List.pairwise_cons, List.cons.injEq]
      constructor
      · rintro ⟨-, h⟩
        have hy := hall.mp h
        refine ⟨fun y hm _ => hy y hm, ?_⟩
        rw [← h]
        exact List.pairwise_replicate.mpr (Or.inr fun _ => rfl)
      · rintro ⟨h, -⟩
        exact ⟨rfl, hall.mpr fun y hm => h y hm rfl⟩
    · have hz : zeroFrom (x :: bs) = x :: zeroFrom bs := by simp [zeroFrom, hx]
      rw [hz, ZeroTailed, List.pairwise_cons, List.cons.injEq]
      simp only [true_and, ih, ZeroTailed]
      exact ⟨fun h => ⟨fun y _ h0 => absurd h0 hx, h⟩, fun h => h.2⟩

example : strncpy [97, 0, 98] 3 = .ok [97, 0, 0] := by decide

end RN2223.CMemory

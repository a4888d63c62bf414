import Mathlib.Algebra.Order.Ring.Int
import Mathlib.Data.List.TakeWhile

/-!
# Numbers in C strings

`strtol` and `strtoul` for base 10 and a `long` of 64 bits: white space, a sign that may
be missing and the longest run of digits. What comes behind is not read, and a run of no
digits is 0. With the value comes whether the call sets `errno` to `ERANGE`.
-/

namespace RN2223.CNumber

/-- `isspace` in the C locale: a blank, or one of the characters 9 to 13. -/
def isSpace (c : Char) : Bool := c.toNat == 32 || (9 ≤ c.toNat && c.toNat ≤ 13)

/-- Whether the sign is a minus, and what is behind it. -/
def takeSign : List Char → Bool × List Char
  | '-' :: cs => (true, cs)
  | '+' :: cs => (false, cs)
  | cs => (false, cs)

/-- Whether the number is negated, and its digits. -/
def subject (s : String) : Bool × ℕ :=
  let r := takeSign (s.toList.dropWhile isSpace)
  (r.1, Nat.ofDigitChars 10 (r.2.takeWhile Char.isDigit) 0)

def strtol (s : String) : Int × Bool :=
  match subject s with
  | (true, n) => if n ≤ 2^63 then (-n, false) else (-2^63, true)
  | (false, n) => if n < 2^63 then (n, false) else (2^63 - 1, true)

/-- A minus negates in `unsigned long`. -/
def strtoul (s : String) : ℕ × Bool :=
  match subject s with
  | (negative, n) =>
    if n < 2^64 then (if negative then (2^64 - n) % 2^64 else n, false) else (2^64 - 1, true)

/-! ### Numbers as `%d` prints them -/

theorem isSpace_of_isDigit {c : Char} (h : c.isDigit = true) : isSpace c = false := by
  obtain ⟨hlow, hhigh⟩ : 48 ≤ c.toNat ∧ c.toNat ≤ 57 := Char.isDigit_iff_toNat.mp h
  simp only [isSpace, Bool.or_eq_false_iff, beq_eq_false_iff_ne, Bool.and_eq_false_iff,
    decide_eq_false_iff_not]
  omega

theorem takeSign_of_isDigit {c : Char} (h : c.isDigit = true) (cs : List Char) :
    takeSign (c :: cs) = (false, c :: cs) := by
  unfold takeSign
  split
  · next he =>
    obtain ⟨rfl, -⟩ := List.cons.inj he
    cases h
  · next he =>
    obtain ⟨rfl, -⟩ := List.cons.inj he
    cases h
  · rfl

theorem subject_repr (n : ℕ) : subject n.repr = (false, n) := by
  have hdigit : ∀ c ∈ Nat.toDigits 10 n, c.isDigit = true := fun c hc =>
    Nat.isDigit_of_mem_toDigits (by decide) (by decide) hc
  have hall : (Nat.toDigits 10 n).takeWhile Char.isDigit = Nat.toDigits 10 n :=
    List.takeWhile_eq_self_iff.mpr hdigit
  cases hd : Nat.toDigits 10 n with
  | nil => exact absurd hd Nat.toDigits_ne_nil
  | cons c cs =>
    have hc : c.isDigit = true := hdigit c (hd ▸ List.mem_cons_self)
    have hspace : (c :: cs).dropWhile isSpace = c :: cs :=
      List.dropWhile_cons_of_neg (by rw [isSpace_of_isDigit hc]; decide)
    rw [subject, Nat.toList_repr, hd, hspace, takeSign_of_isDigit hc, ← hd]
    simp only [hall, Nat.ofDigitChars_ten_toDigits]

theorem strtol_repr {n : ℕ} (h : n < 2^63) : strtol n.repr = ((n : Int), false) := by
  simp only [strtol, subject_repr, if_pos h]

theorem strtoul_repr {n : ℕ} (h : n < 2^64) : strtoul n.repr = (n, false) := by
  simp only [strtoul, subject_repr, if_pos h, Bool.false_eq_true, if_false]

example : strtol " -17x" = (-17, false) ∧ strtoul "-1" = (2^64 - 1, false) ∧
    strtol "9223372036854775808" = (2^63 - 1, true) := by decide

end RN2223.CNumber

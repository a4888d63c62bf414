import Mathlib.Data.List.Nodup
import Mathlib.Logic.Function.Basic

/-!
# Singly linked lists

A store of links gives every node a successor, which may be absent. `Linked` says that
the nodes of a list follow one another from a pointer on, and that the last one has no
successor.
-/

namespace RN2223

variable {ι : Type*}

def Linked (next : ι → Option ι) : Option ι → List ι → Prop
  | p, [] => p = none
  | p, x :: xs => p = some x ∧ Linked next (next x) xs

namespace Linked
variable {next next' : ι → Option ι} {p : Option ι} {x y : ι} {xs : List ι}

theorem head_eq (h : Linked next p xs) : p = xs.head? := by
  cases xs with
  | nil => exact h
  | cons x xs => exact h.1

/-- Writes to other nodes leave a list alone. -/
theorem frame (h : Linked next p xs) (heq : ∀ a ∈ xs, next' a = next a) : Linked next' p xs := by
  induction xs generalizing p with
  | nil => exact h
  | cons x xs ih =>
    refine ⟨h.1, ?_⟩
    rw [heq x List.mem_cons_self]
    exact ih h.2 fun a ha => heq a (List.mem_cons_of_mem x ha)

theorem single [DecidableEq ι] (next : ι → Option ι) (x : ι) :
    Linked (Function.update next x none) (some x) [x] :=
  ⟨rfl, Function.update_self ..⟩

/-- A node behind the last one. -/
theorem append [DecidableEq ι] (h : Linked next p (xs ++ [x])) (hnd : (xs ++ [x]).Nodup)
    (hy : y ∉ xs ++ [x]) : Linked (Function.update (Function.update next x (some y)) y none) p
      (xs ++ [x] ++ [y]) := by
  induction xs generalizing p with
  | nil =>
    have hxy : x ≠ y := fun he => hy (he ▸ List.mem_singleton_self x)
    refine ⟨h.1, ?_, Function.update_self ..⟩
    rw [Function.update_of_ne hxy, Function.update_self]
  | cons a xs ih =>
    obtain ⟨ha, hnd⟩ := List.nodup_cons.mp hnd
    have hax : a ≠ x := fun he => ha (by simp [he])
    have hay : a ≠ y := fun he => hy (he ▸ List.mem_cons_self)
    refine ⟨h.1, ?_⟩
    rw [Function.update_of_ne hay, Function.update_of_ne hax]
    exact ih h.2 hnd fun hm => hy (List.mem_cons_of_mem a hm)

end Linked

end RN2223

import Mathlib.Data.Fintype.Card
import Mathlib.Logic.Relation

/-!
# Waiting for one another

Processes that wait for others, as a relation. When one process changes whom it
waits for, a cycle can only come from the new edge, that is when the process at
its other end already led back.
-/

namespace RN2223

open Relation

variable {α : Type}

def Acyclic (r : α → α → Prop) : Prop := ∀ a, ¬ TransGen r a a

/-- Among finitely many that do not wait in a cycle, whatever holds of one when it
holds of all it waits for holds of everyone. -/
theorem Acyclic.induction [Finite α] {r : α → α → Prop} (h : Acyclic r) {P : α → Prop}
    (hP : ∀ a, (∀ b, r a b → P b) → P a) (a : α) : P a := by
  have hirrefl : Std.Irrefl (Function.swap (TransGen r)) := ⟨h⟩
  have htrans : IsTrans α (Function.swap (TransGen r)) := ⟨fun _ _ _ hab hbc => hbc.trans hab⟩
  have hwf : WellFounded (Function.swap (TransGen r)) := Finite.wellFounded_of_trans_of_irrefl _
  induction a using hwf.induction with
  | h a ih => exact hP a fun b hab => ih b (.single hab)

section
variable {r r' : α → α → Prop} {i : α}

/-- Up to its first arrival at `i` a path needs no edge of `i`. -/
theorem path_to_of_changes_at (hsub : ∀ a b, a ≠ i → r' a b → r a b) {a : α}
    (h : ReflTransGen r' a i) : ReflTransGen r a i := by
  induction h using ReflTransGen.head_induction_on with
  | refl => exact .refl
  | @head a c hac _ ih =>
    by_cases ha : a = i
    · rw [ha]
    · exact .head (hsub a c ha hac) ih

theorem path_cases_of_changes_at (hsub : ∀ a b, a ≠ i → r' a b → r a b) {a c : α}
    (h : TransGen r' a c) :
    TransGen r a c ∨ ∃ b, ReflTransGen r' a i ∧ r' i b ∧ ReflTransGen r' b c := by
  induction h with
  | @single b hab =>
    by_cases ha : a = i
    · exact Or.inr ⟨b, ha ▸ .refl, ha ▸ hab, .refl⟩
    · exact Or.inl (.single (hsub a b ha hab))
  | @tail b c hpath hbc ih =>
    rcases ih with hold | ⟨d, hi, hd, hdb⟩
    · by_cases hb : b = i
      · exact Or.inr ⟨c, hb ▸ hpath.to_reflTransGen, hb ▸ hbc, .refl⟩
      · exact Or.inl (.tail hold (hsub b c hb hbc))
    · exact Or.inr ⟨d, hi, hd, .tail hdb hbc⟩

/-- After a change of what `i` waits for there is no cycle if and only if nothing
`i` now waits for led to `i` before. The other edges may go away, but not in
a change that leaves `i` waiting. -/
theorem acyclic_iff_of_changes_at (hr : Acyclic r) (hsub : ∀ a b, a ≠ i → r' a b → r a b)
    (hback : ∀ c, r' i c → ∀ a b, a ≠ i → r a b → r' a b) :
    Acyclic r' ↔ ∀ b, r' i b → ¬ ReflTransGen r b i := by
  constructor
  · intro hr' b hb hpath
    exact hr' i (.head' hb (path_to_of_changes_at (hback b hb) hpath))
  · intro hnew a hcycle
    rcases path_cases_of_changes_at hsub hcycle with hold | ⟨b, hai, hb, hba⟩
    · exact hr a hold
    · exact hnew b hb (path_to_of_changes_at hsub (hba.trans hai))

end

/-- Edges to those that wait themselves stay, so a cycle stays. -/
theorem cycle_of_stays {r r' : α → α → Prop} {i : α} (h : TransGen r i i)
    (hstays : ∀ a b, r a b → (∃ d, r b d) → r' a b) : TransGen r' i i := by
  obtain ⟨c, hic, -⟩ := TransGen.head'_iff.mp h
  have hpath : ∀ a, TransGen r a i → TransGen r' a i := by
    intro a ha
    induction ha using TransGen.head_induction_on with
    | single hai => exact .single (hstays _ _ hai ⟨c, hic⟩)
    | head hab hbi ih =>
      obtain ⟨d, hbd, -⟩ := TransGen.head'_iff.mp hbi
      exact .head (hstays _ _ hab ⟨d, hbd⟩) ih
  exact hpath i h

end RN2223

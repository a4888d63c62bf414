import Mathlib.Algebra.BigOperators.Finprod
import Mathlib.Order.WellFounded

/-!
# Work that runs out

Pieces of work under numbers, only finitely many at a time, and what they come to
together. A process each of whose steps takes something away from such a sum, or from
any other well-founded measure, ends whatever the order of its steps.
-/

namespace RN2223

variable {α σ : Type}

/-! ### Sums over what is there -/

theorem sum_update {κ β : Type} [DecidableEq κ] {S : Finset κ} {i : κ} (hi : i ∈ S) (g : β → ℕ)
    (f : κ → β) (v : β) :
    ∑ j ∈ S, g (Function.update f i v j) + g (f i) = ∑ j ∈ S, g (f j) + g v := by
  have hrest : ∀ j ∈ S.erase i, g (Function.update f i v j) = g (f j) := by
    intro j hj
    rw [Function.update_of_ne (Finset.ne_of_mem_erase hj)]
  have hnew := Finset.add_sum_erase S (fun j => g (Function.update f i v j)) hi
  have hold := Finset.add_sum_erase S (fun j => g (f j)) hi
  rw [Finset.sum_congr rfl hrest, Function.update_self] at hnew
  omega

section
variable {load : α → ℕ} {f : ℕ → Option α}

noncomputable def totalLoad (load : α → ℕ) (f : ℕ → Option α) : ℕ := ∑ᶠ c, (f c).elim 0 load

theorem totalLoad_eq (hf : {c | f c ≠ none}.Finite) {S : Finset ℕ} (hS : hf.toFinset ⊆ S) :
    totalLoad load f = ∑ c ∈ S, (f c).elim 0 load := by
  refine finsum_eq_sum_of_support_subset _ fun c hc => hS ?_
  rw [Set.Finite.mem_toFinset]
  intro hn
  exact hc (congrArg (fun v => v.elim 0 load) hn)

/-- One piece is exchanged for another. -/
theorem totalLoad_update (load : α → ℕ) (hf : {c | f c ≠ none}.Finite) (c : ℕ) (v : Option α) :
    totalLoad load (Function.update f c v) + (f c).elim 0 load =
      totalLoad load f + v.elim 0 load := by
  have hsub : {d | Function.update f c v d ≠ none} ⊆ insert c {d | f d ≠ none} := by
    intro d hd
    by_cases hdc : d = c
    · exact Or.inl hdc
    · exact Or.inr fun hn => hd ((Function.update_of_ne hdc ..).trans hn)
  have hf' := (hf.insert c).subset hsub
  have hsub' : hf'.toFinset ⊆ insert c hf.toFinset := by
    intro d hd
    rw [Finset.mem_insert, Set.Finite.mem_toFinset]
    exact hsub ((Set.Finite.mem_toFinset hf').mp hd)
  rw [totalLoad_eq hf' hsub', totalLoad_eq hf (Finset.subset_insert ..)]
  exact sum_update (Finset.mem_insert_self ..) (fun v => v.elim 0 load) f v

end

/-! ### Runs that end -/

section
variable {β : Type} [Preorder β] [WellFoundedLT β] {step : σ → σ → Prop} {x : σ}

/-- `P x m` says that there is work `m` left in the state `x`. -/
theorem acc_of_less {P : σ → β → Prop}
    (hP : ∀ x m y, P x m → step x y → ∃ m', P y m' ∧ m' < m) {m : β} (hx : P x m) :
    Acc (fun y x => step x y) x := by
  induction m using WellFoundedLT.induction generalizing x with
  | ind m ih =>
    refine ⟨x, fun y hs => ?_⟩
    obtain ⟨m', hy, hlt⟩ := hP x m y hx hs
    exact ih m' hlt hy

theorem exists_end (h : Acc (fun y x => step x y) x) :
    ∃ y, Relation.ReflTransGen step x y ∧ ∀ z, ¬ step y z := by
  induction h with
  | intro x _ ih =>
    by_cases hmore : ∃ y, step x y
    · obtain ⟨y, hs⟩ := hmore
      obtain ⟨z, hrun, hend⟩ := ih y hs
      exact ⟨z, .head hs hrun, hend⟩
    · exact ⟨x, .refl, fun z hz => hmore ⟨z, hz⟩⟩

theorem no_infinite_run (h : Acc (fun y x => step x y) x) {f : ℕ → σ} (hf : f 0 = x) :
    ∃ n, ¬ step (f n) (f (n + 1)) := by
  by_contra hall
  rw [not_exists_not] at hall
  exact not_acc_iff_exists_descending_chain.mpr ⟨f, hf, hall⟩ h

end

end RN2223

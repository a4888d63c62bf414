import Mathlib.Data.Fintype.Card
import Mathlib.Data.Finset.Max
import Mathlib.Order.Basic

/-!
# Points on a circle

Finitely many points `ι` sit on a linearly ordered line `α` that is closed to a
circle. Every point has a neighbour below it (the lowest point has the highest
one), every position has a first point at or above it (the lowest point when
there is none), and the arcs between neighbours cut the circle into pieces.
-/

namespace RN2223.CyclicOrder

variable {ι α : Type} [LinearOrder α] {f : ι → α}

/-- `p` is the next point below `i`, going round. -/
def IsPred (f : ι → α) (p i : ι) : Prop :=
  (f p < f i ∧ ∀ j, f j < f i → f j ≤ f p) ∨ ((∀ j, f i ≤ f j) ∧ ∀ j, f j ≤ f p)

/-- `i` is the first point at or above `h`, going round. -/
def IsSuccessor (f : ι → α) (h : α) (i : ι) : Prop :=
  (h ≤ f i ∧ ∀ j, h ≤ f j → f i ≤ f j) ∨ ((∀ j, f j < h) ∧ ∀ j, f i ≤ f j)

/-- The half-open arc of the circle from `a` (excluded) up to `b`. -/
def InArc (a b h : α) : Prop :=
  if a < b then a < h ∧ h ≤ b else a < h ∨ h ≤ b

theorem isSuccessor_unique (hf : Function.Injective f) {h : α} {i j : ι}
    (hi : IsSuccessor f h i) (hj : IsSuccessor f h j) : i = j := by
  apply hf
  rcases hi with ⟨hi, hmin⟩ | ⟨hall, hmin⟩
  · rcases hj with ⟨hj, hmin'⟩ | ⟨hall', -⟩
    · exact le_antisymm (hmin j hj) (hmin' i hi)
    · exact absurd hi (not_le_of_gt (hall' i))
  · rcases hj with ⟨hj, -⟩ | ⟨-, hmin'⟩
    · exact absurd hj (not_le_of_gt (hall j))
    · exact le_antisymm (hmin j) (hmin' i)

theorem isPred_unique (hf : Function.Injective f) {p q i : ι} (hp : IsPred f p i)
    (hq : IsPred f q i) : p = q := by
  apply hf
  rcases hp with ⟨hp, hmax⟩ | ⟨hmin, hmax⟩
  · rcases hq with ⟨hq, hmax'⟩ | ⟨hmin', -⟩
    · exact le_antisymm (hmax' p hp) (hmax q hq)
    · exact absurd hp (not_lt_of_ge (hmin' p))
  · rcases hq with ⟨hq, -⟩ | ⟨-, hmax'⟩
    · exact absurd hq (not_lt_of_ge (hmin q))
    · exact le_antisymm (hmax' p) (hmax q)

theorem exists_isSuccessor [Fintype ι] [Nonempty ι] (f : ι → α) (h : α) :
    ∃ i, IsSuccessor f h i := by
  classical
  by_cases hex : ∃ j, h ≤ f j
  · obtain ⟨j, hj⟩ := hex
    have hne : (Finset.univ.filter fun j => h ≤ f j).Nonempty :=
      ⟨j, Finset.mem_filter.mpr ⟨Finset.mem_univ j, hj⟩⟩
    obtain ⟨i, hi, hmin⟩ := Finset.exists_min_image _ f hne
    refine ⟨i, Or.inl ⟨(Finset.mem_filter.mp hi).2, fun k hk => ?_⟩⟩
    exact hmin k (Finset.mem_filter.mpr ⟨Finset.mem_univ k, hk⟩)
  · obtain ⟨i, -, hmin⟩ := Finset.exists_min_image Finset.univ f Finset.univ_nonempty
    exact ⟨i, Or.inr ⟨fun j => lt_of_not_ge fun hj => hex ⟨j, hj⟩,
      fun j => hmin j (Finset.mem_univ j)⟩⟩

/-- The arc below a point is the set of positions it is the successor of. -/
theorem inArc_iff_isSuccessor (hf : Function.Injective f) {p i : ι} (hpi : p ≠ i)
    (hp : IsPred f p i) (h : α) : InArc (f p) (f i) h ↔ IsSuccessor f h i := by
  rcases hp with ⟨hlt, hgap⟩ | ⟨hmin, hmax⟩
  · rw [InArc, if_pos hlt]
    constructor
    · rintro ⟨hph, hhi⟩
      refine Or.inl ⟨hhi, fun j hj => ?_⟩
      by_contra hji
      exact absurd (hgap j (lt_of_not_ge hji)) (not_le_of_gt (lt_of_lt_of_le hph hj))
    · rintro (⟨hhi, hmin⟩ | ⟨-, hmin⟩)
      · refine ⟨lt_of_not_ge fun hph => ?_, hhi⟩
        exact absurd (hmin p hph) (not_le_of_gt hlt)
      · exact absurd (hmin p) (not_le_of_gt hlt)
  · have hlt : f i < f p := lt_of_le_of_ne (hmin p) fun he => hpi (hf he).symm
    rw [InArc, if_neg (not_lt_of_gt hlt)]
    constructor
    · rintro (hph | hhi)
      · exact Or.inr ⟨fun j => lt_of_le_of_lt (hmax j) hph, hmin⟩
      · exact Or.inl ⟨hhi, fun j _ => hmin j⟩
    · rintro (⟨hhi, -⟩ | ⟨hall, -⟩)
      · exact Or.inr hhi
      · exact Or.inl (hall p)

/-! ### Counting steps round the circle -/

section Steps
variable [Fintype ι]

def rank (f : ι → α) (i : ι) : ℕ := (Finset.univ.filter fun j => f j < f i).card

theorem rank_lt (f : ι → α) (i : ι) : rank f i < Fintype.card ι := by
  apply Finset.card_lt_card
  refine Finset.filter_ssubset.mpr ⟨i, Finset.mem_univ i, lt_irrefl _⟩

theorem rank_injective (hf : Function.Injective f) : Function.Injective (rank f) := by
  have hmono : ∀ i j, f i < f j → rank f i < rank f j := by
    intro i j hij
    apply Finset.card_lt_card
    refine ⟨fun k hk => ?_, fun hsub => ?_⟩
    · simp only [Finset.mem_filter, Finset.mem_univ, true_and] at hk ⊢
      exact hk.trans hij
    · have hi := hsub (Finset.mem_filter.mpr ⟨Finset.mem_univ i, hij⟩)
      exact absurd (Finset.mem_filter.mp hi).2 (lt_irrefl _)
  intro i j he
  apply hf
  by_contra hne
  rcases lt_or_gt_of_ne hne with hij | hji
  · exact absurd he (hmono i j hij).ne
  · exact absurd he (hmono j i hji).ne'

theorem rank_pred (hf : Function.Injective f) {p i : ι} (hp : IsPred f p i) :
    rank f i = rank f p + 1 ∨ (rank f i = 0 ∧ rank f p + 1 = Fintype.card ι) := by
  classical
  rcases hp with ⟨hlt, hgap⟩ | ⟨hmin, hmax⟩
  · left
    have hset : (Finset.univ.filter fun j => f j < f i) =
        insert p (Finset.univ.filter fun j => f j < f p) := by
      ext j
      simp only [Finset.mem_filter, Finset.mem_univ, true_and, Finset.mem_insert]
      constructor
      · intro hj
        rcases (hgap j hj).lt_or_eq with h | h
        · exact Or.inr h
        · exact Or.inl (hf h)
      · rintro (rfl | hj)
        · exact hlt
        · exact hj.trans hlt
    rw [rank, hset, Finset.card_insert_of_notMem (by simp)]
    rfl
  · right
    constructor
    · rw [rank, Finset.card_eq_zero, Finset.filter_eq_empty_iff]
      exact fun j _ => not_lt_of_ge (hmin j)
    · have hset : Finset.univ = insert p (Finset.univ.filter fun j => f j < f p) := by
        ext j
        simp only [Finset.mem_filter, Finset.mem_univ, true_and, Finset.mem_insert, true_iff]
        rcases (hmax j).lt_or_eq with h | h
        · exact Or.inr h
        · exact Or.inl (hf h)
      rw [← Finset.card_univ, hset, Finset.card_insert_of_notMem (by simp)]
      rfl

def stepsTo (f : ι → α) (target i : ι) : ℕ :=
  (rank f target + Fintype.card ι - rank f i) % Fintype.card ι

theorem stepsTo_lt (f : ι → α) (target i : ι) : stepsTo f target i < Fintype.card ι :=
  Nat.mod_lt _ (Nat.lt_of_le_of_lt (Nat.zero_le _) (rank_lt f i))

theorem stepsTo_eq_zero (hf : Function.Injective f) {target i : ι}
    (h : stepsTo f target i = 0) : i = target := by
  have ht := rank_lt f target
  have hi := rank_lt f i
  apply rank_injective hf
  unfold stepsTo at h
  by_cases hle : rank f i ≤ rank f target
  · have he : rank f target + Fintype.card ι - rank f i =
        (rank f target - rank f i) + Fintype.card ι := by omega
    rw [he, Nat.add_mod_right, Nat.mod_eq_of_lt (by omega)] at h
    omega
  · rw [Nat.mod_eq_of_lt (by omega)] at h
    omega

theorem stepsTo_step (hf : Function.Injective f) {target i s : ι} (hs : IsPred f i s)
    (hne : i ≠ target) : stepsTo f target s + 1 = stepsTo f target i := by
  have ht := rank_lt f target
  have hi := rank_lt f i
  have hr : rank f i ≠ rank f target := fun he => hne (rank_injective hf he)
  have hmod : ∀ a n : ℕ, a < n → (a + n) % n = a := fun a n h => by
    rw [Nat.add_mod_right, Nat.mod_eq_of_lt h]
  unfold stepsTo
  rcases rank_pred hf hs with hsr | ⟨hsr, hir⟩
  · rw [hsr]
    by_cases hle : rank f i < rank f target
    · have e1 : rank f target + Fintype.card ι - (rank f i + 1) =
          (rank f target - (rank f i + 1)) + Fintype.card ι := by omega
      have e2 : rank f target + Fintype.card ι - rank f i =
          (rank f target - rank f i) + Fintype.card ι := by omega
      rw [e1, e2, hmod _ _ (by omega), hmod _ _ (by omega)]
      omega
    · rw [Nat.mod_eq_of_lt (by omega), Nat.mod_eq_of_lt (by omega)]
      omega
  · rw [hsr, Nat.sub_zero, hmod _ _ ht, Nat.mod_eq_of_lt (by omega)]
    omega

end Steps

end RN2223.CyclicOrder

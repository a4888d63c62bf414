import Mathlib.Algebra.BigOperators.Group.Finset.Basic
import Mathlib.Data.List.Perm.Basic
import RN2223.Lib.DoublyLinked

/-!
# Hash tables with chaining

The elements of a bucket form a doubly linked chain, all buckets in one store of
links. `Chains` says which elements hang in which bucket; an element hangs in
the bucket its index names and in no other.
-/

namespace RN2223

variable {ι : Type*}

structure Chains (l : ListLinks ι) (head : ℕ → Option ι) (idx : ι → ℕ) (f : ℕ → List ι) : Prop where
  head_eq : ∀ i, head i = (f i).head?
  chain : ∀ i, l.Chain (f i)
  nodup : ∀ i, (f i).Nodup
  placed : ∀ i, ∀ a ∈ f i, idx a = i

namespace Chains

variable {l l' : ListLinks ι} {head : ℕ → Option ι} {idx : ι → ℕ} {f : ℕ → List ι}

theorem mem_own (h : Chains l head idx f) {i : ℕ} {a : ι} (ha : a ∈ f i) : a ∈ f (idx a) := by
  rwa [h.placed i a ha]

theorem empty (l : ListLinks ι) (idx : ι → ℕ) : Chains l (fun _ => none) idx fun _ => [] where
  head_eq _ := rfl
  chain _ := trivial
  nodup _ := List.nodup_nil
  placed _ _ ha := absurd ha List.not_mem_nil

/-- A bucket replaced: its chain is new, and nothing in the other buckets is touched. -/
theorem update (h : Chains l head idx f) (i : ℕ) {xs : List ι} (hchain : l'.Chain xs)
    (hnodup : xs.Nodup) (hplaced : ∀ a ∈ xs, idx a = i)
    (hframe : ∀ a, a ∉ xs → a ∉ f i → l'.next a = l.next a ∧ l'.prev a = l.prev a) :
    Chains l' (Function.update head i xs.head?) idx (Function.update f i xs) := by
  have hother : ∀ j, j ≠ i → ∀ a ∈ f j, l'.next a = l.next a ∧ l'.prev a = l.prev a := by
    intro j hj a ha
    have hidx := h.placed j a ha
    exact hframe a (fun hm => hj (hidx.symm.trans (hplaced a hm)))
      fun hm => hj (hidx.symm.trans (h.placed i a hm))
  constructor <;> intro j <;> by_cases hj : j = i
  · rw [hj, Function.update_self, Function.update_self]
  · rw [Function.update_of_ne hj, Function.update_of_ne hj, h.head_eq]
  · rw [hj, Function.update_self]
    exact hchain
  · rw [Function.update_of_ne hj]
    exact (h.chain j).frame (fun a ha => (hother j hj a ha).1) fun a ha => (hother j hj a ha).2
  · rw [hj, Function.update_self]
    exact hnodup
  · rw [Function.update_of_ne hj]
    exact h.nodup j
  · rw [hj, Function.update_self]
    exact hplaced
  · rw [Function.update_of_ne hj]
    exact h.placed j

theorem mem_push {x a : ι} :
    a ∈ Function.update f (idx x) (x :: f (idx x)) (idx a) ↔ a = x ∨ a ∈ f (idx a) := by
  by_cases ha : idx a = idx x
  · rw [ha, Function.update_self, List.mem_cons]
  · rw [Function.update_of_ne ha]
    exact ⟨Or.inr, fun h => h.resolve_left fun he => ha (congrArg idx he)⟩

theorem length_flatMap_range (f : ℕ → List ι) (m : ℕ) :
    ((List.range m).flatMap f).length = ∑ i ∈ Finset.range m, (f i).length := by
  induction m with
  | zero => rfl
  | succ m ih =>
    rw [List.range_succ, List.flatMap_append, List.length_append, ih, Finset.sum_range_succ,
      List.flatMap_singleton]

/-- The buckets are as long together as the list of all elements. -/
theorem sum_length (h : Chains l head idx f) {xs : List ι} (hnd : xs.Nodup)
    (hmem : ∀ a, a ∈ f (idx a) ↔ a ∈ xs) {m : ℕ} (hm : ∀ a ∈ xs, idx a < m) :
    ∑ i ∈ Finset.range m, (f i).length = xs.length := by
  have hflat : ((List.range m).flatMap f).Nodup := by
    rw [List.nodup_flatMap]
    refine ⟨fun i _ => h.nodup i, List.nodup_range.imp fun hne a ha hb => hne ?_⟩
    rw [← h.placed _ a ha, h.placed _ a hb]
  rw [← length_flatMap_range]
  refine ((List.perm_ext_iff_of_nodup hflat hnd).mpr fun a => ?_).length_eq
  rw [List.mem_flatMap]
  constructor
  · rintro ⟨i, -, ha⟩
    exact (hmem a).mp (h.mem_own ha)
  · exact fun ha => ⟨idx a, List.mem_range.mpr (hm a ha), (hmem a).mpr ha⟩

variable [DecidableEq ι]

/-- A new element goes to the front of its bucket. -/
theorem push (h : Chains l head idx f) {x : ι} (hx : x ∉ f (idx x)) :
    Chains (l.pushFront (head (idx x)) x) (Function.update head (idx x) (some x)) idx
      (Function.update f (idx x) (x :: f (idx x))) := by
  have hnd : (x :: f (idx x)).Nodup := List.nodup_cons.mpr ⟨hx, h.nodup _⟩
  refine h.update (idx x) ?_ hnd ?_ ?_
  · rw [h.head_eq]
    exact ListLinks.pushFront_chain (h.chain _) hnd
  · intro a ha
    rcases List.mem_cons.mp ha with rfl | ha
    · rfl
    · exact h.placed _ a ha
  · intro a ha haf
    refine ListLinks.pushFront_frame l (fun he => ha (he ▸ List.mem_cons_self)) fun he => ?_
    rw [h.head_eq] at he
    exact haf (List.mem_of_mem_head? he)

/-- The front of a bucket once an element is cut out of it. -/
theorem head_erase (h : Chains l head idx f) {i : ℕ} {x : ι} (hx : x ∈ f i) :
    ((f i).erase x).head? = if head i = some x then l.next x else head i := by
  have hchain := h.chain i
  rw [h.head_eq]
  cases hf : f i with
  | nil => simp [hf] at hx
  | cons y ys =>
    rw [hf] at hchain
    by_cases hy : y = x
    · obtain ⟨-, hn, -⟩ := hchain
      rw [hy] at hn
      simp [hy, hn]
    · simp [hy]

/-- An element is cut out of its bucket. -/
theorem remove (h : Chains l head idx f) {x : ι} (hx : x ∈ f (idx x)) :
    Chains (l.unlink x) (Function.update head (idx x) ((f (idx x)).erase x).head?) idx
      (Function.update f (idx x) ((f (idx x)).erase x)) := by
  have hchain := h.chain (idx x)
  have hnd := h.nodup (idx x)
  obtain ⟨as, bs, hnot, hsplit, herase⟩ := List.exists_erase_eq hx
  refine h.update (idx x) ?_ (hnd.erase x) (fun a ha => h.placed _ a (List.mem_of_mem_erase ha)) ?_
  · rw [hsplit] at hchain hnd
    rw [herase]
    exact ListLinks.unlink_chain hchain hnd
  · intro a _ haf
    rw [hsplit] at hchain hnd haf
    exact ListLinks.unlink_frame hchain hnd haf

theorem mem_remove (h : Chains l head idx f) {x a : ι} :
    a ∈ Function.update f (idx x) ((f (idx x)).erase x) (idx a) ↔ a ≠ x ∧ a ∈ f (idx a) := by
  by_cases ha : idx a = idx x
  · rw [ha, Function.update_self, (h.nodup _).mem_erase_iff]
  · rw [Function.update_of_ne ha]
    exact ⟨fun hm => ⟨fun he => ha (congrArg idx he), hm⟩, And.right⟩

end Chains

end RN2223

import Mathlib.Data.Finset.Basic
import Mathlib.Data.Finset.Lattice.Lemmas

/-!
# Lifetimes of blocks

What a program does to the blocks of its heap, in order. A trace that uses, frees or
loses a block which is not live, or allocates one that is, leads nowhere.
-/

namespace RN2223

/-- `lose`: the last pointer to the block is overwritten. -/
inductive BlockEvent (α : Type) where
  | alloc (b : α)
  | use (b : α)
  | free (b : α)
  | lose (b : α)
  deriving DecidableEq

variable {α : Type} [DecidableEq α]

namespace BlockEvent

def block : BlockEvent α → α
  | alloc b | use b | free b | lose b => b

def after (live : Finset α) : BlockEvent α → Option (Finset α)
  | alloc b => if b ∈ live then none else some (insert b live)
  | use b => if b ∈ live then some live else none
  | free b | lose b => if b ∈ live then some (live.erase b) else none

variable {e : BlockEvent α} {live live' frame : Finset α} {b : α}

theorem after_alloc (hb : b ∉ live) : (alloc b).after live = some (insert b live) := if_neg hb

theorem after_use (hb : b ∈ live) : (use b).after live = some live := if_pos hb

theorem after_free (hb : b ∈ live) : (free b).after live = some (live.erase b) := if_pos hb

theorem after_lose (hb : b ∈ live) : (lose b).after live = some (live.erase b) := if_pos hb

theorem after_cases (h : e.after live = some live') :
    (∃ b, e = alloc b ∧ b ∉ live ∧ live' = insert b live) ∨
    (∃ b, e = use b ∧ b ∈ live ∧ live' = live) ∨
    ∃ b, (e = free b ∨ e = lose b) ∧ b ∈ live ∧ live' = live.erase b := by
  cases e with
  | alloc b =>
    obtain ⟨hb, h⟩ := Option.ite_none_left_eq_some.mp h
    exact Or.inl ⟨b, rfl, hb, (Option.some.inj h).symm⟩
  | use b =>
    obtain ⟨hb, h⟩ := Option.ite_none_right_eq_some.mp h
    exact Or.inr (Or.inl ⟨b, rfl, hb, (Option.some.inj h).symm⟩)
  | free b =>
    obtain ⟨hb, h⟩ := Option.ite_none_right_eq_some.mp h
    exact Or.inr (Or.inr ⟨b, Or.inl rfl, hb, (Option.some.inj h).symm⟩)
  | lose b =>
    obtain ⟨hb, h⟩ := Option.ite_none_right_eq_some.mp h
    exact Or.inr (Or.inr ⟨b, Or.inr rfl, hb, (Option.some.inj h).symm⟩)

theorem after_frame (h : e.after live = some live') (hframe : e.block ∉ frame) :
    e.after (frame ∪ live) = some (frame ∪ live') := by
  have herase : (frame ∪ live).erase e.block = frame ∪ live.erase e.block := by
    rw [Finset.erase_union_distrib, Finset.erase_eq_of_notMem hframe]
  obtain ⟨b, rfl, hb, rfl⟩ | ⟨b, rfl, hb, rfl⟩ | ⟨b, rfl | rfl, hb, rfl⟩ := after_cases h
  · have hfresh : b ∉ frame ∪ live := Finset.notMem_union.mpr ⟨hframe, hb⟩
    rw [after_alloc hfresh, Finset.union_insert]
  · exact after_use (Finset.mem_union_right _ hb)
  · exact (after_free (Finset.mem_union_right _ hb)).trans (congrArg some herase)
  · exact (after_lose (Finset.mem_union_right _ hb)).trans (congrArg some herase)

theorem after_count (h : e.after live = some live') (b : α) :
    [e].count (alloc b) + (if b ∈ live then 1 else 0) =
      [e].count (free b) + [e].count (lose b) + if b ∈ live' then 1 else 0 := by
  obtain ⟨d, rfl, hd, rfl⟩ | ⟨d, rfl, hd, rfl⟩ | ⟨d, rfl | rfl, hd, rfl⟩ := after_cases h
  all_goals
    by_cases hbd : b = d
    · subst hbd
      simp [hd]
    · simp [hbd, Ne.symm hbd]

end BlockEvent

/-- The live blocks after the events. -/
def liveAfter (live : Finset α) (es : List (BlockEvent α)) : Option (Finset α) :=
  es.foldlM BlockEvent.after live

section
variable {live live' live'' : Finset α} {e : BlockEvent α} {es es' : List (BlockEvent α)}

theorem liveAfter_cons (h : e.after live = some live') :
    liveAfter live (e :: es) = liveAfter live' es := by
  rw [liveAfter, List.foldlM_cons, h]
  rfl

theorem liveAfter_cons_eq_some :
    liveAfter live (e :: es) = some live'' ↔
      ∃ live', e.after live = some live' ∧ liveAfter live' es = some live'' := by
  rw [liveAfter, List.foldlM_cons]
  exact Option.bind_eq_some_iff

theorem liveAfter_trans (h : liveAfter live es = some live')
    (h' : liveAfter live' es' = some live'') : liveAfter live (es ++ es') = some live'' := by
  rw [liveAfter, List.foldlM_append]
  exact Option.bind_eq_some_iff.mpr ⟨live', h, h'⟩

theorem liveAfter_uses (h : ∀ e ∈ es, ∃ b ∈ live, e = .use b) : liveAfter live es = some live := by
  induction es with
  | nil => rfl
  | cons e es ih =>
    obtain ⟨b, hb, rfl⟩ := h e List.mem_cons_self
    rw [liveAfter_cons (BlockEvent.after_use hb)]
    exact ih fun e he => h e (List.mem_cons_of_mem _ he)

/-- Blocks that a trace does not name stay as they are. -/
theorem liveAfter_frame {frame : Finset α} (h : liveAfter live es = some live')
    (hframe : ∀ e ∈ es, e.block ∉ frame) :
    liveAfter (frame ∪ live) es = some (frame ∪ live') := by
  induction es generalizing live with
  | nil => exact congrArg (fun l => some (frame ∪ l)) (Option.some.inj h)
  | cons e es ih =>
    obtain ⟨next, hnext, h⟩ := liveAfter_cons_eq_some.mp h
    rw [liveAfter_cons (BlockEvent.after_frame hnext (hframe e List.mem_cons_self))]
    exact ih h fun e he => hframe e (List.mem_cons_of_mem _ he)

theorem liveAfter_frees {bs : List α} (hnodup : bs.Nodup) :
    liveAfter bs.toFinset (bs.map .free) = some ∅ := by
  induction bs with
  | nil => rfl
  | cons b bs ih =>
    obtain ⟨hb, hnodup⟩ := List.nodup_cons.mp hnodup
    have hmem : b ∈ (b :: bs).toFinset := List.mem_toFinset.mpr List.mem_cons_self
    rw [List.map_cons, liveAfter_cons (BlockEvent.after_free hmem), List.toFinset_cons,
      Finset.erase_insert (mt List.mem_toFinset.mp hb)]
    exact ih hnodup

/-- What is allocated is freed, lost or still there. -/
theorem liveAfter_count (h : liveAfter live es = some live') (b : α) :
    es.count (.alloc b) + (if b ∈ live then 1 else 0) =
      es.count (.free b) + es.count (.lose b) + if b ∈ live' then 1 else 0 := by
  induction es generalizing live with
  | nil =>
    cases h
    rfl
  | cons e es ih =>
    obtain ⟨next, hnext, h⟩ := liveAfter_cons_eq_some.mp h
    have hone := BlockEvent.after_count hnext b
    have hrest := ih h
    have hsplit : e :: es = [e] ++ es := rfl
    rw [hsplit, List.count_append, List.count_append, List.count_append]
    omega

end

end RN2223

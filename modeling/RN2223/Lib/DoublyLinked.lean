import Mathlib.Data.List.Nodup
import Mathlib.Logic.Function.Basic

/-!
# Doubly linked lists

A store of links gives every node a successor and a predecessor, either of which
may be absent. `Segment` says that a store links the nodes of a list in their
order between two outer neighbours; the operations write the links one by one.
-/

namespace RN2223

structure ListLinks (ι : Type*) where
  next : ι → Option ι
  prev : ι → Option ι

namespace ListLinks

variable {ι : Type*} [DecidableEq ι]

def setNext (l : ListLinks ι) (a : ι) (v : Option ι) : ListLinks ι :=
  { l with next := Function.update l.next a v }

def setPrev (l : ListLinks ι) (a : ι) (v : Option ι) : ListLinks ι :=
  { l with prev := Function.update l.prev a v }

/-- `if (q != NULL) q->next = v`. -/
def relinkNext (l : ListLinks ι) (q v : Option ι) : ListLinks ι :=
  match q with
  | some a => l.setNext a v
  | none => l

def relinkPrev (l : ListLinks ι) (q v : Option ι) : ListLinks ι :=
  match q with
  | some a => l.setPrev a v
  | none => l

@[simp] theorem setNext_next_self (l : ListLinks ι) (a : ι) (v : Option ι) :
    (l.setNext a v).next a = v := Function.update_self ..

@[simp] theorem setPrev_prev_self (l : ListLinks ι) (a : ι) (v : Option ι) :
    (l.setPrev a v).prev a = v := Function.update_self ..

@[simp] theorem setNext_prev (l : ListLinks ι) (a : ι) (v : Option ι) :
    (l.setNext a v).prev = l.prev := rfl

@[simp] theorem setPrev_next (l : ListLinks ι) (a : ι) (v : Option ι) :
    (l.setPrev a v).next = l.next := rfl

theorem setNext_next_ne (l : ListLinks ι) {a b : ι} (v : Option ι) (h : b ≠ a) :
    (l.setNext a v).next b = l.next b := Function.update_of_ne h ..

theorem setPrev_prev_ne (l : ListLinks ι) {a b : ι} (v : Option ι) (h : b ≠ a) :
    (l.setPrev a v).prev b = l.prev b := Function.update_of_ne h ..

@[simp] theorem relinkNext_prev (l : ListLinks ι) (q v : Option ι) : (l.relinkNext q v).prev = l.prev := by
  cases q <;> rfl

@[simp] theorem relinkPrev_next (l : ListLinks ι) (q v : Option ι) : (l.relinkPrev q v).next = l.next := by
  cases q <;> rfl

theorem relinkNext_next_ne (l : ListLinks ι) {q : Option ι} {b : ι} (v : Option ι) (h : q ≠ some b) :
    (l.relinkNext q v).next b = l.next b := by
  cases q with
  | none => rfl
  | some a => exact setNext_next_ne l v fun he => h (congrArg some he.symm)

theorem relinkPrev_prev_ne (l : ListLinks ι) {q : Option ι} {b : ι} (v : Option ι) (h : q ≠ some b) :
    (l.relinkPrev q v).prev b = l.prev b := by
  cases q with
  | none => rfl
  | some a => exact setPrev_prev_ne l v fun he => h (congrArg some he.symm)

/-! ### Segments -/

/-- The nodes of the list are linked in their order, the first one back to `p`
and the last one on to `n`. -/
def Segment (l : ListLinks ι) : Option ι → List ι → Option ι → Prop
  | _, [], _ => True
  | p, x :: xs, n => l.prev x = p ∧ l.next x = xs.head?.or n ∧ l.Segment (some x) xs n

abbrev Chain (l : ListLinks ι) (xs : List ι) : Prop := l.Segment none xs none

omit [DecidableEq ι] in
theorem segment_append (l : ListLinks ι) (p n : Option ι) (xs ys : List ι) :
    l.Segment p (xs ++ ys) n ↔
      l.Segment p xs (ys.head?.or n) ∧ l.Segment (xs.getLast?.or p) ys n := by
  induction xs generalizing p with
  | nil => simp [Segment]
  | cons x xs ih =>
    have hlast : ((x :: xs).getLast?.or p) = (xs.getLast?.or (some x)) := by
      rw [List.getLast?_cons]
      cases xs.getLast? <;> rfl
    simp only [List.cons_append, Segment, ih, hlast, List.head?_append, Option.or_assoc, and_assoc]

omit [DecidableEq ι] in
/-- Writes to other nodes leave a segment alone. -/
theorem Segment.frame {l l' : ListLinks ι} {p n : Option ι} {xs : List ι} (h : l.Segment p xs n)
    (hnext : ∀ a ∈ xs, l'.next a = l.next a) (hprev : ∀ a ∈ xs, l'.prev a = l.prev a) :
    l'.Segment p xs n := by
  induction xs generalizing p with
  | nil => trivial
  | cons x xs ih =>
    obtain ⟨hp, hn, hrest⟩ := h
    refine ⟨(hprev x (by simp)).trans hp, (hnext x (by simp)).trans hn, ih hrest ?_ ?_⟩
    · exact fun a ha => hnext a (List.mem_cons_of_mem _ ha)
    · exact fun a ha => hprev a (List.mem_cons_of_mem _ ha)

theorem Segment.relinkPrev {l : ListLinks ι} {p n : Option ι} {xs : List ι} (h : l.Segment p xs n)
    (hnd : xs.Nodup) (v : Option ι) : (l.relinkPrev xs.head? v).Segment v xs n := by
  cases xs with
  | nil => trivial
  | cons x xs =>
    obtain ⟨-, hn, hrest⟩ := h
    refine ⟨setPrev_prev_self l x v, hn, hrest.frame (fun _ _ => rfl) fun a ha => ?_⟩
    exact setPrev_prev_ne l v (ne_of_mem_of_not_mem ha (List.nodup_cons.mp hnd).1)

theorem Segment.relinkNext {l : ListLinks ι} {p n : Option ι} {xs : List ι} (h : l.Segment p xs n)
    (hnd : xs.Nodup) (v : Option ι) : (l.relinkNext xs.getLast? v).Segment p xs v := by
  rcases List.eq_nil_or_concat xs with rfl | ⟨ys, y, rfl⟩
  · trivial
  · rw [List.concat_eq_append] at h hnd ⊢
    obtain ⟨hys, hy, -, -⟩ := (segment_append l p n ys [y]).mp h
    have hnot : ∀ a ∈ ys, a ≠ y := fun a ha he =>
      (List.nodup_append.mp hnd).2.2 a ha y (List.mem_singleton_self y) he
    rw [List.getLast?_append, List.getLast?_singleton, Option.some_or, segment_append]
    refine ⟨?_, hy, setNext_next_self l y v, trivial⟩
    exact hys.frame (fun a ha => setNext_next_ne l v (hnot a ha)) fun _ _ => rfl

/-! ### The operations -/

/-- `x` in front of the list that begins at `head`. -/
def pushFront (l : ListLinks ι) (head : Option ι) (x : ι) : ListLinks ι :=
  ((l.setNext x head).setPrev x none).relinkPrev head (some x)

/-- `x` behind the last node. -/
def append (l : ListLinks ι) (tail x : ι) : ListLinks ι :=
  ((l.setNext x none).setPrev x (some tail)).setNext tail (some x)

/-- `x` cut out, its neighbours linked to each other. -/
def unlink (l : ListLinks ι) (x : ι) : ListLinks ι :=
  let l' := l.relinkNext (l.prev x) (l.next x)
  l'.relinkPrev (l'.next x) (l'.prev x)

theorem pushFront_frame (l : ListLinks ι) {head : Option ι} {x a : ι} (hx : a ≠ x)
    (hhead : head ≠ some a) :
    (l.pushFront head x).next a = l.next a ∧ (l.pushFront head x).prev a = l.prev a := by
  constructor
  · rw [pushFront, relinkPrev_next, setPrev_next, setNext_next_ne _ _ hx]
  · rw [pushFront, relinkPrev_prev_ne _ _ hhead, setPrev_prev_ne _ _ hx, setNext_prev]

theorem pushFront_chain {l : ListLinks ι} {xs : List ι} {x : ι} (h : l.Chain xs)
    (hnd : (x :: xs).Nodup) : (l.pushFront xs.head? x).Chain (x :: xs) := by
  obtain ⟨hx, hxs⟩ := List.nodup_cons.mp hnd
  have hhead : xs.head? ≠ some x := fun he => hx (List.mem_of_mem_head? he)
  refine ⟨?_, ?_, ?_⟩
  · rw [pushFront, relinkPrev_prev_ne _ _ hhead, setPrev_prev_self]
  · rw [pushFront, relinkPrev_next, setPrev_next, setNext_next_self, Option.or_none]
  · refine Segment.relinkPrev (p := none) (h.frame ?_ ?_) hxs _
    · exact fun a ha => setNext_next_ne l _ (ne_of_mem_of_not_mem ha hx)
    · exact fun a ha => setPrev_prev_ne _ _ (ne_of_mem_of_not_mem ha hx)

theorem append_chain {l : ListLinks ι} {xs : List ι} {tail x : ι} (h : l.Chain xs)
    (htail : xs.getLast? = some tail) (hnd : xs.Nodup) (hx : x ∉ xs) :
    (l.append tail x).Chain (xs ++ [x]) := by
  have hmem : tail ∈ xs := List.mem_of_getLast? htail
  have hne : x ≠ tail := fun he => hx (he ▸ hmem)
  rw [Chain, segment_append, htail]
  refine ⟨?_, ?_, ?_, trivial⟩
  · have hframe : ((l.setNext x none).setPrev x (some tail)).Chain xs := by
      refine h.frame ?_ ?_
      · exact fun a ha => setNext_next_ne l _ (ne_of_mem_of_not_mem ha hx)
      · exact fun a ha => setPrev_prev_ne _ _ (ne_of_mem_of_not_mem ha hx)
    have hlink := hframe.relinkNext hnd (some x)
    rwa [htail] at hlink
  · exact setPrev_prev_self _ x (some tail)
  · rw [append, setNext_next_ne _ _ hne, setPrev_next, setNext_next_self]
    rfl

section
variable {l : ListLinks ι} {p n : Option ι} {xs ys : List ι} {x : ι}

omit [DecidableEq ι] in
/-- What a node in the middle of a list is linked to. -/
theorem Segment.middle (h : l.Segment p (xs ++ x :: ys) n) :
    l.prev x = xs.getLast?.or p ∧ l.next x = ys.head?.or n := by
  obtain ⟨-, hp, hn, -⟩ := (segment_append l p n xs (x :: ys)).mp h
  exact ⟨hp, hn⟩

theorem unlink_chain (h : l.Chain (xs ++ x :: ys)) (hnd : (xs ++ x :: ys).Nodup) :
    (l.unlink x).Chain (xs ++ ys) := by
  obtain ⟨hp, hn⟩ := h.middle
  obtain ⟨hxs, -, -, hys⟩ := (segment_append l none none xs (x :: ys)).mp h
  obtain ⟨hndx, hndy, hdis⟩ := List.nodup_append.mp hnd
  obtain ⟨hxy, hndys⟩ := List.nodup_cons.mp hndy
  rw [Option.or_none] at hp hn
  have hxx : xs.getLast? ≠ some x := fun he => hdis x (List.mem_of_getLast? he) x (by simp) rfl
  -- the two sides are written one after the other, each away from the other's nodes
  rw [unlink, hp, hn, relinkNext_next_ne l _ hxx, relinkNext_prev, hp, hn, Chain, segment_append,
    Option.or_none, Option.or_none]
  constructor
  · refine (hxs.relinkNext hndx ys.head?).frame (fun _ _ => by rw [relinkPrev_next]) fun a ha => ?_
    exact relinkPrev_prev_ne _ _ fun he =>
      hdis a ha a (List.mem_cons_of_mem _ (List.mem_of_mem_head? he)) rfl
  · refine Segment.relinkPrev (p := some x) (hys.frame (fun a ha => ?_) fun _ _ => by
      rw [relinkNext_prev]) hndys _
    exact relinkNext_next_ne _ _ fun he =>
      hdis a (List.mem_of_getLast? he) a (List.mem_cons_of_mem _ ha) rfl

theorem unlink_frame {a : ι} (h : l.Chain (xs ++ x :: ys)) (hnd : (xs ++ x :: ys).Nodup)
    (ha : a ∉ xs ++ x :: ys) :
    (l.unlink x).next a = l.next a ∧ (l.unlink x).prev a = l.prev a := by
  obtain ⟨hp, hn⟩ := h.middle
  rw [Option.or_none] at hp hn
  have hdis := (List.nodup_append.mp hnd).2.2
  have hxx : xs.getLast? ≠ some x := fun he => hdis x (List.mem_of_getLast? he) x (by simp) rfl
  have hxs : xs.getLast? ≠ some a := fun he => ha (List.mem_append_left _ (List.mem_of_getLast? he))
  have hys : ys.head? ≠ some a := fun he =>
    ha (List.mem_append_right _ (List.mem_cons_of_mem _ (List.mem_of_mem_head? he)))
  rw [unlink, hp, hn, relinkNext_next_ne l _ hxx, relinkNext_prev, hp, hn]
  constructor
  · rw [relinkPrev_next, relinkNext_next_ne _ _ hxs]
  · rw [relinkPrev_prev_ne _ _ hys, relinkNext_prev]

end

end ListLinks

end RN2223

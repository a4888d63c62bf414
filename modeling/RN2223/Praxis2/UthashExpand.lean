import Mathlib.Algebra.BigOperators.Group.Finset.Basic
import RN2223.Praxis2.UthashBuckets

/-!
# Bucket expansion

Every element of the old buckets is pushed to the front of its new bucket. While
the walk goes on the elements not yet moved still hang in their old chains, and
the new buckets hold exactly the others.
-/

namespace RN2223.Praxis2.Uthash
open CMemory

variable {β : Type} {u : UTHash β} {n : UInt32} {ideal : UInt32} {xs : List Addr}

theorem countItem_count (ideal : UInt32) (b : UTHashBucket) :
    (countItem ideal b).count = b.count + 1 := by
  simp only [countItem]
  split <;> rfl

theorem moveItem_eq (ideal : UInt32) {e : Expansion} {g : ℕ → List Addr} (x : Addr)
    (hb : Buckets e.newBuckets n u.hh.hashv e.bkt g) (hlive : ∀ i, ∀ a ∈ g i, a ∈ u.heap) :
    ∃ b, e.newBuckets[bucketIndex u.hh.hashv n x]? = some b ∧
      moveItem u n ideal x e = .ok (e.moved ideal (bucketIndex u.hh.hashv n x) b x) := by
  obtain ⟨b, hat, hget⟩ := hb.bucketAt_hash (u.hh.hashv x)
  refine ⟨b, hget, ?_⟩
  have hhead : u.derefIf b.hhHead = .ok () := derefIf_ok fun a ha => by
    rw [hb.hhHead_eq hget] at ha
    exact hlive _ a (List.mem_of_mem_head? ha)
  rw [moveItem]
  simp only [hat, abort_ok_bind, hhead]
  rfl

/-- A property of the expansion that holds again after every single move. -/
def KeptByMoves (u : UTHash β) (n ideal : UInt32) (xs : List Addr)
    (P : Expansion → (ℕ → List Addr) → Prop) : Prop :=
  ∀ e g x b, Buckets e.newBuckets n u.hh.hashv e.bkt g → (∀ i, ∀ a ∈ g i, a ∈ xs) → x ∈ xs →
    x ∉ g (bucketIndex u.hh.hashv n x) → e.newBuckets[bucketIndex u.hh.hashv n x]? = some b → P e g →
    P (e.moved ideal (bucketIndex u.hh.hashv n x) b x)
      (Function.update g (bucketIndex u.hh.hashv n x) (x :: g (bucketIndex u.hh.hashv n x)))

variable {P : Expansion → (ℕ → List Addr) → Prop}

/-- The inner loop moves a whole chain. -/
theorem moveChain_moves (hP : KeptByMoves u n ideal xs P) (hlive : ∀ a ∈ xs, a ∈ u.heap)
    {e : Expansion} {g : ℕ → List Addr} {p : Option Addr} {r : List Addr} {fuel : ℕ}
    (hb : Buckets e.newBuckets n u.hh.hashv e.bkt g) (hseg : e.bkt.Segment p r none)
    (hnd : r.Nodup) (hfuel : r.length ≤ fuel) (hr : ∀ a ∈ r, a ∈ xs)
    (hg : ∀ i, ∀ a ∈ g i, a ∈ xs ∧ a ∉ r) (he : P e g) :
    ∃ e' g', moveChain u n ideal fuel r.head? e = .ok e' ∧
      Buckets e'.newBuckets n u.hh.hashv e'.bkt g' ∧
      (∀ a, a ∈ g' (bucketIndex u.hh.hashv n a) ↔ a ∈ r ∨ a ∈ g (bucketIndex u.hh.hashv n a)) ∧
      (∀ a, a ∉ r → (∀ i, a ∉ g i) →
        e'.bkt.next a = e.bkt.next a ∧ e'.bkt.prev a = e.bkt.prev a) ∧ P e' g' := by
  induction r generalizing p e g fuel with
  | nil => exact ⟨e, g, by cases fuel <;> rfl, hb, by simp, fun _ _ _ => ⟨rfl, rfl⟩, he⟩
  | cons x r ih =>
    obtain ⟨fuel, rfl⟩ : ∃ k, fuel = k + 1 := ⟨fuel - 1, by simp at hfuel; omega⟩
    obtain ⟨-, hnext, hrest⟩ := hseg
    rw [Option.or_none] at hnext
    obtain ⟨hxr, hnd⟩ := List.nodup_cons.mp hnd
    have hxg : ∀ i, x ∉ g i := fun i hm => (hg i x hm).2 (by simp)
    obtain ⟨b, hget, hmove⟩ := moveItem_eq ideal x hb
      fun i a ha => hlive a (hg i a ha).1
    have hframe : ∀ a, a ≠ x → (∀ i, a ∉ g i) → (e.moved ideal (bucketIndex u.hh.hashv n x) b x).bkt.next a
        = e.bkt.next a ∧ (e.moved ideal (bucketIndex u.hh.hashv n x) b x).bkt.prev a = e.bkt.prev a := by
      intro a ha hag
      refine ListLinks.pushFront_frame _ ha fun hh => ?_
      rw [hb.hhHead_eq hget] at hh
      exact hag _ (List.mem_of_mem_head? hh)
    have hrg : ∀ a ∈ r, ∀ i, a ∉ g i := fun a ha i hm => (hg i a hm).2 (by simp [ha])
    have hne : ∀ a ∈ r, a ≠ x := fun a ha => ne_of_mem_of_not_mem ha hxr
    have hpush := hb.push { countItem ideal b with hhHead := some x } (hxg _) hget rfl
      (countItem_count ideal b)
    have hmem : ∀ i, ∀ a ∈ Function.update g (bucketIndex u.hh.hashv n x)
        (x :: g (bucketIndex u.hh.hashv n x)) i, a = x ∨ a ∈ g i := by
      intro i a ha
      by_cases hi : i = bucketIndex u.hh.hashv n x
      · rw [hi, Function.update_self, List.mem_cons] at ha
        rwa [hi]
      · rw [Function.update_of_ne hi] at ha
        exact Or.inr ha
    obtain ⟨e', g', hrun, hb', hmem', hframe', hP'⟩ :=
      ih (e := e.moved ideal (bucketIndex u.hh.hashv n x) b x) hpush
        (hrest.frame (fun a ha => (hframe a (hne a ha) (hrg a ha)).1)
          fun a ha => (hframe a (hne a ha) (hrg a ha)).2)
        hnd (by simpa using hfuel) (fun a ha => hr a (by simp [ha]))
        (fun i a ha => by
          rcases hmem i a ha with rfl | ha
          · exact ⟨hr a (by simp), hxr⟩
          · exact ⟨(hg i a ha).1, fun hm => (hg i a ha).2 (by simp [hm])⟩)
        (hP e g x b hb (fun i a ha => (hg i a ha).1) (hr x (by simp)) (hxg _) hget he)
    refine ⟨e', g', ?_, hb', ?_, ?_, hP'⟩
    · rw [List.head?_cons, moveChain, deref_ok (hlive x (hr x (by simp))), abort_ok_bind, hmove,
        abort_ok_bind, hnext, hrun]
    · intro a
      rw [hmem' a, Chains.mem_push, List.mem_cons]
      tauto
    · intro a har hag
      have hax : a ≠ x := fun he => har (by simp [he])
      have hstep := hframe' a (fun hm => har (by simp [hm])) fun i hm =>
        (hmem i a hm).elim hax (hag i)
      exact ⟨hstep.1.trans (hframe a hax hag).1, hstep.2.trans (hframe a hax hag).2⟩

/-- The outer loop, from bucket `i` on: the buckets before it are empty by then. -/
theorem moveBuckets_moves (hP : KeptByMoves u n ideal xs P) (hlive : ∀ a ∈ xs, a ∈ u.heap)
    {t : UTHashTable} {f : ℕ → List Addr} (hn : n = t.numBuckets * 2)
    (hold : Buckets t.buckets t.numBuckets u.hh.hashv u.hh.bkt f)
    (hf : ∀ a, a ∈ f (bucketIndex u.hh.hashv t.numBuckets a) ↔ a ∈ xs)
    {e : Expansion} {g : ℕ → List Addr} {i k : ℕ} (hi : k + i = t.numBuckets.toNat)
    (hb : Buckets e.newBuckets n u.hh.hashv e.bkt g) (hchain : ∀ j ≥ i, e.bkt.Chain (f j))
    (hg : ∀ a, a ∈ g (bucketIndex u.hh.hashv n a) ↔
      a ∈ xs ∧ bucketIndex u.hh.hashv t.numBuckets a < i) (he : P e g) :
    ∃ e' g', moveBuckets u t ideal k i e = .ok e' ∧
      Buckets e'.newBuckets n u.hh.hashv e'.bkt g' ∧
      (∀ a, a ∈ g' (bucketIndex u.hh.hashv n a) ↔ a ∈ xs) ∧ P e' g' := by
  induction k generalizing e g i with
  | zero =>
    refine ⟨e, g, rfl, hb, fun a => (hg a).trans ⟨And.left, fun ha => ⟨ha, ?_⟩⟩, he⟩
    have hlt := hold.bucketIndex_lt a
    rw [hold.size] at hlt
    omega
  | succ k ih =>
    have hlt : i < t.buckets.length := by
      rw [hold.size]
      omega
    have hidx : (UInt32.ofNat i).toNat = i := by
      have hsize := t.numBuckets.toNat_lt
      exact UInt32.toNat_ofNat_of_lt' (by rw [hold.size] at hlt; exact Nat.lt_trans hlt hsize)
    have hget := List.getElem?_eq_getElem hlt
    have hat : bucketAt t.buckets (UInt32.ofNat i) = .ok t.buckets[i] := by
      simp only [bucketAt, hidx, hget]
    have hin : ∀ j, ∀ a ∈ f j, a ∈ xs := fun j a ha => (hf a).mp (hold.chains.mem_own ha)
    have hgin : ∀ j, ∀ a ∈ g j, a ∈ xs ∧ a ∉ f i := by
      intro j a ha
      obtain ⟨hax, hlt'⟩ := (hg a).mp (hb.chains.mem_own ha)
      refine ⟨hax, fun hm => ?_⟩
      have hp : bucketIndex u.hh.hashv t.numBuckets a = i := hold.chains.placed i a hm
      omega
    have hlen : (f i).length ≤ u.fuel := by
      have hsub : (f i).Subperm u.heap.keys := List.subperm_of_subset (hold.chains.nodup i)
        fun a ha => AList.mem_keys.mp (hlive a (hin i a ha))
      exact hsub.length_le
    obtain ⟨e', g', hrun, hb', hg', hframe, he'⟩ := moveChain_moves hP hlive hb
      (hchain i (Nat.le_refl i)) (hold.chains.nodup i) hlen (hin i) hgin he
    obtain ⟨e'', g'', hrun', h⟩ := ih (e := e') (g := g') (i := i + 1) (by omega) hb' (by
        intro j hj
        refine (hchain j (by omega)).frame (fun a ha => ?_) fun a ha => ?_
        all_goals
          have hp : bucketIndex u.hh.hashv t.numBuckets a = j := hold.chains.placed j a ha
          have hai : a ∉ f i := fun hm => by
            have hp' : bucketIndex u.hh.hashv t.numBuckets a = i := hold.chains.placed i a hm
            omega
          have hag : ∀ m, a ∉ g m := fun m hm => by
            have hlt' := ((hg a).mp (hb.chains.mem_own hm)).2
            omega
        · exact (hframe a hai hag).1
        · exact (hframe a hai hag).2)
      (fun a => by
        rw [hg' a, hg a]
        constructor
        · rintro (ha | ⟨ha, hlt'⟩)
          · have hp : bucketIndex u.hh.hashv t.numBuckets a = i := hold.chains.placed i a ha
            exact ⟨hin i a ha, by omega⟩
          · exact ⟨ha, by omega⟩
        · rintro ⟨ha, hlt'⟩
          by_cases hai : bucketIndex u.hh.hashv t.numBuckets a = i
          · have hown := (hf a).mpr ha
            rw [hai] at hown
            exact Or.inl hown
          · exact Or.inr ⟨ha, by omega⟩) he'
    refine ⟨e'', g'', ?_, h⟩
    rw [moveBuckets, hat, abort_ok_bind, hold.hhHead_eq hget, ← hn, hrun,
      abort_ok_bind, hrun']

/-! ### The expanded table -/

/-- The table of the elements `xs`, in application order. -/
structure TableOk (hh : UTHashHandles) (t : UTHashTable) (xs : List Addr) (f : ℕ → List Addr) :
    Prop where
  buckets : Buckets t.buckets t.numBuckets hh.hashv hh.bkt f
  pow : t.numBuckets.toNat = 2 ^ t.log2NumBuckets.toNat
  log_le : t.log2NumBuckets.toNat ≤ 31
  items : t.numItems = UInt32.ofNat xs.length
  tail : t.tail = xs.getLast?
  members : ∀ a, a ∈ f (bucketIndex hh.hashv t.numBuckets a) ↔ a ∈ xs

/-- No block of 64 GiB is to be had. -/
def NoGiant (alloc : ℕ → Bool) : Prop := ∀ size, 2^36 ≤ size → alloc size = false

theorem uthashMalloc_cases (alloc : ℕ → Bool) (size : ℕ) :
    uthashMalloc alloc size = .ok () ∧ alloc size = true ∨
      uthashMalloc alloc size = .error (.fatal size) ∧ alloc size = false := by
  cases h : alloc size <;> simp [uthashMalloc, h]

@[simp] theorem abort_error_bind {α β : Type} (e : Abort) (f : α → Except Abort β) :
    (Except.error e >>= f) = .error e := rfl

theorem TableOk.double {alloc : ℕ → Bool} (halloc : NoGiant alloc) {hh : UTHashHandles}
    {t : UTHashTable} {f : ℕ → List Addr} (ht : TableOk hh t xs f)
    (hgrant : alloc (2 * t.numBuckets.toNat * 16) = true) :
    t.log2NumBuckets.toNat ≤ 30 ∧ (t.log2NumBuckets + 1).toNat = t.log2NumBuckets.toNat + 1 ∧
      (t.numBuckets * 2).toNat = 2 * t.numBuckets.toNat := by
  have hpow := ht.pow
  have hlog := ht.log_le
  have hlt : t.numBuckets.toNat < 2^31 := by
    by_contra hge
    have hno := halloc (2 * t.numBuckets.toNat * 16) (by omega)
    rw [hgrant] at hno
    cases hno
  have h30 : t.log2NumBuckets.toNat ≤ 30 := by
    by_contra hgt
    have h31 : t.log2NumBuckets.toNat = 31 := by omega
    rw [h31] at hpow
    omega
  refine ⟨h30, ?_, ?_⟩
  · rw [UInt32.toNat_add]
    exact Nat.mod_eq_of_lt (by change t.log2NumBuckets.toNat + 1 < _; omega)
  · rw [UInt32.toNat_mul]
    change t.numBuckets.toNat * 2 % 2^32 = _
    omega

/-- Whatever the moves keep holds of the new buckets in the end. -/
theorem hashExpandBuckets_moves {alloc : ℕ → Bool} (halloc : NoGiant alloc) {t : UTHashTable}
    {f : ℕ → List Addr} (ht : TableOk u.hh t xs f) (hlive : ∀ a ∈ xs, a ∈ u.heap)
    (hP : KeptByMoves u (t.numBuckets * 2) t.idealMaxlen xs P)
    (hstart : P ⟨List.replicate (2 * t.numBuckets.toNat) ⟨none, 0, 0⟩, 0, u.hh.bkt⟩ fun _ => []) :
    (alloc (2 * t.numBuckets.toNat * 16) = false ∧
      hashExpandBuckets alloc u t = .error (.fatal (2 * t.numBuckets.toNat * 16))) ∨
    ∃ e f', hashExpandBuckets alloc u t = .ok { u with
        hh := { u.hh with bkt := e.bkt }, tbl := some (t.expanded t.idealMaxlen e) } ∧
      TableOk { u.hh with bkt := e.bkt } (t.expanded t.idealMaxlen e) xs f' ∧ P e f' := by
  rcases uthashMalloc_cases alloc (2 * t.numBuckets.toNat * 16) with ⟨hm, hgrant⟩ | ⟨hm, hgrant⟩
  · obtain ⟨h30, hlog, hdouble⟩ := ht.double halloc hgrant
    have hpow : (t.numBuckets * 2).toNat = 2 ^ (t.log2NumBuckets.toNat + 1) := by
      rw [hdouble, ht.pow, Nat.pow_succ]
      omega
    have hempty := Buckets.empty hpow u.hh.hashv u.hh.bkt
    rw [hdouble] at hempty
    obtain ⟨e, f', hrun, hb, hf, hPe⟩ := moveBuckets_moves hP hlive rfl ht.buckets ht.members
      (i := 0) (k := t.numBuckets.toNat) rfl hempty (fun j _ => ht.buckets.chains.chain j)
      (fun a => by simp) hstart
    refine Or.inr ⟨e, f', ?_, ⟨hb, ?_, ?_, ht.items, ht.tail, hf⟩, hPe⟩
    · rw [hashExpandBuckets, hm, abort_ok_bind]
      simp only [hrun, abort_ok_bind]
    · change (t.numBuckets * 2).toNat = 2 ^ (t.log2NumBuckets + 1).toNat
      rw [hlog, hpow]
    · change (t.log2NumBuckets + 1).toNat ≤ 31
      omega
  · exact Or.inl ⟨hgrant, by rw [hashExpandBuckets, hm, abort_error_bind]⟩

/-! ### How even the new distribution is -/

theorem sum_excess_push {g : ℕ → List Addr} {i m k : ℕ} (hi : i < m) (x : Addr) :
    ∑ j ∈ Finset.range m, ((Function.update g i (x :: g i) j).length - k) =
      (∑ j ∈ Finset.range m, ((g j).length - k)) + if k < (g i).length + 1 then 1 else 0 := by
  have hmem : i ∈ Finset.range m := Finset.mem_range.mpr hi
  rw [← Finset.add_sum_erase _ _ hmem, ← Finset.add_sum_erase _ (fun j => (g j).length - k) hmem]
  have hrest : ∑ j ∈ (Finset.range m).erase i, ((Function.update g i (x :: g i) j).length - k) =
      ∑ j ∈ (Finset.range m).erase i, ((g j).length - k) :=
    Finset.sum_congr rfl fun j hj => by rw [Function.update_of_ne (Finset.ne_of_mem_erase hj)]
  rw [hrest, Function.update_self, List.length_cons]
  split <;> omega

def Accounted (n ideal : UInt32) (e : Expansion) (g : ℕ → List Addr) : Prop :=
  e.nonidealItems =
    UInt32.ofNat (∑ j ∈ Finset.range n.toNat, ((g j).length - ideal.toNat))

theorem accounted_kept (hsmall : xs.length < 2^32) :
    KeptByMoves u n ideal xs (Accounted n ideal) := by
  intro e g x b hb hg hx hnot hget hacc
  have hlen : (g (bucketIndex u.hh.hashv n x)).length + 1 ≤ xs.length := by
    have hsub : (x :: g (bucketIndex u.hh.hashv n x)).Subperm xs :=
      List.subperm_of_subset (List.nodup_cons.mpr ⟨hnot, hb.chains.nodup _⟩) fun a ha => by
        rcases List.mem_cons.mp ha with rfl | ha
        · exact hx
        · exact hg _ a ha
    exact hsub.length_le
  have hcount : (b.count + 1).toNat = (g (bucketIndex u.hh.hashv n x)).length + 1 := by
    have h1 : b.count + 1 = UInt32.ofNat ((g (bucketIndex u.hh.hashv n x)).length + 1) := by
      rw [hb.counts _ b hget, UInt32.ofNat_add]
      rfl
    rw [h1]
    exact UInt32.toNat_ofNat_of_lt' (Nat.lt_of_le_of_lt hlen hsmall)
  have hlt : ideal < b.count + 1 ↔
      ideal.toNat < (g (bucketIndex u.hh.hashv n x)).length + 1 := by
    rw [UInt32.lt_iff_toNat_lt, hcount]
  have hi : bucketIndex u.hh.hashv n x < n.toNat := by
    rw [← hb.size]
    exact hb.bucketIndex_lt x
  rw [Accounted, sum_excess_push hi, UInt32.ofNat_add, ← hacc]
  by_cases h : ideal < b.count + 1
  · rw [if_pos (hlt.mp h)]
    exact if_pos h
  · rw [if_neg fun hc => h (hlt.mpr hc)]
    exact (if_neg h).trans (UInt32.add_zero _).symm

end RN2223.Praxis2.Uthash

import Mathlib.Algebra.Order.BigOperators.Group.Finset
import RN2223.Praxis2.UthashRep

/-!
# The checks uthash makes of itself

`HASH_FSCK` never complains about a table that holds its elements, and the
numbers an expansion leaves behind are what their comments say they are.
-/

namespace RN2223.Praxis2.Uthash
open CMemory

variable {β : Type} {u : UTHash β} {xs : List Addr}

theorem fsckWalk_ok {l : ListLinks Addr} {p : Option Addr} {r : List Addr} {fuel : ℕ}
    (hseg : l.Segment p r none) (hfuel : r.length ≤ fuel) (hlive : ∀ a ∈ r, a ∈ u.heap)
    (count : UInt32) : fsckWalk u l fuel p r.head? count = .ok (count + UInt32.ofNat r.length) := by
  induction r generalizing p fuel count with
  | nil =>
    have hzero : count + UInt32.ofNat 0 = count := UInt32.add_zero count
    cases fuel <;> exact congrArg Except.ok hzero.symm
  | cons x r ih =>
    obtain ⟨fuel, rfl⟩ : ∃ k, fuel = k + 1 := ⟨fuel - 1, by simp at hfuel; omega⟩
    obtain ⟨hprev, hnext, hrest⟩ := hseg
    rw [Option.or_none] at hnext
    rw [List.head?_cons, fsckWalk, deref_ok (hlive x (by simp)), abort_ok_bind, if_pos hprev.symm,
      hnext, ih hrest (by simpa using hfuel) (fun a ha => hlive a (by simp [ha])),
      List.length_cons, UInt32.add_assoc, Nat.add_comm, UInt32.ofNat_add]
    rfl

/-- After `i` buckets the count is what hangs in them. -/
theorem fsckBuckets_ok {t : UTHashTable} {f : ℕ → List Addr} (ht : TableOk u.hh t xs f)
    (hlive : ∀ a ∈ xs, a ∈ u.heap) {n i : ℕ} (hi : i + n = t.numBuckets.toNat) :
    fsckBuckets u t n i (UInt32.ofNat (∑ j ∈ Finset.range i, (f j).length)) =
      .ok (UInt32.ofNat (∑ j ∈ Finset.range (i + n), (f j).length)) := by
  induction n generalizing i with
  | zero => rfl
  | succ n ih =>
    have hlt : i < t.buckets.length := by
      rw [ht.buckets.size]
      omega
    have hidx : (UInt32.ofNat i).toNat = i := by
      have hsize := t.numBuckets.toNat_lt
      exact UInt32.toNat_ofNat_of_lt' (by rw [ht.buckets.size] at hlt; exact Nat.lt_trans hlt hsize)
    have hget := List.getElem?_eq_getElem hlt
    have hat : bucketAt t.buckets (UInt32.ofNat i) = .ok t.buckets[i] := by
      simp only [bucketAt, hidx, hget]
    have hwalk := fsckWalk_ok (ht.buckets.chains.chain i) (ht.fuel hlive i)
      (fun a ha => hlive a (ht.mem_iff ha)) 0
    have hzero : 0 + UInt32.ofNat (f i).length = UInt32.ofNat (f i).length := UInt32.zero_add _
    rw [fsckBuckets, hat, abort_ok_bind, ht.buckets.hhHead_eq hget, hwalk, abort_ok_bind, hzero,
      if_pos (ht.buckets.counts i _ hget), ← UInt32.ofNat_add, ← Finset.sum_range_succ,
      ih (by omega), show i + 1 + n = i + (n + 1) by omega]

theorem TableOk.sum_length {hh : UTHashHandles} {t : UTHashTable} {f : ℕ → List Addr}
    (ht : TableOk hh t xs f) (hnd : xs.Nodup) :
    ∑ j ∈ Finset.range t.numBuckets.toNat, (f j).length = xs.length :=
  ht.buckets.chains.sum_length hnd ht.members fun a _ => by
    rw [← ht.buckets.size]
    exact ht.buckets.bucketIndex_lt a

/-- A table that holds its elements passes every check of `HASH_FSCK`. -/
theorem hashFsck_ok (h : Rep u xs) : hashFsck u = .ok () := by
  cases xs with
  | nil =>
    have hhead : u.head = none := h.head
    rw [hashFsck, hhead]
  | cons x xs =>
    obtain ⟨t, f, htbl, ht⟩ := h.table (by simp)
    have hhead : u.head = some x := h.head
    have hfuel : (x :: xs).length ≤ u.fuel :=
      (List.subperm_of_subset h.nodup fun a ha => AList.mem_keys.mp (h.live a ha)).length_le
    have hbuckets := fsckBuckets_ok ht h.live (Nat.zero_add t.numBuckets.toNat)
    have hwalk := fsckWalk_ok h.app hfuel h.live 0
    have hzero : ∀ n, 0 + UInt32.ofNat n = UInt32.ofNat n := fun n => UInt32.zero_add _
    rw [Nat.zero_add, ht.sum_length h.nodup, ← ht.items] at hbuckets
    change fsckBuckets u t t.numBuckets.toNat 0 0 = _ at hbuckets
    rw [hzero, ← ht.items, List.head?_cons] at hwalk
    rw [hashFsck, hhead]
    simp only [table_eq hhead (h.live x (by simp)) htbl, abort_ok_bind, hbuckets, hwalk, ne_eq,
      not_true_eq_false, if_false]

/-! ### The numbers of an expansion -/

theorem div_add_pred {a m : ℕ} (hm : 0 < m) :
    (a + (m - 1)) / m = a / m + if a % m ≠ 0 then 1 else 0 := by
  have hsplit := Nat.div_add_mod a m
  have hlt := Nat.mod_lt a hm
  by_cases h0 : a % m = 0
  · rw [if_neg (not_not.mpr h0), Nat.add_zero]
    have hrepr : a + (m - 1) = m - 1 + m * (a / m) := by omega
    rw [hrepr, Nat.add_mul_div_left _ _ hm, Nat.div_eq_of_lt (by omega), Nat.zero_add]
  · rw [if_pos h0]
    have hrepr : a + (m - 1) = a % m - 1 + m * (a / m + 1) := by
      rw [Nat.mul_add, Nat.mul_one]
      omega
    rw [hrepr, Nat.add_mul_div_left _ _ hm, Nat.div_eq_of_lt (by omega), Nat.zero_add]

theorem idealMaxlen_toNat {t : UTHashTable} (hlog : t.log2NumBuckets.toNat ≤ 30)
    (hnext : (t.log2NumBuckets + 1).toNat = t.log2NumBuckets.toNat + 1)
    (hdouble : (t.numBuckets * 2).toNat = 2 ^ (t.log2NumBuckets.toNat + 1)) :
    t.idealMaxlen.toNat =
      (t.numItems.toNat + ((t.numBuckets * 2).toNat - 1)) / (t.numBuckets * 2).toNat := by
  have hshift : (t.numItems >>> (t.log2NumBuckets + 1)).toNat =
      t.numItems.toNat / 2 ^ (t.log2NumBuckets.toNat + 1) := by
    rw [UInt32.toNat_shiftRight, hnext, Nat.mod_eq_of_lt (by omega), Nat.shiftRight_eq_div_pow]
  have hmask : (t.numItems &&& (t.numBuckets * 2 - 1)).toNat =
      t.numItems.toNat % 2 ^ (t.log2NumBuckets.toNat + 1) :=
    hashToBkt_toNat hdouble t.numItems
  have hzero : t.numItems &&& (t.numBuckets * 2 - 1) ≠ 0 ↔
      t.numItems.toNat % 2 ^ (t.log2NumBuckets.toNat + 1) ≠ 0 := by
    rw [← hmask, ne_eq, ne_eq, ← UInt32.toNat_inj]
    rfl
  have hsmall : t.numItems.toNat / 2 ^ (t.log2NumBuckets.toNat + 1) < 2^31 := by
    have hlt : t.numItems.toNat < 2^32 := t.numItems.toNat_lt
    have hle : 2 ≤ 2 ^ (t.log2NumBuckets.toNat + 1) := by
      rw [Nat.pow_succ]
      have hpos := Nat.two_pow_pos t.log2NumBuckets.toNat
      omega
    calc t.numItems.toNat / 2 ^ (t.log2NumBuckets.toNat + 1) ≤ t.numItems.toNat / 2 :=
          Nat.div_le_div_left hle (by omega)
      _ < 2^31 := by omega
  rw [hdouble, div_add_pred (Nat.two_pow_pos _), UTHashTable.idealMaxlen, UInt32.toNat_add, hshift]
  by_cases h : t.numItems.toNat % 2 ^ (t.log2NumBuckets.toNat + 1) ≠ 0
  · rw [if_pos h, if_pos (hzero.mpr h)]
    exact Nat.mod_eq_of_lt (by change _ + 1 < _; omega)
  · rw [if_neg h, if_neg fun hc => h (hzero.mp hc)]
    exact Nat.mod_eq_of_lt (by change _ + 0 < _; omega)

/-- An expansion doubles the buckets and keeps every element and the application
order. `ideal_chain_maxlen` becomes the number of items for each bucket, rounded
up, and `nonideal_items` the number of items behind that position of their chain. There
are fewer than 2^32 elements, and `malloc` grants no block of 64 GiB. -/
theorem hashExpandBuckets_spec {alloc : ℕ → Bool} (halloc : NoGiant alloc) {t : UTHashTable}
    {f : ℕ → List Addr} (ht : TableOk u.hh t xs f) (hlive : ∀ a ∈ xs, a ∈ u.heap)
    (hnd : xs.Nodup) (hsmall : xs.length < 2^32) :
    (alloc (2 * t.numBuckets.toNat * 16) = false ∧
      hashExpandBuckets alloc u t = .error (.fatal (2 * t.numBuckets.toNat * 16))) ∨
    ∃ l t' f', hashExpandBuckets alloc u t =
        .ok { u with hh := { u.hh with bkt := l }, tbl := some t' } ∧
      TableOk { u.hh with bkt := l } t' xs f' ∧
      t'.numBuckets.toNat = 2 * t.numBuckets.toNat ∧
      t'.idealChainMaxlen.toNat =
        (xs.length + (t'.numBuckets.toNat - 1)) / t'.numBuckets.toNat ∧
      t'.nonidealItems.toNat =
        ∑ i ∈ Finset.range t'.numBuckets.toNat, ((f' i).length - t'.idealChainMaxlen.toNat) := by
  rcases hashExpandBuckets_moves (P := Accounted (t.numBuckets * 2) t.idealMaxlen) halloc ht hlive
    (accounted_kept hsmall) (by simp [Accounted]) with he | ⟨e, f', hrun, ht', hacc⟩
  · exact Or.inl he
  · by_cases hgrant : alloc (2 * t.numBuckets.toNat * 16) = true
    · obtain ⟨hlog, hnext, hdouble⟩ := ht.double halloc hgrant
      have hpow : (t.numBuckets * 2).toNat = 2 ^ (t.log2NumBuckets.toNat + 1) := by
        rw [hdouble, ht.pow, Nat.pow_succ]
        omega
      have hitems : t.numItems.toNat = xs.length := by
        rw [ht.items]
        exact UInt32.toNat_ofNat_of_lt' hsmall
      refine Or.inr ⟨e.bkt, _, f', hrun, ht', hdouble, ?_, ?_⟩
      · exact (idealMaxlen_toNat hlog hnext hpow).trans (by rw [hitems]; rfl)
      · have hle : ∑ i ∈ Finset.range (t.numBuckets * 2).toNat,
            ((f' i).length - t.idealMaxlen.toNat) ≤ xs.length := by
          rw [← ht'.sum_length hnd]
          exact Finset.sum_le_sum fun i _ => Nat.sub_le _ _
        exact (congrArg UInt32.toNat hacc).trans
          (UInt32.toNat_ofNat_of_lt' (Nat.lt_of_le_of_lt hle hsmall))
    · exfalso
      have hno : alloc (2 * t.numBuckets.toNat * 16) = false := by simpa using hgrant
      rw [hashExpandBuckets, uthashMalloc, hno] at hrun
      cases hrun

def upTo64GiB (size : ℕ) : Bool := size < 2^36

theorem upTo64GiB_noGiant : NoGiant upTo64GiB := fun size h => by
  simp only [upTo64GiB, decide_eq_false_iff_not]
  omega

def zeroHandles : UTHashHandles :=
  ⟨⟨fun _ => none, fun _ => none⟩, ⟨fun _ => none, fun _ => none⟩, fun _ => [], fun _ => 0,
    fun _ => 0⟩

/-- Three elements of one bucket, of which the second leaves it when the buckets double. -/
def partingHandles : UTHashHandles :=
  { zeroHandles with
    hashv := fun a => if a = 3 then 32 else 0
    bkt := ((zeroHandles.bkt.pushFront none 2).pushFront (some 2) 3).pushFront (some 3) 4 }

def partingTable : UTHashTable :=
  ⟨(List.replicate 32 ⟨none, 0, 0⟩).set 0 ⟨some 4, 3, 0⟩, 32, 5, 3, some 4, 0, 0, 0, 0⟩

def parting : UTHash Unit :=
  ⟨some 2, some partingTable, partingHandles, ((AList.singleton 2 ()).insert 3 ()).insert 4 ()⟩

theorem parting_bucketIndex (a : Addr) : bucketIndex partingHandles.hashv 32 a = 0 := by
  by_cases ha : a = 3 <;> simp only [bucketIndex, partingHandles, ha, if_true, if_false] <;> rfl

theorem parting_ok : TableOk parting.hh partingTable [2, 3, 4]
    (Function.update (fun _ => []) 0 [4, 3, 2]) where
  buckets := by
    have h₂ := (Buckets.empty (n := 32) (k := 5) rfl partingHandles.hashv zeroHandles.bkt).push
      (x := 2) (b := ⟨none, 0, 0⟩) ⟨some 2, 1, 0⟩ (by simp) rfl rfl rfl
    rw [parting_bucketIndex] at h₂
    have h₃ := h₂.push (x := 3) (b := ⟨some 2, 1, 0⟩) ⟨some 3, 2, 0⟩
      (by rw [parting_bucketIndex, Function.update_self]; decide) rfl rfl rfl
    rw [parting_bucketIndex] at h₃
    have h₄ := h₃.push (x := 4) (b := ⟨some 3, 2, 0⟩) ⟨some 4, 3, 0⟩
      (by simp only [parting_bucketIndex, Function.update_self]; decide) rfl rfl rfl
    simp only [parting_bucketIndex, Function.update_self, Function.update_idem, List.set_set] at h₄
    exact h₄
  pow := rfl
  log_le := by change 5 ≤ 31; omega
  items := rfl
  tail := rfl
  members a := by
    have hidx : bucketIndex parting.hh.hashv partingTable.numBuckets a = 0 := parting_bucketIndex a
    rw [hidx, Function.update_self]
    simp only [List.mem_cons, List.not_mem_nil, or_false]
    tauto

theorem parting_live : ∀ a ∈ [2, 3, 4], a ∈ parting.heap := by
  intro a ha
  simp only [List.mem_cons, List.not_mem_nil, or_false] at ha
  rcases ha with rfl | rfl | rfl <;> exact AList.mem_keys.mpr (by decide)

theorem hashExpandBuckets_spec_parting : ∃ l t' f',
    hashExpandBuckets upTo64GiB parting partingTable =
      .ok { parting with hh := { parting.hh with bkt := l }, tbl := some t' } ∧
    TableOk { parting.hh with bkt := l } t' [2, 3, 4] f' ∧
    t'.idealChainMaxlen.toNat = 1 ∧ t'.nonidealItems = 1 ∧ 2 ∈ f' 0 ∧ 3 ∈ f' 32 ∧ 4 ∈ f' 0 := by
  have hrun : (hashExpandBuckets upTo64GiB parting partingTable).map
      (fun u => u.tbl.map UTHashTable.nonidealItems) = .ok (some 1) := rfl
  rcases hashExpandBuckets_spec upTo64GiB_noGiant parting_ok parting_live (by decide) (by decide)
    with ⟨-, he⟩ | ⟨l, t', f', he, ht, hn, hideal, -⟩
  · rw [he] at hrun
    cases hrun
  · rw [he] at hrun
    have hnon : t'.nonidealItems = 1 := Option.some.inj (Except.ok.inj hrun)
    have hsize : t'.numBuckets = 64 := UInt32.toNat_inj.mp hn
    rw [hsize] at hideal
    have hmem : ∀ a ∈ [2, 3, 4], a ∈ f' (bucketIndex partingHandles.hashv 64 a) := by
      rw [← hsize]
      exact fun a => (ht.members a).mpr
    have h₂ : bucketIndex partingHandles.hashv 64 2 = 0 := rfl
    have h₃ : bucketIndex partingHandles.hashv 64 3 = 32 := rfl
    have h₄ : bucketIndex partingHandles.hashv 64 4 = 0 := rfl
    exact ⟨l, t', f', he, ht, hideal, hnon, h₂ ▸ hmem 2 (by simp), h₃ ▸ hmem 3 (by simp),
      h₄ ▸ hmem 4 (by simp)⟩

end RN2223.Praxis2.Uthash

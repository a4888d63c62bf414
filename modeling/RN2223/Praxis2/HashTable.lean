import RN2223.Lib.CMemory

/-!
# The key-value store (hash_table.h / hash_table.c)

uthash keeps its entries in insertion order and finds an entry by the length
and the bytes of its key; the table is the list of the entries.
-/

namespace RN2223.Praxis2
open CMemory

/-- `struct htable` (`hash_table.h:11-17`). The lengths `htable_set` records are
those of the buffers it allocates. -/
structure HtEntry where
  key : Bytes
  value : Bytes
  deriving DecidableEq, Repr

def HtEntry.keyLen (e : HtEntry) : ℕ := e.key.length
def HtEntry.valueLen (e : HtEntry) : ℕ := e.value.length

abbrev HTable := List HtEntry

def hashFind (ht : HTable) (key : Bytes) : Option HtEntry := ht.find? fun e => e.key == key

/-- `HASH_DEL` of the entry `HASH_FIND` returned. -/
def hashDel (ht : HTable) (e : HtEntry) : HTable := ht.eraseP fun x => x.key == e.key

/-- `htable_set` (`hash_table.c:21-49`). -/
def htableSet (ht : HTable) (key : Bytes) (keyLen : ℕ) (value : Bytes) (valueLen : ℕ) :
    Except Fault HTable := do
  let k ← memcpy key keyLen
  let rest := match hashFind ht k with
    | some entry => hashDel ht entry
    | none => ht
  let v ← memcpy value valueLen
  .ok (rest ++ [⟨k, v⟩])

/-- `htable_get` (`hash_table.c:51-61`). -/
def htableGet (ht : HTable) (key : Bytes) (keyLen : ℕ) : Except Fault (Option HtEntry) := do
  let k ← memcpy key keyLen
  .ok (hashFind ht k)

/-- `htable_delete` (`hash_table.c:63-80`). -/
def htableDelete (ht : HTable) (key : Bytes) (keyLen : ℕ) : Except Fault HTable := do
  let k ← memcpy key keyLen
  match hashFind ht k with
  | some toDelete => .ok (hashDel ht toDelete)
  | none => .ok ht

/-! ### The finite map a table stands for -/

def HTable.Unique (ht : HTable) : Prop := ht.Pairwise fun x y => x.key ≠ y.key

def HTable.lookup (ht : HTable) (key : Bytes) : Option Bytes := (hashFind ht key).map HtEntry.value

def HTable.remove (ht : HTable) (key : Bytes) : HTable := ht.eraseP fun x => x.key == key

theorem hashFind_key {ht : HTable} {key : Bytes} {e : HtEntry} (h : hashFind ht key = some e) :
    e.key = key := by
  have hp := List.find?_some h
  simpa using hp

theorem hashFind_none {ht : HTable} {key : Bytes} (h : hashFind ht key = none) :
    ∀ e ∈ ht, e.key ≠ key := by
  intro e he
  have hp := List.find?_eq_none.mp h e he
  simpa using hp

theorem remove_of_absent {ht : HTable} {key : Bytes} (h : hashFind ht key = none) :
    ht.remove key = ht := by
  apply List.eraseP_of_forall_not
  intro e he
  simpa using hashFind_none h e he

/-- Both branches of a search for an old entry leave the table without the key. -/
theorem hashFind_remove (ht : HTable) (key : Bytes) :
    (match hashFind ht key with | some e => hashDel ht e | none => ht) = ht.remove key := by
  cases h : hashFind ht key with
  | none => exact (remove_of_absent h).symm
  | some e => simp only [hashDel, HTable.remove, hashFind_key h]

theorem remove_subset (ht : HTable) (key : Bytes) : ∀ e ∈ ht.remove key, e ∈ ht :=
  fun _ he => List.mem_of_mem_eraseP he

theorem remove_unique {ht : HTable} (h : ht.Unique) (key : Bytes) : (ht.remove key).Unique :=
  List.Pairwise.sublist List.eraseP_sublist h

theorem remove_key_ne {ht : HTable} (h : ht.Unique) (key : Bytes) :
    ∀ e ∈ ht.remove key, e.key ≠ key := by
  induction ht with
  | nil => simp [HTable.remove]
  | cons x xs ih =>
    rw [HTable.Unique, List.pairwise_cons] at h
    by_cases hx : x.key = key
    · intro e he
      rw [HTable.remove, List.eraseP_cons_of_pos (by simpa using hx)] at he
      exact fun hk => h.1 e he (hx.trans hk.symm)
    · intro e he
      rw [HTable.remove, List.eraseP_cons_of_neg (by simpa using hx), List.mem_cons] at he
      rcases he with rfl | he
      · exact hx
      · exact ih h.2 e he

theorem hashFind_remove_self {ht : HTable} (h : ht.Unique) (key : Bytes) :
    hashFind (ht.remove key) key = none := by
  rw [hashFind, List.find?_eq_none]
  intro e he
  simpa using remove_key_ne h key e he

theorem hashFind_remove_ne (ht : HTable) {key key' : Bytes} (h : key' ≠ key) :
    hashFind (ht.remove key) key' = hashFind ht key' := by
  induction ht with
  | nil => rfl
  | cons x xs ih =>
    by_cases hx : x.key = key
    · have hne : ¬ x.key = key' := fun he => h (he.symm.trans hx)
      rw [HTable.remove, List.eraseP_cons_of_pos (by simpa using hx)]
      simp [hashFind, hne]
    · have hrec : HTable.remove (x :: xs) key = x :: HTable.remove xs key := by
        rw [HTable.remove, List.eraseP_cons_of_neg (by simpa using hx)]
        rfl
      rw [hrec]
      by_cases hx' : x.key = key'
      · simp [hashFind, hx']
      · simpa [hashFind, hx'] using ih

/-! ### The three operations on an exact key -/

theorem htableGet_exact {ht : HTable} {key : Bytes} {n : ℕ} (hk : key.length = n) :
    htableGet ht key n = .ok (hashFind ht key) := by
  simp [htableGet, memcpy_exact hk]

theorem htableSet_exact {ht : HTable} {key value : Bytes} {n m : ℕ} (hk : key.length = n)
    (hv : value.length = m) :
    htableSet ht key n value m = .ok (ht.remove key ++ [⟨key, value⟩]) := by
  simp only [htableSet, memcpy_exact hk, memcpy_exact hv, ok_bind, hashFind_remove]

theorem htableDelete_exact {ht : HTable} {key : Bytes} {n : ℕ} (hk : key.length = n) :
    htableDelete ht key n = .ok (ht.remove key) := by
  simp only [htableDelete, memcpy_exact hk, ok_bind, ← hashFind_remove]
  cases hashFind ht key <;> rfl

theorem insert_unique {ht : HTable} (h : ht.Unique) (key value : Bytes) :
    HTable.Unique (ht.remove key ++ [⟨key, value⟩]) := by
  rw [HTable.Unique, List.pairwise_append]
  refine ⟨remove_unique h key, List.pairwise_singleton _ _, fun x hx y hy => ?_⟩
  rw [List.mem_singleton.mp hy]
  exact remove_key_ne h key x hx

theorem hashFind_insert_self {ht : HTable} (h : ht.Unique) (key value : Bytes) :
    hashFind (ht.remove key ++ [⟨key, value⟩]) key = some ⟨key, value⟩ := by
  have hnone := hashFind_remove_self h key
  rw [hashFind] at hnone
  rw [hashFind, List.find?_append, hnone]
  simp

theorem hashFind_insert_ne (ht : HTable) {key key' : Bytes} (h : key' ≠ key) (value : Bytes) :
    hashFind (ht.remove key ++ [⟨key, value⟩]) key' = hashFind ht key' := by
  have hne : ¬ key = key' := fun he => h he.symm
  rw [hashFind, List.find?_append, ← hashFind, hashFind_remove_ne ht h]
  simp [hne]

end RN2223.Praxis2

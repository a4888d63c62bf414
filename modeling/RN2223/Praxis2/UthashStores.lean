import RN2223.Praxis2.HashTable
import RN2223.Praxis2.Requests
import RN2223.Praxis2.UthashChecks

/-!
# The key-value store and the request table on uthash

`hash_table.c` and `requests.c` call for call on the pointer structures of
uthash. The lists the other modules reason about are what these structures hold:
every run of calls gives the same answers on both.
-/

namespace RN2223.Praxis2.Uthash
open CMemory

variable {β : Type}

abbrev Heap (β : Type) := AList fun _ : Addr => β

/-- `malloc` never hands out a block that is in use. -/
def Fresh (malloc : Heap β → Addr) : Prop := ∀ heap, malloc heap ∉ heap

theorem keys_insert_fresh {heap : Heap β} {a : Addr} (ha : a ∉ heap) (b : β) :
    (heap.insert a b).keys = a :: heap.keys := by
  rw [AList.keys_insert, List.erase_of_not_mem fun hm => ha (AList.mem_keys.mpr hm)]

/-- No table yet, in memory of any content. -/
def UTHash.new (hh : UTHashHandles) : UTHash β := ⟨none, none, hh, ∅⟩

/-- The table at `u` holds the entries `l`, in this order. -/
def Lists (keyOf : β → Bytes) (u : UTHash β) (xs : List Addr) (l : List β) : Prop :=
  List.Forall₂ (fun a e => u.heap.lookup a = some e ∧ u.hh.key a = keyOf e) xs l

structure Stands (keyOf : β → Bytes) (u : UTHash β) (xs : List Addr) (l : List β) : Prop where
  rep : Rep u xs
  lists : Lists keyOf u xs l
  unique : l.Pairwise fun x y => keyOf x ≠ keyOf y

theorem Rep.withHeap {u : UTHash β} {xs : List Addr} (h : Rep u xs) (heap : Heap β)
    (hlive : ∀ a ∈ xs, a ∈ heap) : Rep { u with heap := heap } xs where
  head := h.head
  app := h.app
  nodup := h.nodup
  live := hlive
  keyed := h.keyed
  table := h.table

theorem stands_new (keyOf : β → Bytes) (hh : UTHashHandles) :
    Stands keyOf (UTHash.new hh : UTHash β) [] [] where
  rep := ⟨rfl, trivial, List.nodup_nil, by simp, by simp, fun h => absurd rfl h⟩
  lists := List.Forall₂.nil
  unique := List.Pairwise.nil

variable {keyOf : β → Bytes} {u : UTHash β} {xs : List Addr} {l : List β}

theorem Lists.exists_of_mem (h : Lists keyOf u xs l) {a : Addr} (ha : a ∈ xs) :
    ∃ e ∈ l, u.heap.lookup a = some e ∧ u.hh.key a = keyOf e := by
  induction h with
  | nil => simp at ha
  | cons hr _ ih =>
    rcases List.mem_cons.mp ha with rfl | ha
    · exact ⟨_, by simp, hr⟩
    · obtain ⟨e, he, hre⟩ := ih ha
      exact ⟨e, by simp [he], hre⟩

theorem Lists.exists_addr (h : Lists keyOf u xs l) {e : β} (he : e ∈ l) :
    ∃ a ∈ xs, u.heap.lookup a = some e ∧ u.hh.key a = keyOf e := by
  induction h with
  | nil => simp at he
  | cons hr _ ih =>
    rcases List.mem_cons.mp he with rfl | he
    · exact ⟨_, by simp, hr⟩
    · obtain ⟨a, ha, hra⟩ := ih he
      exact ⟨a, by simp [ha], hra⟩

theorem find_of_unique (h : l.Pairwise fun x y => keyOf x ≠ keyOf y) {e : β} (he : e ∈ l) :
    l.find? (fun x => keyOf x == keyOf e) = some e := by
  induction l with
  | nil => simp at he
  | cons y l ih =>
    rw [List.pairwise_cons] at h
    rcases List.mem_cons.mp he with rfl | he
    · simp
    · rw [List.find?_cons_of_neg (by simpa using h.1 e he), ih h.2 he]

/-- A search on the pointers finds the struct of the entry a search of the list
finds. -/
theorem Stands.find (h : Stands keyOf u xs l) (key : Bytes) :
    (∃ a e, hashFind u key key.length = .ok (some a) ∧ a ∈ xs ∧ u.heap.lookup a = some e ∧
      u.hh.key a = key ∧ l.find? (fun x => keyOf x == key) = some e) ∨
    hashFind u key key.length = .ok none ∧ l.find? (fun x => keyOf x == key) = none := by
  obtain ⟨r, hrun, hsome, hnone⟩ := hashFind_spec h.rep key
  cases r with
  | some a =>
    obtain ⟨ha, hk⟩ := hsome a rfl
    obtain ⟨e, he, hlook, hke⟩ := h.lists.exists_of_mem ha
    have hkey : keyOf e = key := by rw [← hke, hk]
    refine Or.inl ⟨a, e, hrun, ha, hlook, hk, ?_⟩
    rw [← hkey]
    exact find_of_unique h.unique he
  | none =>
    refine Or.inr ⟨hrun, List.find?_eq_none.mpr fun e he hke => ?_⟩
    obtain ⟨a, ha, -, hka⟩ := h.lists.exists_addr he
    exact hnone rfl a ha (by rw [hka]; simpa using hke)

theorem Lists.erase (h : Lists keyOf u xs l) (hnd : xs.Nodup)
    (huniq : l.Pairwise fun x y => keyOf x ≠ keyOf y) {a : Addr} (ha : a ∈ xs) :
    Lists keyOf u (xs.erase a) (l.eraseP fun x => keyOf x == u.hh.key a) := by
  induction h with
  | nil => simp at ha
  | cons hr hrest ih =>
    rename_i x e xs l
    rw [List.pairwise_cons] at huniq
    obtain ⟨hx, hnd⟩ := List.nodup_cons.mp hnd
    by_cases hxa : x = a
    · subst hxa
      rw [List.erase_cons_head, List.eraseP_cons_of_pos (by simp [hr.2])]
      exact hrest
    · have hin : a ∈ xs := (List.mem_cons.mp ha).resolve_left (Ne.symm hxa)
      obtain ⟨e', he', -, hke'⟩ := Lists.exists_of_mem hrest hin
      have hne : keyOf e ≠ u.hh.key a := by
        rw [hke']
        exact huniq.1 e' he'
      rw [List.erase_cons_tail (by simpa using hxa), List.eraseP_cons_of_neg (by simpa using hne)]
      exact List.Forall₂.cons hr (ih hnd huniq.2 hin)

theorem Lists.congr {u' : UTHash β} (h : Lists keyOf u xs l)
    (hheap : ∀ a ∈ xs, u'.heap.lookup a = u.heap.lookup a)
    (hkey : ∀ a ∈ xs, u'.hh.key a = u.hh.key a) : Lists keyOf u' xs l := by
  induction h with
  | nil => exact List.Forall₂.nil
  | cons hr hrest ih =>
    refine List.Forall₂.cons ⟨(hheap _ (by simp)).trans hr.1, (hkey _ (by simp)).trans hr.2⟩ ?_
    exact ih (fun a ha => hheap a (by simp [ha])) fun a ha => hkey a (by simp [ha])

/-- Deleting the struct a search found takes its entry out of the list. -/
theorem Stands.delete (h : Stands keyOf u xs l) {a : Addr} (ha : a ∈ xs) :
    ∃ u', hashDelete u a = .ok u' ∧ u'.heap = u.heap ∧
      Stands keyOf u' (xs.erase a) (l.eraseP fun x => keyOf x == u.hh.key a) := by
  obtain ⟨u', hrun, hrep, hheap, hkey⟩ := hashDelete_spec h.rep ha
  refine ⟨u', hrun, hheap, hrep, ?_, List.Pairwise.sublist List.eraseP_sublist h.unique⟩
  exact (h.lists.erase h.rep.nodup h.unique ha).congr (fun b _ => by rw [hheap])
    fun b _ => by rw [hkey]

/-- Structs that are not in the table may be written, allocated and freed. -/
theorem Stands.withHeap (h : Stands keyOf u xs l) (heap : Heap β)
    (hsame : ∀ a ∈ xs, heap.lookup a = u.heap.lookup a) :
    Stands keyOf { u with heap := heap } xs l where
  rep := h.rep.withHeap heap fun a ha => by
    rw [← AList.lookup_isSome, hsame a ha, AList.lookup_isSome]
    exact h.rep.live a ha
  lists := h.lists.congr hsame fun _ _ => rfl
  unique := h.unique

/-- A new struct with a key of its own becomes the last entry. -/
theorem Stands.add {alloc : ℕ → Bool} (halloc : NoGiant alloc) (h : Stands keyOf u xs l) {a : Addr}
    {e : β} {key : Bytes} (hshort : key.length < 2^32) (hlook : u.heap.lookup a = some e)
    (hkey : keyOf e = key) (ha : a ∉ xs) (hnew : ∀ x ∈ l, keyOf x ≠ key) :
    (∃ size, alloc size = false ∧ hashAddKeyptr alloc u key key.length a = .error (.fatal size)) ∨
    ∃ u', hashAddKeyptr alloc u key key.length a = .ok u' ∧ u'.heap = u.heap ∧
      Stands keyOf u' (xs ++ [a]) (l ++ [e]) := by
  have hlive : a ∈ u.heap := by
    rw [← AList.lookup_isSome, hlook]
    rfl
  rcases hashAddKeyptr_spec halloc h.rep hshort hlive ha with he | ⟨u', hrun, hrep, hheap, hkeys⟩
  · exact Or.inl he
  · refine Or.inr ⟨u', hrun, hheap, hrep, ?_, ?_⟩
    · refine List.rel_append (h.lists.congr (fun b _ => by rw [hheap]) fun b hb => ?_)
        (List.Forall₂.cons ⟨by rw [hheap, hlook], ?_⟩ List.Forall₂.nil)
      · rw [hkeys, Function.update_of_ne (ne_of_mem_of_not_mem hb ha)]
      · rw [hkeys, Function.update_self, hkey]
    · rw [List.pairwise_append]
      refine ⟨h.unique, List.pairwise_singleton _ _, fun x hx y hy => ?_⟩
      rw [List.mem_singleton.mp hy, hkey]
      exact hnew x hx

/-! ### Memory for the structs -/

/-- The code around uthash uses a block without a look at what `malloc` returned. -/
def mallocUsed (alloc : ℕ → Bool) (size : ℕ) : Except Abort Unit :=
  if alloc size then .ok () else .error (.unchecked size)

/-- A block that `n` bytes are copied into; of no bytes, nothing is written. -/
def mallocFilled (alloc : ℕ → Bool) (n : ℕ) : Except Abort Unit :=
  if n = 0 then .ok () else mallocUsed alloc n

/-- `malloc` has refused a block: uthash exits, the code around it uses the `NULL`. -/
def Refused {α : Type} (alloc : ℕ → Bool) (r : Except Abort α) : Prop :=
  ∃ size, alloc size = false ∧ (r = .error (.fatal size) ∨ r = .error (.unchecked size))

section
variable {α γ : Type} {alloc : ℕ → Bool}

theorem Refused.bind {r : Except Abort α} (h : Refused alloc r) (f : α → Except Abort γ) :
    Refused alloc (r >>= f) := by
  obtain ⟨size, hno, rfl | rfl⟩ := h
  · exact ⟨size, hno, Or.inl rfl⟩
  · exact ⟨size, hno, Or.inr rfl⟩

theorem refused_not_ok {a : α} : ¬ Refused alloc (.ok a : Except Abort α) := by
  rintro ⟨size, -, h | h⟩ <;> cases h

theorem mallocUsed_cases (alloc : ℕ → Bool) (size : ℕ) :
    Refused alloc (mallocUsed alloc size) ∨ mallocUsed alloc size = .ok () := by
  cases hsize : alloc size with
  | true => exact Or.inr (if_pos hsize)
  | false => exact Or.inl ⟨size, hsize, Or.inr (if_neg (by rw [hsize]; decide))⟩

theorem mallocFilled_cases (alloc : ℕ → Bool) (n : ℕ) :
    Refused alloc (mallocFilled alloc n) ∨ mallocFilled alloc n = .ok () := by
  by_cases hn : n = 0
  · exact Or.inr (if_pos hn)
  · rw [mallocFilled, if_neg hn]
    exact mallocUsed_cases alloc n

/-- What comes first is refused, or what comes behind it is all there is. -/
theorem refused_or_eq {p : Except Abort Unit} (h : Refused alloc p ∨ p = .ok ())
    (q : Except Abort α) : Refused alloc (p >>= fun _ => q) ∨ (p >>= fun _ => q) = q := by
  obtain h | rfl := h
  · exact Or.inl (h.bind _)
  · exact Or.inr rfl

/-- A struct with copies of a key and a value. -/
theorem copies_refused_or_eq (alloc : ℕ → Bool) (size keyLen valueLen : ℕ) (q : Except Abort α) :
    Refused alloc (mallocUsed alloc size >>= fun _ => mallocFilled alloc keyLen >>= fun _ =>
      mallocFilled alloc valueLen >>= fun _ => q) ∨
    (mallocUsed alloc size >>= fun _ => mallocFilled alloc keyLen >>= fun _ =>
      mallocFilled alloc valueLen >>= fun _ => q) = q := by
  rcases refused_or_eq (mallocUsed_cases alloc size) _ with hno | heq
  · exact Or.inl hno
  rw [heq]
  rcases refused_or_eq (mallocFilled_cases alloc keyLen) _ with hno | heq
  · exact Or.inl hno
  rw [heq]
  exact refused_or_eq (mallocFilled_cases alloc valueLen) q

end

/-! ### The key-value store -/

/-- `HASH_DEL` and `free` of an entry, if there is one (`hash_table.c:30-35`,
`hash_table.c:67-76`). -/
def deleteFound (u : UTHash HtEntry) : Option Addr → Except Abort (UTHash HtEntry)
  | none => .ok u
  | some entry => do
    let u ← hashDelete u entry
    .ok { u with heap := u.heap.erase entry }

/-- `htable_set` (`hash_table.c:21-49`); a `struct htable` has 88 bytes. -/
def htableSet (alloc : ℕ → Bool) (malloc : Heap HtEntry → Addr) (u : UTHash HtEntry) (key : Bytes)
    (keyLen : ℕ) (value : Bytes) (valueLen : ℕ) : Except Abort (UTHash HtEntry) := do
  let entry ← hashFind u key keyLen
  let u ← deleteFound u entry
  mallocUsed alloc 88
  mallocFilled alloc keyLen
  mallocFilled alloc valueLen
  let entry := malloc u.heap
  let k ← attempt (memcpy key keyLen)
  let v ← attempt (memcpy value valueLen)
  hashAddKeyptr alloc { u with heap := u.heap.insert entry ⟨k, v⟩ } k keyLen entry

/-- `htable_get` (`hash_table.c:51-61`). -/
def htableGet (u : UTHash HtEntry) (key : Bytes) (keyLen : ℕ) : Except Abort (Option Addr) :=
  hashFind u key keyLen

/-- `htable_delete` (`hash_table.c:63-80`). -/
def htableDelete (u : UTHash HtEntry) (key : Bytes) (keyLen : ℕ) :
    Except Abort (UTHash HtEntry) := do
  let toDelete ← hashFind u key keyLen
  deleteFound u toDelete

/-- The store holds the entries of `ht`, and every struct that was allocated and
not freed is one of them. -/
def Holds (u : UTHash HtEntry) (ht : HTable) : Prop :=
  ∃ xs, Stands HtEntry.key u xs ht ∧ u.heap.keys.Perm xs

theorem holds_new (hh : UTHashHandles) : Holds (UTHash.new hh) [] :=
  ⟨[], stands_new HtEntry.key hh, List.Perm.refl _⟩

/-- A search, and the deletion of what it finds. -/
theorem Holds.remove {u : UTHash HtEntry} {ht : HTable} (h : Holds u ht) (key : Bytes) :
    ∃ r u', hashFind u key key.length = .ok r ∧ deleteFound u r = .ok u' ∧
      Holds u' (ht.remove key) := by
  obtain ⟨xs, hs, hperm⟩ := h
  rcases hs.find key with ⟨a, e, hrun, ha, -, hk, -⟩ | ⟨hrun, hnone⟩
  · obtain ⟨u', hdel, hheap, hs'⟩ := hs.delete ha
    rw [hk] at hs'
    refine ⟨some a, { u' with heap := u'.heap.erase a }, hrun, ?_, xs.erase a,
      hs'.withHeap _ fun b hb => ?_, ?_⟩
    · rw [deleteFound, hdel, abort_ok_bind]
    · exact AList.lookup_erase_ne (hs.rep.nodup.mem_erase_iff.mp hb).1
    · rw [AList.keys_erase, hheap]
      exact hperm.erase a
  · refine ⟨none, u, hrun, rfl, xs, ?_, hperm⟩
    rw [remove_of_absent hnone]
    exact hs

theorem htableSet_holds {alloc : ℕ → Bool} (halloc : NoGiant alloc) {malloc : Heap HtEntry → Addr}
    (hfresh : Fresh malloc) {u : UTHash HtEntry} {ht : HTable} (h : Holds u ht) {key : Bytes}
    (hshort : key.length < 2^32) (value : Bytes) :
    Refused alloc (htableSet alloc malloc u key key.length value value.length) ∨
    ∃ u', htableSet alloc malloc u key key.length value value.length = .ok u' ∧
      Holds u' (ht.remove key ++ [⟨key, value⟩]) := by
  have huniq : ht.Unique := by
    obtain ⟨xs, hs, -⟩ := h
    exact hs.unique
  obtain ⟨r, u1, hfind, hrem, xs, hs, hperm⟩ := h.remove key
  let added := hashAddKeyptr alloc
    { u1 with heap := u1.heap.insert (malloc u1.heap) ⟨key, value⟩ } key key.length (malloc u1.heap)
  have hset : htableSet alloc malloc u key key.length value value.length =
      mallocUsed alloc 88 >>= fun _ => mallocFilled alloc key.length >>= fun _ =>
        mallocFilled alloc value.length >>= fun _ => added := by
    simp only [htableSet, hfind, hrem, abort_ok_bind, memcpy_length, attempt_ok, added]
  rw [hset]
  rcases copies_refused_or_eq alloc 88 key.length value.length added with hno | heq
  · exact Or.inl hno
  rw [heq]
  have hnot : malloc u1.heap ∉ xs := fun hm => hfresh u1.heap (hs.rep.live _ hm)
  have hs' := hs.withHeap (u1.heap.insert (malloc u1.heap) ⟨key, value⟩)
    fun a ha => AList.lookup_insert_ne (ne_of_mem_of_not_mem ha hnot)
  rcases hs'.add halloc hshort (AList.lookup_insert ..) rfl hnot (remove_key_ne huniq key) with
    ⟨size, hsize, he⟩ | ⟨u', he, hheap, hs''⟩
  · exact Or.inl ⟨size, hsize, Or.inl he⟩
  · refine Or.inr ⟨u', he, _, hs'', ?_⟩
    rw [hheap, keys_insert_fresh (hfresh u1.heap)]
    exact (List.Perm.cons _ hperm).trans (List.perm_append_singleton _ _).symm

theorem htableDelete_holds {u : UTHash HtEntry} {ht : HTable} (h : Holds u ht) (key : Bytes) :
    ∃ u', htableDelete u key key.length = .ok u' ∧ Holds u' (ht.remove key) := by
  obtain ⟨r, u', hfind, hrem, hh⟩ := h.remove key
  exact ⟨u', by rw [htableDelete, hfind, abort_ok_bind, hrem], hh⟩

theorem htableGet_holds {u : UTHash HtEntry} {ht : HTable} (h : Holds u ht) (key : Bytes) :
    ∃ r, htableGet u key key.length = .ok r ∧
      (r.bind fun a => u.heap.lookup a) = Praxis2.hashFind ht key := by
  obtain ⟨xs, hs, -⟩ := h
  rcases hs.find key with ⟨a, e, hrun, -, hlook, -, hfind⟩ | ⟨hrun, hnone⟩
  · exact ⟨some a, hrun, hlook.trans hfind.symm⟩
  · exact ⟨none, hrun, hnone.symm⟩

/-! ### Runs of the store -/

/-- A call with the buffers it is passed, and what `malloc` would answer. -/
inductive HtCall where
  | set (malloc : Heap HtEntry → Addr) (key value : Bytes)
  | get (key : Bytes)
  | delete (key : Bytes)

/-- Lengths are 16-bit in every packet, so no caller has a key of 4 GiB. -/
def HtCall.Right : HtCall → Prop
  | .set malloc key _ => Fresh malloc ∧ key.length < 2^32
  | .get _ => True
  | .delete _ => True

/-- A call and the struct `htable_get` points to. -/
def HtCall.step (alloc : ℕ → Bool) (u : UTHash HtEntry) :
    HtCall → Except Abort (UTHash HtEntry × Option HtEntry)
  | .set malloc key value => do
    let u ← htableSet alloc malloc u key key.length value value.length
    .ok (u, none)
  | .get key => do
    let r ← htableGet u key key.length
    .ok (u, r.bind fun a => u.heap.lookup a)
  | .delete key => do
    let u ← htableDelete u key key.length
    .ok (u, none)

def htableRun (alloc : ℕ → Bool) (u : UTHash HtEntry) :
    List HtCall → Except Abort (UTHash HtEntry × List (Option HtEntry))
  | [] => .ok (u, [])
  | c :: cs => do
    let (u, a) ← c.step alloc u
    let (u, as) ← htableRun alloc u cs
    .ok (u, a :: as)

/-- The same call on the list. -/
def HtCall.onList (ht : HTable) : HtCall → Except Fault (HTable × Option HtEntry)
  | .set _ key value => do
    let ht ← Praxis2.htableSet ht key key.length value value.length
    .ok (ht, none)
  | .get key => do
    let e ← Praxis2.htableGet ht key key.length
    .ok (ht, e)
  | .delete key => do
    let ht ← Praxis2.htableDelete ht key key.length
    .ok (ht, none)

def listRun (ht : HTable) : List HtCall → Except Fault (HTable × List (Option HtEntry))
  | [] => .ok (ht, [])
  | c :: cs => do
    let (ht, a) ← c.onList ht
    let (ht, as) ← listRun ht cs
    .ok (ht, a :: as)

theorem HtCall.step_refines {alloc : ℕ → Bool} (halloc : NoGiant alloc) {u : UTHash HtEntry}
    {ht : HTable} (h : Holds u ht) {c : HtCall} (hc : c.Right) :
    Refused alloc (c.step alloc u) ∨
    ∃ u' ht' a, c.step alloc u = .ok (u', a) ∧ c.onList ht = .ok (ht', a) ∧ Holds u' ht' := by
  cases c with
  | set malloc key value =>
    rcases htableSet_holds halloc hc.1 h hc.2 value with hno | ⟨u', he, hh⟩
    · exact Or.inl (hno.bind _)
    · refine Or.inr ⟨u', _, none, by rw [HtCall.step, he, abort_ok_bind], ?_, hh⟩
      rw [HtCall.onList, htableSet_exact rfl rfl, ok_bind]
  | get key =>
    obtain ⟨r, hr, hlook⟩ := htableGet_holds h key
    refine Or.inr ⟨u, ht, Praxis2.hashFind ht key, ?_, ?_, h⟩
    · rw [HtCall.step, hr, abort_ok_bind, hlook]
    · rw [HtCall.onList, htableGet_exact rfl, ok_bind]
  | delete key =>
    obtain ⟨u', he, hh⟩ := htableDelete_holds h key
    refine Or.inr ⟨u', _, none, by rw [HtCall.step, he, abort_ok_bind], ?_, hh⟩
    rw [HtCall.onList, htableDelete_exact rfl, ok_bind]

theorem htableRun_from {alloc : ℕ → Bool} (halloc : NoGiant alloc) {cs : List HtCall}
    (hcs : ∀ c ∈ cs, c.Right) {u : UTHash HtEntry} {ht : HTable} (h : Holds u ht) :
    Refused alloc (htableRun alloc u cs) ∨
    ∃ u' ht' as, htableRun alloc u cs = .ok (u', as) ∧ listRun ht cs = .ok (ht', as) ∧
      Holds u' ht' := by
  induction cs generalizing u ht with
  | nil => exact Or.inr ⟨u, ht, [], rfl, rfl, h⟩
  | cons c cs ih =>
    rcases HtCall.step_refines halloc h (hcs c (by simp)) with hno | ⟨u1, ht1, a, he, hl, h1⟩
    · exact Or.inl (hno.bind _)
    · have hrun : htableRun alloc u (c :: cs) = htableRun alloc u1 cs >>= fun r =>
          .ok (r.1, a :: r.2) := by
        simp only [htableRun, he, abort_ok_bind]
      rw [hrun]
      rcases ih (fun d hd => hcs d (by simp [hd])) h1 with hno | ⟨u', ht', as, he', hl', h'⟩
      · exact Or.inl (hno.bind _)
      · refine Or.inr ⟨u', ht', a :: as, ?_, ?_, h'⟩
        · rw [he', abort_ok_bind]
        · simp only [listRun, hl, ok_bind, hl']

example : htableRun (fun size => size == 64 || size == 512) (UTHash.new zeroHandles)
    [.set (fun heap => heap.keys.sum + 1) [107] [1]] = .error (.unchecked 88) := rfl

/-- After every run that `malloc` has not ended the table passes the checks of
`HASH_FSCK`, and there are as many structs as entries: no entry that left the table is
still allocated. No key has 2^32 bytes, and `malloc` grants no block of 64 GiB. -/
theorem htableRun_fsck {alloc : ℕ → Bool} (halloc : NoGiant alloc) {cs : List HtCall}
    (hcs : ∀ c ∈ cs, c.Right) (hh : UTHashHandles) {u : UTHash HtEntry}
    {as : List (Option HtEntry)} (hrun : htableRun alloc (UTHash.new hh) cs = .ok (u, as)) :
    hashFsck u = .ok () ∧
      ∃ ht, listRun [] cs = .ok (ht, as) ∧ u.heap.keys.length = ht.length := by
  rcases htableRun_from halloc hcs (holds_new hh) with
    hno | ⟨u', ht, as', he, hl, xs, hs, hperm⟩
  · rw [hrun] at hno
    exact absurd hno refused_not_ok
  · rw [hrun] at he
    cases he
    exact ⟨hashFsck_ok hs.rep, ht, hl, hperm.length_eq.trans hs.lists.length_eq⟩

/-! ### A machine to run on -/

def nextBlock (heap : Heap β) : Addr := heap.keys.sum + 1

theorem nextBlock_fresh : Fresh (nextBlock : Heap β → Addr) := fun _ h =>
  Nat.not_succ_le_self _ (List.le_sum_of_mem (AList.mem_keys.mp h))

/-- A key set twice, read, deleted and read again. -/
def setTwice : List HtCall :=
  [.set nextBlock [107] [1], .set nextBlock [107] [2], .get [107], .delete [107], .get [107]]

theorem setTwice_right : ∀ c ∈ setTwice, c.Right := by
  intro c hc
  simp only [setTwice, List.mem_cons, List.not_mem_nil, or_false] at hc
  rcases hc with rfl | rfl | rfl | rfl | rfl
  · exact ⟨nextBlock_fresh, by decide⟩
  · exact ⟨nextBlock_fresh, by decide⟩
  all_goals trivial

theorem setTwice_answers : ((htableRun upTo64GiB (UTHash.new zeroHandles) setTwice).map
    Prod.snd).toOption = some [none, none, some ⟨[107], [2]⟩, none, none] := rfl

theorem htableRun_fsck_setTwice : ∃ u as,
    htableRun upTo64GiB (UTHash.new zeroHandles) setTwice = .ok (u, as) ∧ hashFsck u = .ok () := by
  have hanswers := setTwice_answers
  cases h : htableRun upTo64GiB (UTHash.new zeroHandles) setTwice with
  | ok r => exact ⟨r.1, r.2, rfl, (htableRun_fsck upTo64GiB_noGiant setTwice_right zeroHandles h).1⟩
  | error e =>
    rw [h] at hanswers
    cases hanswers

end RN2223.Praxis2.Uthash

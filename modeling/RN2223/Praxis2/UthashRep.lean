import RN2223.Praxis2.UthashExpand

/-!
# What a uthash table holds

`Rep u xs`: the table holds the elements `xs`, in the order they were added. The
three operations the program uses keep it, and a search finds an element exactly
if one with the key is there.
-/

namespace RN2223.Praxis2.Uthash
open CMemory

variable {β : Type}

structure Rep (u : UTHash β) (xs : List Addr) : Prop where
  head : u.head = xs.head?
  app : u.hh.app.Chain xs
  nodup : xs.Nodup
  live : ∀ a ∈ xs, a ∈ u.heap
  keyed : ∀ a ∈ xs, Keyed u.hh a
  table : xs ≠ [] → ∃ t f, u.tbl = some t ∧ TableOk u.hh t xs f

variable {u : UTHash β} {xs : List Addr}

theorem table_eq {t : UTHashTable} {a : Addr} (hhead : u.head = some a) (hlive : a ∈ u.heap)
    (htbl : u.tbl = some t) : u.table = .ok t := by
  rw [UTHash.table, hhead, htbl]
  simp only [deref_ok hlive, abort_ok_bind]

theorem TableOk.mem_iff {hh : UTHashHandles} {t : UTHashTable} {f : ℕ → List Addr}
    (h : TableOk hh t xs f) {i : ℕ} {a : Addr} (ha : a ∈ f i) : a ∈ xs :=
  (h.members a).mp (h.buckets.chains.mem_own ha)

theorem TableOk.fuel {hh : UTHashHandles} {t : UTHashTable} {f : ℕ → List Addr}
    (h : TableOk hh t xs f) (hlive : ∀ a ∈ xs, a ∈ u.heap) (i : ℕ) : (f i).length ≤ u.fuel :=
  (List.subperm_of_subset (h.buckets.chains.nodup i) fun a ha =>
    AList.mem_keys.mp (hlive a (h.mem_iff ha))).length_le

/-! ### HASH_FIND -/

/-- `HASH_FIND` comes back with an element of the table that has the key, and
with `NULL` only if there is none. -/
theorem hashFind_spec (h : Rep u xs) (key : Bytes) :
    ∃ r, hashFind u key key.length = .ok r ∧ (∀ a, r = some a → a ∈ xs ∧ u.hh.key a = key) ∧
      (r = none → ∀ a ∈ xs, u.hh.key a ≠ key) := by
  cases xs with
  | nil => exact ⟨none, by rw [hashFind, h.head]; rfl, by simp, by simp⟩
  | cons x xs =>
    obtain ⟨t, f, htbl, ht⟩ := h.table (by simp)
    have hhead : u.head = some x := h.head
    have htab := table_eq hhead (h.live x (by simp)) htbl
    obtain ⟨hashv, hhash⟩ := hashJen_ok key
    obtain ⟨b, hat, hget⟩ := ht.buckets.bucketAt_hash hashv
    have hrun := findInBkt_eq (ht.buckets.chains.chain (hashToBkt hashv t.numBuckets).toNat)
      (ht.fuel h.live _) (fun a ha => h.live a (ht.mem_iff ha)) (fun a ha => h.keyed a (ht.mem_iff ha)) hhash
    refine ⟨(f (hashToBkt hashv t.numBuckets).toNat).find? fun a => u.hh.key a == key, ?_, ?_, ?_⟩
    · rw [hashFind, hhead]
      simp only [hhash, attempt_ok, abort_ok_bind, htab, hat, ht.buckets.hhHead_eq hget, hrun]
    · intro a ha
      exact ⟨ht.mem_iff (List.mem_of_find?_eq_some ha), by simpa using List.find?_some ha⟩
    · intro hnone a ha hk
      -- an element with the key has its hash, so it hangs in the bucket that was searched
      have hv : u.hh.hashv a = hashv := by
        have hka := (h.keyed a ha).hashv
        rw [hk, hhash] at hka
        exact (Except.ok.inj hka).symm
      have hmem := (ht.members a).mpr ha
      rw [bucketIndex, hv] at hmem
      simpa [hk] using List.find?_eq_none.mp hnone a hmem

/-! ### HASH_ADD_KEYPTR -/

theorem Buckets.congr_hashv {buckets : List UTHashBucket} {n : UInt32} {hashv hashv' : Addr → UInt32}
    {l : ListLinks Addr} {f : ℕ → List Addr} (h : Buckets buckets n hashv l f)
    (heq : ∀ i, ∀ a ∈ f i, hashv' a = hashv a) : Buckets buckets n hashv' l f where
  size := h.size
  pow := h.pow
  chains := {
    head_eq := h.chains.head_eq
    chain := h.chains.chain
    nodup := h.chains.nodup
    placed := fun i a ha => by rw [bucketIndex, heq i a ha]; exact h.chains.placed i a ha }
  counts := h.counts

/-- The bucket part of an addition: the element is already the last one in
application order. -/
theorem hashAddToTable_spec {alloc : ℕ → Bool} (halloc : NoGiant alloc) {t : UTHashTable}
    {f : ℕ → List Addr} {x : Addr} {h : Addr} (hhead : u.head = some h) (hh : h ∈ u.heap)
    (htbl : u.tbl = some t) (hlive : ∀ a ∈ xs ++ [x], a ∈ u.heap) (hx : x ∉ xs)
    (hb : Buckets t.buckets t.numBuckets u.hh.hashv u.hh.bkt f)
    (hpow : t.numBuckets.toNat = 2 ^ t.log2NumBuckets.toNat) (hlog : t.log2NumBuckets.toNat ≤ 31)
    (hitems : t.numItems = UInt32.ofNat xs.length) (htail : t.tail = some x)
    (hin : ∀ i, ∀ a ∈ f i, a ∈ xs)
    (hown : ∀ a ∈ xs, a ∈ f (bucketIndex u.hh.hashv t.numBuckets a)) :
    (∃ size, alloc size = false ∧ hashAddToTable alloc u (u.hh.hashv x) x = .error (.fatal size)) ∨
    ∃ l t' f', hashAddToTable alloc u (u.hh.hashv x) x =
        .ok { u with hh := { u.hh with bkt := l }, tbl := some t' } ∧
      TableOk { u.hh with bkt := l } t' (xs ++ [x]) f' := by
  obtain ⟨b, hat, hget⟩ := hb.bucketAt_hash (u.hh.hashv x)
  have hfree : x ∉ f (bucketIndex u.hh.hashv t.numBuckets x) := fun hm => hx (hin _ x hm)
  have hderef : u.derefIf b.hhHead = .ok () := derefIf_ok fun a ha => by
    rw [hb.hhHead_eq hget] at ha
    exact hlive a (List.mem_append_left _ (hin _ a (List.mem_of_mem_head? ha)))
  let b' : UTHashBucket := { b with count := b.count + 1, hhHead := some x }
  let t' : UTHashTable := { t with
    numItems := t.numItems + 1
    buckets := t.buckets.set (hashToBkt (u.hh.hashv x) t.numBuckets).toNat b' }
  let u' : UTHash β := { u with
    hh := { u.hh with bkt := u.hh.bkt.pushFront b.hhHead x }, tbl := some t' }
  have ht' : TableOk u'.hh t' (xs ++ [x]) _ := {
    buckets := hb.push b' hfree hget rfl rfl
    pow := hpow
    log_le := hlog
    items := by
      change t.numItems + 1 = _
      rw [hitems, List.length_append, UInt32.ofNat_add]
      rfl
    tail := by rw [List.getLast?_append, List.getLast?_singleton, Option.some_or]; exact htail
    members := fun a => by
      rw [Chains.mem_push, List.mem_append, List.mem_singleton, or_comm]
      exact or_congr_left ⟨hin _ a, hown a⟩ }
  have hrun : hashAddToTable alloc u (u.hh.hashv x) x =
      if (b'.expandMult + 1) * 10 ≤ b'.count ∧ t'.noexpand = 0 then hashExpandBuckets alloc u' t'
      else .ok u' := by
    rw [hashAddToTable, table_eq hhead hh htbl]
    simp only [abort_ok_bind, deref_ok (hlive x (by simp)), hashAddToBkt, hat, hderef]
    rfl
  rw [hrun]
  split
  · rcases hashExpandBuckets_moves (P := fun _ _ => True) halloc ht' hlive
      (fun _ _ _ _ _ _ _ _ _ _ => trivial) trivial with ⟨hno, he⟩ | ⟨e, f', he, hok, -⟩
    · exact Or.inl ⟨_, hno, he⟩
    · exact Or.inr ⟨e.bkt, _, f', he, hok⟩
  · exact Or.inr ⟨_, t', _, rfl, ht'⟩

theorem Keyed.setKey {hh : UTHashHandles} {a x : Addr} (h : Keyed hh a) (hne : a ≠ x) (key : Bytes)
    (keylen : ℕ) (hashval : UInt32) : Keyed (hh.setKey x key keylen hashval) a := by
  constructor
  · simpa only [UTHashHandles.setKey, Function.update_of_ne hne] using h.short
  · simpa only [UTHashHandles.setKey, Function.update_of_ne hne] using h.keylen
  · simpa only [UTHashHandles.setKey, Function.update_of_ne hne] using h.hashv

theorem keyed_setKey (hh : UTHashHandles) (x : Addr) {key : Bytes} {hashval : UInt32}
    (hshort : key.length < 2^32) (hhash : hashJen key key.length = .ok hashval) :
    Keyed (hh.setKey x key key.length hashval) x := by
  constructor
  · simpa only [UTHashHandles.setKey, Function.update_self] using hshort
  · simp only [UTHashHandles.setKey, Function.update_self]
  · simpa only [UTHashHandles.setKey, Function.update_self] using hhash

theorem hashAppendList_eq {t : UTHashTable} {y x tail : Addr} (hhead : u.head = some y)
    (hy : y ∈ u.heap) (htbl : u.tbl = some t) (hx : x ∈ u.heap) (htail : t.tail = some tail)
    (hlast : tail ∈ u.heap) :
    hashAppendList u x = .ok { u with
      hh := { u.hh with app := u.hh.app.append tail x }, tbl := some { t with tail := some x } } := by
  rw [hashAppendList, table_eq hhead hy htbl]
  simp only [abort_ok_bind, deref_ok hx, htail, deref_ok hlast]

section
variable {x : Addr} {key : Bytes} {hashval : UInt32}

theorem Rep.live_added (h : Rep u xs) (hlive : x ∈ u.heap) : ∀ a ∈ xs ++ [x], a ∈ u.heap := by
  intro a ha
  rcases List.mem_append.mp ha with ha | ha
  · exact h.live a ha
  · rwa [List.mem_singleton.mp ha]

theorem Rep.nodup_added (h : Rep u xs) (hx : x ∉ xs) : (xs ++ [x]).Nodup :=
  List.nodup_append.mpr ⟨h.nodup, List.nodup_singleton x, fun a ha b hb => by
    rw [List.mem_singleton.mp hb]
    exact ne_of_mem_of_not_mem ha hx⟩

theorem Rep.keyed_added (h : Rep u xs) (hx : x ∉ xs) (hshort : key.length < 2^32)
    (hhash : hashJen key key.length = .ok hashval) :
    ∀ a ∈ xs ++ [x], Keyed (u.hh.setKey x key key.length hashval) a := by
  intro a ha
  rcases List.mem_append.mp ha with ha | ha
  · exact (h.keyed a ha).setKey (ne_of_mem_of_not_mem ha hx) key key.length hashval
  · rw [List.mem_singleton.mp ha]
    exact keyed_setKey u.hh x hshort hhash

theorem hashMakeTable_cases (alloc : ℕ → Bool) (head : Addr) :
    hashMakeTable alloc head =
      .ok ⟨List.replicate 32 ⟨none, 0, 0⟩, 32, 5, 0, some head, 0, 0, 0, 0⟩ ∨
    ∃ size, alloc size = false ∧ hashMakeTable alloc head = .error (.fatal size) := by
  rcases uthashMalloc_cases alloc 64 with ⟨hm, -⟩ | ⟨hm, hno⟩
  · rcases uthashMalloc_cases alloc (32 * 16) with ⟨hm', -⟩ | ⟨hm', hno⟩
    · exact Or.inl (by rw [hashMakeTable, hm, abort_ok_bind, hm', abort_ok_bind])
    · exact Or.inr ⟨_, hno, by rw [hashMakeTable, hm, abort_ok_bind, hm', abort_error_bind]⟩
  · exact Or.inr ⟨_, hno, by rw [hashMakeTable, hm, abort_error_bind]⟩

/-- The first element makes the table. -/
theorem hashAddKeyptr_first {alloc : ℕ → Bool} (halloc : NoGiant alloc) (h : Rep u [])
    (hshort : key.length < 2^32) (hhash : hashJen key key.length = .ok hashval)
    (hlive : x ∈ u.heap) :
    (∃ size, alloc size = false ∧ hashAddKeyptr alloc u key key.length x = .error (.fatal size)) ∨
    ∃ u', hashAddKeyptr alloc u key key.length x = .ok u' ∧ Rep u' [x] ∧ u'.heap = u.heap ∧
      u'.hh.key = Function.update u.hh.key x key := by
  have hhead : u.head = none := h.head
  have hx : x ∉ ([] : List Addr) := List.not_mem_nil
  have hall := h.live_added hlive
  have hkeyed := h.keyed_added hx hshort hhash
  have hv : (u.hh.setKey x key key.length hashval).hashv x = hashval := Function.update_self ..
  rcases hashMakeTable_cases alloc x with hmake | ⟨size, hno, hmake⟩
  · let t : UTHashTable := ⟨List.replicate 32 ⟨none, 0, 0⟩, 32, 5, 0, some x, 0, 0, 0, 0⟩
    let u' : UTHash β := { u with
      hh := { u.hh.setKey x key key.length hashval with
        app := (u.hh.app.setNext x none).setPrev x none }
      tbl := some t
      head := some x }
    have hrun : hashAddKeyptr alloc u key key.length x = hashAddToTable alloc u' hashval x := by
      simp only [hashAddKeyptr, hhash, attempt_ok, abort_ok_bind, deref_ok hlive, hhead, hmake]
      rfl
    rw [hrun, ← hv]
    rcases hashAddToTable_spec (u := u') halloc (t := t) (f := fun _ => []) rfl hlive
      rfl hall hx (Buckets.empty (n := 32) (k := 5) rfl _ _) rfl
      (by change 5 ≤ 31; decide) rfl rfl (by simp) (by simp) with he | ⟨l, t', f', he, ht'⟩
    · exact Or.inl he
    · refine Or.inr ⟨_, he, ⟨rfl, ?_, List.nodup_singleton x, hall, ?_,
        fun _ => ⟨t', f', rfl, ht'⟩⟩, rfl, rfl⟩
      · exact ⟨ListLinks.setPrev_prev_self .., ListLinks.setNext_next_self .., trivial⟩
      · exact fun a ha => ⟨(hkeyed a ha).short, (hkeyed a ha).keylen, (hkeyed a ha).hashv⟩
  · refine Or.inl ⟨size, hno, ?_⟩
    simp only [hashAddKeyptr, hhash, attempt_ok, abort_ok_bind, deref_ok hlive, hhead, hmake,
      abort_error_bind]

/-- Every other one goes behind the last. -/
theorem hashAddKeyptr_next {alloc : ℕ → Bool} (halloc : NoGiant alloc) {y : Addr} {ys : List Addr}
    (h : Rep u (y :: ys)) (hshort : key.length < 2^32)
    (hhash : hashJen key key.length = .ok hashval) (hlive : x ∈ u.heap) (hx : x ∉ y :: ys) :
    (∃ size, alloc size = false ∧ hashAddKeyptr alloc u key key.length x = .error (.fatal size)) ∨
    ∃ u', hashAddKeyptr alloc u key key.length x = .ok u' ∧ Rep u' (y :: ys ++ [x]) ∧
      u'.heap = u.heap ∧ u'.hh.key = Function.update u.hh.key x key := by
  obtain ⟨t, f, htbl, ht⟩ := h.table (by simp)
  have hhead : u.head = some y := h.head
  have hall := h.live_added hlive
  have hkeyed := h.keyed_added hx hshort hhash
  have hv : (u.hh.setKey x key key.length hashval).hashv x = hashval := Function.update_self ..
  obtain ⟨tail, htail⟩ : ∃ tail, (y :: ys).getLast? = some tail :=
    ⟨_, List.getLast?_eq_some_getLast (List.cons_ne_nil y ys)⟩
  have hlast : tail ∈ u.heap := h.live tail (List.mem_of_getLast? htail)
  let u' : UTHash β := { u with
    hh := { u.hh.setKey x key key.length hashval with app := u.hh.app.append tail x }
    tbl := some { t with tail := some x }
    head := some y }
  have hrun : hashAddKeyptr alloc u key key.length x = hashAddToTable alloc u' hashval x := by
    have happ := hashAppendList_eq
      (u := { u with hh := u.hh.setKey x key key.length hashval }) hhead (h.live y (by simp)) htbl
      hlive (ht.tail.trans htail) hlast
    simp only [hhead] at happ
    simp only [hashAddKeyptr, hhash, attempt_ok, abort_ok_bind, deref_ok hlive, hhead, happ]
    rfl
  have hnew : ∀ i, ∀ a ∈ f i, (u.hh.setKey x key key.length hashval).hashv a = u.hh.hashv a :=
    fun i a ha => Function.update_of_ne (ne_of_mem_of_not_mem (ht.mem_iff ha) hx) ..
  rw [hrun, ← hv]
  rcases hashAddToTable_spec (u := u') halloc (t := { t with tail := some x })
    rfl (h.live y (by simp)) rfl hall hx (ht.buckets.congr_hashv hnew) ht.pow ht.log_le ht.items
    rfl (fun i a ha => ht.mem_iff ha) (fun a ha => by
      have hold := (ht.members a).mpr ha
      rwa [bucketIndex, ← hnew _ a hold] at hold) with he | ⟨l, t', f', he, ht'⟩
  · exact Or.inl he
  · refine Or.inr ⟨_, he, ⟨rfl, ?_, h.nodup_added hx, hall, ?_, fun _ => ⟨t', f', rfl, ht'⟩⟩,
      rfl, rfl⟩
    · exact ListLinks.append_chain h.app htail h.nodup hx
    · exact fun a ha => ⟨(hkeyed a ha).short, (hkeyed a ha).keylen, (hkeyed a ha).hashv⟩

end

/-- The element is the last one in application order, behind all that were there. -/
theorem hashAddKeyptr_spec {alloc : ℕ → Bool} (halloc : NoGiant alloc) (h : Rep u xs) {key : Bytes}
    (hshort : key.length < 2^32) {x : Addr} (hlive : x ∈ u.heap) (hx : x ∉ xs) :
    (∃ size, alloc size = false ∧ hashAddKeyptr alloc u key key.length x = .error (.fatal size)) ∨
    ∃ u', hashAddKeyptr alloc u key key.length x = .ok u' ∧ Rep u' (xs ++ [x]) ∧
      u'.heap = u.heap ∧ u'.hh.key = Function.update u.hh.key x key := by
  obtain ⟨hashval, hhash⟩ := hashJen_ok key
  cases xs with
  | nil => exact hashAddKeyptr_first halloc h hshort hhash hlive
  | cons y ys => exact hashAddKeyptr_next halloc h hshort hhash hlive hx

/-! ### HASH_DELETE -/

theorem hashDelInBkt_spec {t : UTHashTable} {f : ℕ → List Addr} {x : Addr}
    (hlive : ∀ i, ∀ a ∈ f i, a ∈ u.heap)
    (hb : Buckets t.buckets t.numBuckets u.hh.hashv u.hh.bkt f)
    (hx : x ∈ f (bucketIndex u.hh.hashv t.numBuckets x)) :
    ∃ bs, hashDelInBkt u t (hashToBkt (u.hh.hashv x) t.numBuckets) x = .ok { u with
        hh := { u.hh with bkt := u.hh.bkt.unlink x }, tbl := some { t with buckets := bs } } ∧
      Buckets bs t.numBuckets u.hh.hashv (u.hh.bkt.unlink x)
        (Function.update f (bucketIndex u.hh.hashv t.numBuckets x)
          ((f (bucketIndex u.hh.hashv t.numBuckets x)).erase x)) := by
  obtain ⟨b, hat, hget⟩ := hb.bucketAt_hash (u.hh.hashv x)
  have hchain := hb.chains.chain (bucketIndex u.hh.hashv t.numBuckets x)
  have hin := hlive (bucketIndex u.hh.hashv t.numBuckets x)
  obtain ⟨as, bs, hsplit⟩ := List.append_of_mem hx
  rw [hsplit] at hchain hin
  obtain ⟨hp, hn⟩ := hchain.middle
  rw [Option.or_none] at hp hn
  have hprev : u.derefIf (u.hh.bkt.prev x) = .ok () := derefIf_ok fun a ha => by
    rw [hp] at ha
    exact hin a (List.mem_append_left _ (List.mem_of_getLast? ha))
  have hnext : u.derefIf (u.hh.bkt.next x) = .ok () := derefIf_ok fun a ha => by
    rw [hn] at ha
    exact hin a (List.mem_append_right _ (List.mem_cons_of_mem _ (List.mem_of_mem_head? ha)))
  refine ⟨_, ?_, hb.remove ⟨if b.hhHead = some x then u.hh.bkt.next x else b.hhHead,
    b.count - 1, b.expandMult⟩ hx hget rfl rfl⟩
  simp only [hashDelInBkt, hat, abort_ok_bind, hprev, hnext]
  rfl

/-! What `HASH_DELETE_HH` has done when it comes to the buckets. -/

def UTHashTable.tailBefore (t : UTHashTable) (u : UTHash β) (x : Addr) : UTHashTable :=
  if t.tail = some x then { t with tail := u.hh.app.prev x } else t

def UTHash.unlinked (u : UTHash β) (t : UTHashTable) (x : Addr) : UTHash β :=
  { u with
    head := if u.hh.app.prev x = none then u.hh.app.next x else u.head
    hh := { u.hh with app := u.hh.app.unlink x }
    tbl := some (t.tailBefore u x) }

section
variable {t : UTHashTable} {f : ℕ → List Addr} {x : Addr} {as bs : List Addr}

theorem tailBefore_same (t : UTHashTable) (u : UTHash β) (x : Addr) :
    (t.tailBefore u x).buckets = t.buckets ∧ (t.tailBefore u x).numBuckets = t.numBuckets ∧
      (t.tailBefore u x).log2NumBuckets = t.log2NumBuckets ∧
      (t.tailBefore u x).numItems = t.numItems := by
  rw [UTHashTable.tailBefore]
  split <;> exact ⟨rfl, rfl, rfl, rfl⟩

theorem unlinked_head (happ : u.hh.app.Chain (as ++ x :: bs))
    (hhead : u.head = (as ++ x :: bs).head?) : (u.unlinked t x).head = (as ++ bs).head? := by
  obtain ⟨hp, hn⟩ := happ.middle
  rw [Option.or_none] at hp hn
  change (if u.hh.app.prev x = none then u.hh.app.next x else u.head) = _
  rw [hp, hn]
  cases as with
  | nil => exact if_pos rfl
  | cons a as =>
    rw [if_neg (by simp [List.getLast?_cons]), hhead]
    rfl

theorem tailBefore_tail (happ : u.hh.app.Chain (as ++ x :: bs)) (hnd : (as ++ x :: bs).Nodup)
    (htail : t.tail = (as ++ x :: bs).getLast?) :
    (t.tailBefore u x).tail = (as ++ bs).getLast? := by
  obtain ⟨hp, -⟩ := happ.middle
  rw [Option.or_none] at hp
  rcases List.eq_nil_or_concat bs with rfl | ⟨cs, c, rfl⟩
  · rw [List.getLast?_append, List.getLast?_singleton, Option.some_or] at htail
    rw [UTHashTable.tailBefore, if_pos htail, List.append_nil, hp]
  · have hxc : c ≠ x := fun he =>
      (List.nodup_cons.mp (List.nodup_append.mp hnd).2.1).1 (by simp [he])
    have hc : (as ++ x :: cs.concat c).getLast? = some c := by
      simp [List.getLast?_append, List.getLast?_cons]
    rw [hc] at htail
    rw [UTHashTable.tailBefore,
      if_neg fun he => hxc (Option.some.inj (htail.symm.trans he)), htail]
    simp [List.getLast?_append]

/-- The table fields behind a deletion. -/
theorem TableOk.delete (ht : TableOk u.hh t (as ++ x :: bs) f)
    (happ : u.hh.app.Chain (as ++ x :: bs)) (hnd : (as ++ x :: bs).Nodup)
    {buckets : List UTHashBucket} {l : ListLinks Addr}
    (hb : Buckets buckets t.numBuckets u.hh.hashv l
      (Function.update f (bucketIndex u.hh.hashv t.numBuckets x)
        ((f (bucketIndex u.hh.hashv t.numBuckets x)).erase x))) :
    TableOk { (u.unlinked t x).hh with bkt := l }
      { t.tailBefore u x with buckets := buckets, numItems := (t.tailBefore u x).numItems - 1 }
      (as ++ bs) (Function.update f (bucketIndex u.hh.hashv t.numBuckets x)
        ((f (bucketIndex u.hh.hashv t.numBuckets x)).erase x)) := by
  obtain ⟨-, hnb, hlg, hni⟩ := tailBefore_same t u x
  refine ⟨?_, ?_, ?_, ?_, tailBefore_tail happ hnd ht.tail, fun a => ?_⟩
  · dsimp only
    rw [hnb]
    exact hb
  · dsimp only
    rw [hnb, hlg]
    exact ht.pow
  · dsimp only
    rw [hlg]
    exact ht.log_le
  · dsimp only
    have hlen : (as ++ x :: bs).length = (as ++ bs).length + 1 := by
      simp only [List.length_append, List.length_cons]
      omega
    rw [hni, ht.items, hlen, UInt32.ofNat_add]
    exact UInt32.add_sub_cancel _ _
  · dsimp only
    rw [hnb]
    refine (ht.buckets.chains.mem_remove (x := x) (a := a)).trans ?_
    rw [ht.members a, List.mem_append, List.mem_cons, List.mem_append]
    have hxas : x ∉ as := fun hm => (List.nodup_append.mp hnd).2.2 x hm x (by simp) rfl
    have hxbs : x ∉ bs := (List.nodup_cons.mp (List.nodup_append.mp hnd).2.1).1
    constructor
    · tauto
    · rintro (ha | ha)
      · exact ⟨ne_of_mem_of_not_mem ha hxas, Or.inl ha⟩
      · exact ⟨ne_of_mem_of_not_mem ha hxbs, Or.inr (Or.inr ha)⟩

/-- The last element takes the table with it. -/
theorem hashDelete_last (hx : x ∈ u.heap) (htab : u.table = .ok t)
    (hlone : u.hh.app.prev x = none ∧ u.hh.app.next x = none) :
    hashDelete u x = .ok { u with tbl := none, head := none } := by
  rw [hashDelete, deref_ok hx, abort_ok_bind, htab, abort_ok_bind, if_pos hlone]

theorem hashDelete_shared {u' : UTHash β} {t' : UTHashTable} (hx : x ∈ u.heap)
    (htab : u.table = .ok t) (hlone : ¬ (u.hh.app.prev x = none ∧ u.hh.app.next x = none))
    (hprev : ∀ a, u.hh.app.prev x = some a → a ∈ u.heap)
    (hnext : ∀ a, u.hh.app.next x = some a → a ∈ u.heap)
    (hdel : hashDelInBkt (u.unlinked t x) (t.tailBefore u x)
      (hashToBkt (u.hh.hashv x) (t.tailBefore u x).numBuckets) x = .ok u')
    (htab' : u'.table = .ok t') :
    hashDelete u x = .ok { u' with tbl := some { t' with numItems := t'.numItems - 1 } } := by
  rw [hashDelete, deref_ok hx, abort_ok_bind, htab, abort_ok_bind, if_neg hlone,
    derefIf_ok hprev, abort_ok_bind, derefIf_ok hnext, abort_ok_bind]
  change (do
    let u2 ← hashDelInBkt (u.unlinked t x) (t.tailBefore u x)
      (hashToBkt (u.hh.hashv x) (t.tailBefore u x).numBuckets) x
    let t2 ← u2.table
    .ok { u2 with tbl := some { t2 with numItems := t2.numItems - 1 } }) = _
  rw [hdel, abort_ok_bind, htab', abort_ok_bind]

end

/-- The element is gone, the others keep their order. -/
theorem hashDelete_spec (h : Rep u xs) {x : Addr} (hx : x ∈ xs) :
    ∃ u', hashDelete u x = .ok u' ∧ Rep u' (xs.erase x) ∧ u'.heap = u.heap ∧
      u'.hh.key = u.hh.key := by
  have hne : xs ≠ [] := List.ne_nil_of_mem hx
  obtain ⟨t, f, htbl, ht⟩ := h.table hne
  have htab : u.table = .ok t := by
    obtain ⟨y, ys, rfl⟩ := List.exists_cons_of_ne_nil hne
    exact table_eq h.head (h.live y (by simp)) htbl
  have hkeep : ∀ a ∈ xs.erase x, a ∈ u.heap ∧ Keyed u.hh a := fun a ha =>
    ⟨h.live a (List.mem_of_mem_erase ha), h.keyed a (List.mem_of_mem_erase ha)⟩
  have hnd' := h.nodup.erase x
  obtain ⟨as, bs, hnot, rfl, herase⟩ := List.exists_erase_eq hx
  rw [herase] at hkeep hnd' ⊢
  obtain ⟨hp, hn⟩ := h.app.middle
  rw [Option.or_none] at hp hn
  by_cases hlone : u.hh.app.prev x = none ∧ u.hh.app.next x = none
  · have hnil : as ++ bs = [] := by
      rw [hp, hn, List.getLast?_eq_none_iff, List.head?_eq_none_iff] at hlone
      rw [hlone.1, hlone.2, List.append_nil]
    refine ⟨_, hashDelete_last (h.live x hx) htab hlone, ?_, rfl, rfl⟩
    rw [hnil]
    exact ⟨rfl, trivial, List.nodup_nil, by simp, by simp, fun hno => absurd rfl hno⟩
  · have hprev : ∀ a, u.hh.app.prev x = some a → a ∈ u.heap := fun a ha => by
      rw [hp] at ha
      exact (hkeep a (List.mem_append_left _ (List.mem_of_getLast? ha))).1
    have hnext : ∀ a, u.hh.app.next x = some a → a ∈ u.heap := fun a ha => by
      rw [hn] at ha
      exact (hkeep a (List.mem_append_right _ (List.mem_of_mem_head? ha))).1
    obtain ⟨hbs, hnb, -, -⟩ := tailBefore_same t u x
    obtain ⟨buckets, hdel, hb⟩ := hashDelInBkt_spec (u := u.unlinked t x) (t := t.tailBefore u x)
      (f := f) (x := x) (fun i a ha => h.live a (ht.mem_iff ha))
      (by rw [hbs, hnb]; exact ht.buckets) (by rw [hnb]; exact (ht.members x).mpr hx)
    have hhead := unlinked_head (t := t) h.app h.head
    have hnonempty : as ++ bs ≠ [] := by
      intro hnil
      rw [hp, hn, List.getLast?_eq_none_iff, List.head?_eq_none_iff] at hlone
      exact hlone (List.append_eq_nil_iff.mp hnil)
    obtain ⟨z, zs, hz⟩ := List.exists_cons_of_ne_nil hnonempty
    have hheadz : (u.unlinked t x).head = some z := by rw [hhead, hz, List.head?_cons]
    refine ⟨_, hashDelete_shared (h.live x hx) htab hlone hprev hnext hdel
      (table_eq hheadz (hkeep z (by simp [hz])).1 rfl), ?_, rfl, rfl⟩
    refine ⟨hhead, ListLinks.unlink_chain h.app h.nodup, hnd', fun a ha => (hkeep a ha).1,
      fun a ha => ?_, fun _ => ⟨_, _, rfl, ht.delete h.app h.nodup ?_⟩⟩
    · obtain ⟨hshort, hlen, hhash⟩ := (hkeep a ha).2
      exact ⟨hshort, hlen, hhash⟩
    · rw [hnb] at hb
      exact hb

end RN2223.Praxis2.Uthash

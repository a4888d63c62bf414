import RN2223.Praxis2.JenkinsHash

/-!
# The buckets of a uthash table

The bucket array, the `hh_next`/`hh_prev` links and the cached hash values agree:
every bucket is the chain of elements its index masks out of their hashes, with
its count. The searches and the two updates of a bucket are read off this, and so
is the expansion, which builds a second such array out of the first.
-/

namespace RN2223.Praxis2.Uthash
open CMemory

@[simp] theorem abort_ok_bind {α β : Type} (a : α) (f : α → Except Abort β) :
    (Except.ok a >>= f) = f a := rfl

@[simp] theorem attempt_ok {α : Type} (a : α) : attempt (.ok a) = .ok a := rfl

variable {β : Type}

theorem deref_ok {u : UTHash β} {a : Addr} (h : a ∈ u.heap) : u.deref a = .ok () := if_pos h

theorem derefIf_ok {u : UTHash β} {p : Option Addr} (h : ∀ a, p = some a → a ∈ u.heap) :
    u.derefIf p = .ok () := by
  cases p with
  | none => rfl
  | some a => exact deref_ok (h a rfl)

/-! ### Indices -/

theorem hashToBkt_toNat {n : UInt32} {k : ℕ} (hn : n.toNat = 2 ^ k) (hashv : UInt32) :
    (hashToBkt hashv n).toNat = hashv.toNat % 2 ^ k := by
  have hle : (1 : UInt32) ≤ n := by
    rw [UInt32.le_iff_toNat_le, hn]
    exact Nat.one_le_two_pow
  rw [hashToBkt, UInt32.toNat_and, UInt32.toNat_sub_of_le _ _ hle, hn]
  exact Nat.and_two_pow_sub_one_eq_mod _ _

theorem hashToBkt_lt {n : UInt32} {k : ℕ} (hn : n.toNat = 2 ^ k) (hashv : UInt32) :
    (hashToBkt hashv n).toNat < n.toNat := by
  rw [hashToBkt_toNat hn, hn]
  exact Nat.mod_lt _ (Nat.two_pow_pos k)

def headAt (buckets : List UTHashBucket) (i : ℕ) : Option Addr :=
  buckets[i]?.bind UTHashBucket.hhHead

theorem headAt_set {buckets : List UTHashBucket} {i : ℕ} (h : i < buckets.length)
    (b : UTHashBucket) :
    headAt (buckets.set i b) = Function.update (headAt buckets) i b.hhHead := by
  funext j
  by_cases hj : j = i
  · rw [hj, Function.update_self, headAt, List.getElem?_set_self h]
    rfl
  · rw [Function.update_of_ne hj, headAt, List.getElem?_set_ne (Ne.symm hj)]
    rfl

theorem headAt_replicate (n : ℕ) (mult : UInt32) :
    headAt (List.replicate n ⟨none, 0, mult⟩) = fun _ => none := by
  funext i
  rw [headAt, List.getElem?_replicate]
  split <;> rfl

/-! ### Bucket arrays -/

def bucketIndex (hashv : Addr → UInt32) (n : UInt32) (a : Addr) : ℕ :=
  (hashToBkt (hashv a) n).toNat

/-- `f i` are the elements of bucket `i`, first to last. -/
structure Buckets (buckets : List UTHashBucket) (n : UInt32) (hashv : Addr → UInt32)
    (l : ListLinks Addr) (f : ℕ → List Addr) : Prop where
  size : buckets.length = n.toNat
  pow : ∃ k, n.toNat = 2 ^ k
  chains : Chains l (headAt buckets) (bucketIndex hashv n) f
  counts : ∀ i b, buckets[i]? = some b → b.count = UInt32.ofNat (f i).length

section
variable {buckets : List UTHashBucket} {n : UInt32} {hashv : Addr → UInt32} {l : ListLinks Addr}
  {f : ℕ → List Addr} (hb : Buckets buckets n hashv l f)
include hb

theorem Buckets.index_lt (a : UInt32) : (hashToBkt a n).toNat < buckets.length := by
  obtain ⟨k, hk⟩ := hb.pow
  rw [hb.size]
  exact hashToBkt_lt hk a

theorem Buckets.bucketIndex_lt (a : Addr) : bucketIndex hashv n a < buckets.length :=
  hb.index_lt (hashv a)

theorem Buckets.bucketAt_hash (a : UInt32) : ∃ b, bucketAt buckets (hashToBkt a n) = .ok b ∧
    buckets[(hashToBkt a n).toNat]? = some b := by
  have hget := List.getElem?_eq_getElem (hb.index_lt a)
  exact ⟨_, by simp only [bucketAt, hget], hget⟩

theorem Buckets.hhHead_eq {i : ℕ} {b : UTHashBucket} (h : buckets[i]? = some b) :
    b.hhHead = (f i).head? := by
  rw [← hb.chains.head_eq, headAt, h]
  rfl

omit hb in
theorem headAt_eq {i : ℕ} {b : UTHashBucket} (h : buckets[i]? = some b) :
    headAt buckets i = b.hhHead := by
  rw [headAt, h]
  rfl

/-- An element enters the front of its bucket; what happens to the expansion
multiplier is of no account. -/
theorem Buckets.push {x : Addr} {b : UTHashBucket} (b' : UTHashBucket) (hx : x ∉ f (bucketIndex hashv n x))
    (hget : buckets[bucketIndex hashv n x]? = some b) (hhead : b'.hhHead = some x)
    (hcount : b'.count = b.count + 1) :
    Buckets (buckets.set (bucketIndex hashv n x) b') n hashv (l.pushFront b.hhHead x)
      (Function.update f (bucketIndex hashv n x) (x :: f (bucketIndex hashv n x))) where
  size := by rw [List.length_set, hb.size]
  pow := hb.pow
  chains := by
    rw [headAt_set (hb.bucketIndex_lt x), hhead, ← headAt_eq hget]
    exact hb.chains.push hx
  counts := by
    intro i c hc
    by_cases hi : i = bucketIndex hashv n x
    · rw [hi, List.getElem?_set_self (hb.bucketIndex_lt x)] at hc
      cases hc
      rw [hi, Function.update_self, hcount, hb.counts _ b hget, List.length_cons, UInt32.ofNat_add]
      rfl
    · rw [List.getElem?_set_ne (Ne.symm hi)] at hc
      rw [Function.update_of_ne hi]
      exact hb.counts i c hc

theorem Buckets.remove {x : Addr} {b : UTHashBucket} (b' : UTHashBucket) (hx : x ∈ f (bucketIndex hashv n x))
    (hget : buckets[bucketIndex hashv n x]? = some b)
    (hhead : b'.hhHead = if b.hhHead = some x then l.next x else b.hhHead)
    (hcount : b'.count = b.count - 1) :
    Buckets (buckets.set (bucketIndex hashv n x) b') n hashv (l.unlink x)
      (Function.update f (bucketIndex hashv n x) ((f (bucketIndex hashv n x)).erase x)) where
  size := by rw [List.length_set, hb.size]
  pow := hb.pow
  chains := by
    rw [headAt_set (hb.bucketIndex_lt x), hhead, ← headAt_eq hget, ← hb.chains.head_erase hx]
    exact hb.chains.remove hx
  counts := by
    intro i c hc
    by_cases hi : i = bucketIndex hashv n x
    · rw [hi, List.getElem?_set_self (hb.bucketIndex_lt x)] at hc
      cases hc
      have hlen := List.length_erase_add_one hx
      rw [hi, Function.update_self, hcount, hb.counts _ b hget, ← hlen, UInt32.ofNat_add]
      exact UInt32.add_sub_cancel _ _
    · rw [List.getElem?_set_ne (Ne.symm hi)] at hc
      rw [Function.update_of_ne hi]
      exact hb.counts i c hc

end

theorem Buckets.empty {n : UInt32} {k : ℕ} (hn : n.toNat = 2 ^ k) (hashv : Addr → UInt32)
    (l : ListLinks Addr) :
    Buckets (List.replicate n.toNat ⟨none, 0, 0⟩) n hashv l fun _ => [] where
  size := List.length_replicate ..
  pow := ⟨k, hn⟩
  chains := by
    rw [headAt_replicate]
    exact Chains.empty l _
  counts := by
    intro i b hb
    rw [List.getElem?_replicate] at hb
    split at hb
    · cases hb
      rfl
    · cases hb

/-! ### Searching a bucket -/

/-- What `HASH_ADD_KEYPTR` writes into a handle, for a key whose length fits. -/
structure Keyed (hh : UTHashHandles) (a : Addr) : Prop where
  short : (hh.key a).length < 2^32
  keylen : hh.keylen a = UInt32.ofNat (hh.key a).length
  hashv : hashJen (hh.key a) (hh.key a).length = .ok (hh.hashv a)

theorem Keyed.keylen_toNat {hh : UTHashHandles} {a : Addr} (h : Keyed hh a) :
    (hh.keylen a).toNat = (hh.key a).length := by
  rw [h.keylen]
  exact UInt32.toNat_ofNat_of_lt' h.short

theorem memcmp_same_length {a b : Bytes} (h : a.length = b.length) :
    memcmp a b b.length = .ok (a == b) := by
  rw [memcmp, if_pos ⟨Nat.le_of_eq h.symm, Nat.le_refl _⟩, List.take_length, ← h, List.take_length]

/-- The walk along a bucket stops at the first element with the key. -/
theorem findInBkt_eq {u : UTHash β} {key : Bytes} {hashval : UInt32} {p : Option Addr}
    {r : List Addr} {fuel : ℕ} (hseg : u.hh.bkt.Segment p r none) (hfuel : r.length ≤ fuel)
    (hlive : ∀ a ∈ r, a ∈ u.heap) (hkeyed : ∀ a ∈ r, Keyed u.hh a)
    (hhash : hashJen key key.length = .ok hashval) :
    findInBkt u key key.length hashval fuel r.head? = .ok (r.find? fun a => u.hh.key a == key) := by
  induction r generalizing p fuel with
  | nil => cases fuel <;> rfl
  | cons a r ih =>
    obtain ⟨fuel, rfl⟩ : ∃ k, fuel = k + 1 := ⟨fuel - 1, by simp at hfuel; omega⟩
    obtain ⟨-, hnext, hrest⟩ := hseg
    rw [Option.or_none] at hnext
    have hrec := ih hrest (by simpa using hfuel) (fun b hb => hlive b (by simp [hb]))
      fun b hb => hkeyed b (by simp [hb])
    have ha := hkeyed a (by simp)
    rw [List.head?_cons, findInBkt, deref_ok (hlive a (by simp)), abort_ok_bind, hnext, hrec]
    by_cases hk : u.hh.key a = key
    · have hv : u.hh.hashv a = hashval := by
        have h := ha.hashv
        rw [hk, hhash] at h
        exact (Except.ok.inj h).symm
      have hl : (u.hh.keylen a).toNat = key.length := by rw [ha.keylen_toNat, hk]
      rw [if_pos ⟨hv, hl⟩, hk, memcmp_same_length rfl, abort_ok_bind, beq_self_eq_true, if_pos rfl,
        List.find?_cons_of_pos (by simpa using hk)]
    · rw [List.find?_cons_of_neg (by simpa using hk)]
      by_cases hc : u.hh.hashv a = hashval ∧ (u.hh.keylen a).toNat = key.length
      · have hl : (u.hh.key a).length = key.length := by rw [← ha.keylen_toNat, hc.2]
        rw [if_pos hc, memcmp_same_length hl, abort_ok_bind, if_neg (by simpa using hk)]
      · rw [if_neg hc]

end RN2223.Praxis2.Uthash

import RN2223.Praxis2.Uthash

/-!
# What HASH_JEN reads

The block loop and the switch together read the key from its first byte to its
last one, and nothing behind it.
-/

namespace RN2223.Praxis2.Uthash
open CMemory

theorem keyByte_ok {key : Bytes} {i : ℕ} (h : i < key.length) :
    keyByte key i = .ok key[i].toUInt32 := by
  simp [keyByte, readByte, List.getElem?_eq_getElem h, Except.map]

theorem keyByte_error {key : Bytes} {i : ℕ} (h : key.length ≤ i) :
    keyByte key i = .error .outOfBounds := by
  simp [keyByte, readByte, List.getElem?_eq_none h, Except.map]

@[simp] theorem error_bind {α β : Type} (e : Fault) (f : α → Except Fault β) :
    (Except.error e >>= f) = .error e := rfl

theorem keyWord_ok {key : Bytes} {i : ℕ} (h : i + 4 ≤ key.length) : ∃ w, keyWord key i = .ok w := by
  rw [keyWord, keyByte_ok (by omega), ok_bind, keyByte_ok (by omega), ok_bind,
    keyByte_ok (by omega), ok_bind, keyByte_ok (by omega), ok_bind]
  exact ⟨_, rfl⟩

theorem keyWord_error {key : Bytes} {i : ℕ} (h : key.length < i + 4) :
    keyWord key i = .error .outOfBounds := by
  by_cases h0 : i < key.length
  · by_cases h1 : i + 1 < key.length
    · by_cases h2 : i + 2 < key.length
      · rw [keyWord, keyByte_ok h0, ok_bind, keyByte_ok h1, ok_bind, keyByte_ok h2, ok_bind,
          keyByte_error (by omega), error_bind]
      · rw [keyWord, keyByte_ok h0, ok_bind, keyByte_ok h1, ok_bind, keyByte_error (by omega),
          error_bind]
    · rw [keyWord, keyByte_ok h0, ok_bind, keyByte_error (by omega), error_bind]
  · rw [keyWord, keyByte_error (by omega), error_bind]

/-! ### The block loop -/

theorem hashJenBlocks_ok {key : Bytes} {n p : ℕ} (h : p + 12 * n ≤ key.length)
    (s : UInt32 × UInt32 × UInt32) : ∃ s', hashJenBlocks key n p s = .ok s' := by
  induction n generalizing p s with
  | zero => exact ⟨s, rfl⟩
  | succ n ih =>
    obtain ⟨i, j, hashv⟩ := s
    obtain ⟨x, hx⟩ := keyWord_ok (show p + 4 ≤ key.length by omega)
    obtain ⟨y, hy⟩ := keyWord_ok (show p + 4 + 4 ≤ key.length by omega)
    obtain ⟨z, hz⟩ := keyWord_ok (show p + 8 + 4 ≤ key.length by omega)
    obtain ⟨s', hs⟩ := ih (p := p + 12) (by omega) (hashJenMix (i + x) (j + y) (hashv + z))
    exact ⟨s', by rw [hashJenBlocks, hx, ok_bind, hy, ok_bind, hz, ok_bind, hs]⟩

theorem hashJenBlocks_error {key : Bytes} {n p : ℕ} (hp : p ≤ key.length)
    (h : key.length < p + 12 * n) (s : UInt32 × UInt32 × UInt32) :
    hashJenBlocks key n p s = .error .outOfBounds := by
  induction n generalizing p s with
  | zero => omega
  | succ n ih =>
    obtain ⟨i, j, hashv⟩ := s
    rw [hashJenBlocks]
    by_cases h0 : p + 4 ≤ key.length
    · obtain ⟨x, hx⟩ := keyWord_ok h0
      rw [hx, ok_bind]
      by_cases h1 : p + 4 + 4 ≤ key.length
      · obtain ⟨y, hy⟩ := keyWord_ok h1
        rw [hy, ok_bind]
        by_cases h2 : p + 8 + 4 ≤ key.length
        · obtain ⟨z, hz⟩ := keyWord_ok h2
          rw [hz, ok_bind]
          exact ih h2 (by omega) _
        · rw [keyWord_error (by omega), error_bind]
      · rw [keyWord_error (by omega), error_bind]
    · rw [keyWord_error (by omega), error_bind]

/-! ### The switch -/

theorem hashJenSwitch_ok {key : Bytes} {p n : ℕ} (h : p + n ≤ key.length)
    (s : UInt32 × UInt32 × UInt32) : ∃ s', hashJenSwitch key p n s = .ok s' := by
  induction n generalizing s with
  | zero => exact ⟨s, rfl⟩
  | succ n ih =>
    obtain ⟨s', hs⟩ := ih (by omega) (hashJenCase (n + 1) (key[p + n]).toUInt32 s)
    exact ⟨s', by rw [hashJenSwitch, keyByte_ok (by omega), ok_bind, hs]⟩

/-- The byte that is missing is read first. -/
theorem hashJenSwitch_error {key : Bytes} {p n : ℕ} (h : key.length < p + n)
    (hp : p ≤ key.length) (s : UInt32 × UInt32 × UInt32) :
    hashJenSwitch key p n s = .error .outOfBounds := by
  cases n with
  | zero => omega
  | succ n => rw [hashJenSwitch, keyByte_error (by omega), error_bind]

/-! ### Equal prefixes -/

section
variable {key key' : Bytes} {m : ℕ} (h : key.take m = key'.take m)
include h

theorem keyByte_congr {i : ℕ} (hi : i < m) : keyByte key i = keyByte key' i := by
  have hget := congrArg (fun l => l[i]?) h
  simp only [List.getElem?_take_of_lt hi] at hget
  simp only [keyByte, readByte, hget]

theorem keyWord_congr {i : ℕ} (hi : i + 4 ≤ m) : keyWord key i = keyWord key' i := by
  rw [keyWord, keyWord, keyByte_congr h (by omega), keyByte_congr h (by omega),
    keyByte_congr h (by omega), keyByte_congr h (by omega)]

theorem hashJenBlocks_congr {n p : ℕ} (hn : p + 12 * n ≤ m) (s : UInt32 × UInt32 × UInt32) :
    hashJenBlocks key n p s = hashJenBlocks key' n p s := by
  induction n generalizing p s with
  | zero => rfl
  | succ n ih =>
    obtain ⟨i, j, hashv⟩ := s
    have hrest : ∀ s, hashJenBlocks key n (p + 12) s = hashJenBlocks key' n (p + 12) s :=
      fun s => ih (by omega) s
    simp only [hashJenBlocks, keyWord_congr h (show p + 4 ≤ m by omega),
      keyWord_congr h (show p + 4 + 4 ≤ m by omega), keyWord_congr h (show p + 8 + 4 ≤ m by omega),
      hrest]

theorem hashJenSwitch_congr {p n : ℕ} (hn : p + n ≤ m) (s : UInt32 × UInt32 × UInt32) :
    hashJenSwitch key p n s = hashJenSwitch key' p n s := by
  induction n generalizing s with
  | zero => rfl
  | succ n ih =>
    have hrest : ∀ s, hashJenSwitch key p n s = hashJenSwitch key' p n s := fun s => ih (by omega) s
    simp only [hashJenSwitch, keyByte_congr h (show p + n < m by omega), hrest]

end

/-! ### The hash of a key -/

/-- `HASH_JEN` reads the first `(unsigned) keylen` bytes: without them it runs
off the end of the key, with them its value depends on nothing else. -/
theorem hashJen_reads (key : Bytes) (keylen : ℕ) :
    (key.length < keylen % 2^32 → hashJen key keylen = .error .outOfBounds) ∧
    (keylen % 2^32 ≤ key.length → ∃ hashv, ∀ key' : Bytes,
      key'.take (keylen % 2^32) = key.take (keylen % 2^32) → hashJen key' keylen = .ok hashv) := by
  have hk : (UInt32.ofNat keylen).toNat = keylen % 2^32 := UInt32.toNat_ofNat'
  have hdiv : keylen % 2^32 / 12 * 12 + keylen % 2^32 % 12 = keylen % 2^32 := by omega
  constructor
  · intro hlt
    rw [hashJen, hk]
    by_cases hb : 12 * (keylen % 2^32 / 12) ≤ key.length
    · obtain ⟨⟨i, j, h⟩, hs⟩ := hashJenBlocks_ok
        (show 0 + 12 * (keylen % 2^32 / 12) ≤ key.length by omega) (0x9e3779b9, 0x9e3779b9, 0xfeedbeef)
      simp only [hs, ok_bind]
      rw [hashJenSwitch_error (by omega) (by omega), error_bind]
    · rw [hashJenBlocks_error (Nat.zero_le _) (by omega), error_bind]
  · intro hle
    obtain ⟨⟨i, j, h⟩, hs⟩ := hashJenBlocks_ok
      (show 0 + 12 * (keylen % 2^32 / 12) ≤ key.length by omega) (0x9e3779b9, 0x9e3779b9, 0xfeedbeef)
    obtain ⟨⟨i', j', h'⟩, hs'⟩ := hashJenSwitch_ok
      (show keylen % 2^32 / 12 * 12 + keylen % 2^32 % 12 ≤ key.length by omega) (i, j, h + UInt32.ofNat keylen)
    refine ⟨(hashJenMix i' j' h').2.2, fun key' heq => ?_⟩
    rw [hashJen, hk, hashJenBlocks_congr heq (by omega), hs]
    simp only [ok_bind]
    rw [hashJenSwitch_congr heq (by omega), hs']
    rfl

theorem hashJen_ok (key : Bytes) : ∃ hashv, hashJen key key.length = .ok hashv := by
  obtain ⟨hashv, h⟩ := (hashJen_reads key key.length).2 (Nat.mod_le _ _)
  exact ⟨hashv, h key rfl⟩

end RN2223.Praxis2.Uthash

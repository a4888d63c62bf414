import Mathlib.Data.List.Basic
import Mathlib.Algebra.Order.Ring.Int
import RN2223.Praxis2.Server

/-!
# The receive loop (util.c:34-64)

`recvall` round by round: the buffer doubles when it is full, and the result of
`recv` is kept in a `size_t`, where -1 is the largest value of all. Pointers are
offsets from `buffer`; their sums and differences are taken modulo `2^64`.
-/

namespace RN2223.Praxis2
open CMemory

/-- How the stream of a socket ends: `recv` answers 0 from then on, or -1. -/
inductive StreamEnd where
  | eof
  | error
  deriving DecidableEq, Repr

def StreamEnd.answer : StreamEnd → Recv
  | .eof => .closed
  | .error => .failed

/-- `recv` asked for `n` bytes when `rest` is still to come: at most `k + 1` of
them. -/
def recvFrom (rest : Bytes) (e : StreamEnd) (k n : ℕ) : Recv :=
  if rest = [] then e.answer
  else if n = 0 then .closed
  else .data (rest.take (min (k + 1) n))

def Recv.bytes : Recv → ℕ
  | .data b => b.length
  | .closed => 0
  | .failed => 2^64 - 1

def ptrAdd (p : Int) (n : ℕ) : Int := Int.bmod (p + n) (2^64)

def ptrDiff (a b : Int) : Int := Int.bmod (a - b) (2^64)

/-- The variables of `recvall`; `pos` is `write_ptr - buffer`. -/
structure RecvState where
  bufSize : ℕ
  buffer : Bytes
  pos : Int

def recvStart : RecvState := ⟨1024, List.replicate 1024 0, 0⟩

def RecvState.space (s : RecvState) : Int := ptrDiff s.bufSize s.pos

def reallocated (buffer : Bytes) (size : ℕ) : Bytes :=
  buffer.take size ++ List.replicate (size - buffer.length) 0

/-- The buffer doubled if there is no space left (`util.c:42-49`). -/
def RecvState.grow (s : RecvState) : RecvState :=
  if s.space < 1 then
    { s with
      bufSize := s.bufSize * 2 % 2^64, buffer := reallocated s.buffer (s.bufSize * 2 % 2^64) }
  else s

def RecvState.offered (s : RecvState) : ℕ := (s.space % 2^64).toNat

def writeAt (buffer : Bytes) (pos : Int) (b : Bytes) : Except Fault Bytes :=
  if 0 ≤ pos ∧ pos + b.length ≤ buffer.length then
    .ok (buffer.take pos.toNat ++ b ++ buffer.drop (pos.toNat + b.length))
  else .error .outOfBounds

def RecvState.store (s : RecvState) : Recv → Except Fault RecvState
  | .data b => (writeAt s.buffer s.pos b).map fun buffer => { s with buffer := buffer }
  | _ => .ok s

/-- The loop running with bytes still to come, or at its end: the buffer and
`*data_len`. -/
inductive RecvRun where
  | looping (s : RecvState) (rest : Bytes)
  | returned (buffer : Bytes) (dataLen : ℕ)
  | faulted (f : Fault)

/-- One round of the loop (`util.c:38-58`). -/
def RecvRun.round (e : StreamEnd) (k : ℕ) : RecvRun → RecvRun
  | .looping s rest =>
    let s := s.grow
    let r := recvFrom rest e k s.offered
    match s.store r with
    | .error f => .faulted f
    | .ok s =>
      if r.bytes < 1 then .returned s.buffer (s.pos % 2^64).toNat
      else .looping { s with pos := ptrAdd s.pos r.bytes }
        (match r with | .data b => rest.drop b.length | _ => rest)
  | run => run

/-- `recvall` after `n` rounds on a socket that delivers the stream in pieces. -/
def recvRun (stream : Bytes) (ks : ℕ → ℕ) (e : StreamEnd) : ℕ → RecvRun
  | 0 => .looping recvStart stream
  | n + 1 => (recvRun stream ks e n).round e (ks n)

/-- `recvall` returns the stream, its write position always in the buffer and the
length offered always the space behind it. -/
structure ReceivesAll (stream : Bytes) (ks : ℕ → ℕ) (e : StreamEnd) : Prop where
  returns : ∃ n buffer len, recvRun stream ks e n = .returned buffer len ∧
    len = stream.length ∧ buffer.take len = stream
  inside : ∀ n s rest, recvRun stream ks e n = .looping s rest → 0 ≤ s.pos ∧ s.pos ≤ s.bufSize ∧
    1 ≤ s.grow.offered ∧ s.grow.pos + s.grow.offered ≤ s.grow.bufSize

/-! ### What the buffer holds -/

/-- The bytes `got` so far are in a buffer that doubled as often as it had to. -/
structure Receiving (s : RecvState) (got : Bytes) : Prop where
  size : ∃ k, s.bufSize = 1024 * 2^k
  small : s.bufSize ≤ 2^63
  half : s.bufSize = 1024 ∨ s.bufSize ≤ 2 * got.length
  length : s.buffer.length = s.bufSize
  pos : s.pos = got.length
  room : got.length ≤ s.bufSize
  written : s.buffer.take got.length = got

theorem receiving_start : Receiving recvStart [] where
  size := ⟨0, rfl⟩
  small := by decide
  half := Or.inl rfl
  length := List.length_replicate
  pos := rfl
  room := Nat.zero_le _
  written := rfl

theorem bmod_of_lt {x : Int} (h : 0 ≤ x) (h' : x < 2^63) : Int.bmod x (2^64) = x := by
  have hx : x % ((2^64 : ℕ) : Int) = x := Int.emod_eq_of_lt h (by norm_num; omega)
  rw [Int.bmod_def, hx, if_pos (by norm_num; omega)]

section
variable {s : RecvState} {got : Bytes}

theorem Receiving.space_eq (h : Receiving s got) :
    s.space = ((s.bufSize - got.length : ℕ) : Int) := by
  have hsmall := h.small
  have hhalf := h.half
  have hroom := h.room
  have hcast : (s.bufSize : Int) - got.length = ((s.bufSize - got.length : ℕ) : Int) := by omega
  rw [RecvState.space, ptrDiff, h.pos, hcast]
  exact bmod_of_lt (by omega) (by omega)

theorem Receiving.offered_eq (h : Receiving s got) : s.offered = s.bufSize - got.length := by
  have hsmall := h.small
  rw [RecvState.offered, h.space_eq]
  omega

theorem double_le {n k : ℕ} (h : n = 1024 * 2^k) (hn : n < 2^63) : n * 2 ≤ 2^63 := by
  have hk : k < 53 := by
    by_contra hk
    have hpow : 2^53 ≤ 2^k := Nat.pow_le_pow_right (by decide) (by omega)
    omega
  have hpow : 2^(k + 1) ≤ 2^53 := Nat.pow_le_pow_right (by decide) (by omega)
  rw [Nat.pow_succ] at hpow
  omega

theorem Receiving.grow (h : Receiving s got) (hgot : got.length < 2^63) :
    Receiving s.grow got ∧ got.length < s.grow.bufSize := by
  have hroom := h.room
  unfold RecvState.grow
  split
  · next hfull =>
    rw [h.space_eq] at hfull
    have heq : s.bufSize = got.length := by omega
    obtain ⟨k, hk⟩ := h.size
    have hdouble := double_le hk (by omega)
    have hmod : s.bufSize * 2 % 2^64 = s.bufSize * 2 := Nat.mod_eq_of_lt (by omega)
    have hpos : 0 < s.bufSize := by
      rw [hk]
      positivity
    rw [hmod]
    have hlen : s.buffer.length = got.length := h.length.trans heq
    have hnew : (reallocated s.buffer (s.bufSize * 2)).length = s.bufSize * 2 := by
      rw [reallocated, List.length_append, List.length_take, List.length_replicate, hlen]
      omega
    have hkept : (reallocated s.buffer (s.bufSize * 2)).take got.length = got := by
      have hall : s.buffer.take (s.bufSize * 2) = s.buffer := List.take_of_length_le (by omega)
      rw [reallocated, hall, List.take_append_of_le_length hlen.ge]
      exact h.written
    have hhalf : s.bufSize * 2 ≤ 2 * got.length := by omega
    have hlt : got.length < s.bufSize * 2 := by omega
    refine ⟨⟨⟨k + 1, ?_⟩, hdouble, Or.inr hhalf, hnew, h.pos, hlt.le, hkept⟩, hlt⟩
    rw [hk, Nat.pow_succ, Nat.mul_assoc]
  · next hfull =>
    rw [h.space_eq] at hfull
    exact ⟨h, by omega⟩

theorem Receiving.write (h : Receiving s got) {b : Bytes}
    (hfit : got.length + b.length ≤ s.bufSize) : ∃ s', s.store (.data b) = .ok s' ∧
      s'.pos = s.pos ∧ (got.length + b.length < 2^63 →
        Receiving { s' with pos := ptrAdd s'.pos b.length } (got ++ b)) := by
  have hlen := h.length
  have hhalf := h.half
  have hwrite : writeAt s.buffer s.pos b = .ok (s.buffer.take got.length ++ b ++
      s.buffer.drop (got.length + b.length)) := by
    rw [writeAt, h.pos, if_pos ⟨by omega, by omega⟩, Int.toNat_natCast]
  rw [h.written] at hwrite
  refine ⟨{ s with buffer := got ++ b ++ s.buffer.drop (got.length + b.length) }, ?_, rfl, ?_⟩
  · rw [RecvState.store, hwrite]
    rfl
  · intro hlt
    have hsize : s.bufSize = 1024 ∨ s.bufSize ≤ 2 * (got ++ b).length := by
      rw [List.length_append]
      omega
    have hpos : ptrAdd s.pos b.length = (got ++ b).length := by
      rw [ptrAdd, h.pos, List.length_append, Nat.cast_add]
      exact bmod_of_lt (by omega) (by omega)
    refine ⟨h.size, h.small, hsize, ?_, hpos, ?_, List.take_left⟩
    · simp only [List.length_append, List.length_drop]
      omega
    · rw [List.length_append]
      exact hfit

/-! ### One round -/

variable {rest : Bytes} {e : StreamEnd} {k : ℕ}

theorem Receiving.round (h : Receiving s got) (hgot : got.length < 2^63) (hrest : rest ≠ []) :
    ∃ b s', RecvRun.round e k (.looping s rest) = .looping s' (rest.drop b.length) ∧
      b ++ rest.drop b.length = rest ∧ 1 ≤ b.length ∧
      s'.pos = ptrAdd got.length b.length ∧ got.length + b.length ≤ 2^63 ∧
      (got.length + b.length < 2^63 → Receiving s' (got ++ b)) := by
  obtain ⟨hgrown, hspace⟩ := h.grow hgot
  have hoff := hgrown.offered_eq
  have hsmall := hgrown.small
  have hpositive : 0 < rest.length := List.length_pos_of_ne_nil hrest
  obtain ⟨m, hm⟩ : ∃ m, m = min (min (k + 1) s.grow.offered) rest.length := ⟨_, rfl⟩
  have hlen : (rest.take (min (k + 1) s.grow.offered)).length = m := by
    rw [hm, List.length_take]
  have hpiece : rest.take (min (k + 1) s.grow.offered) ++ rest.drop m = rest := by
    conv_lhs => rw [← hlen]
    rw [List.length_take]
    obtain hle | hle := Nat.le_total (min (k + 1) s.grow.offered) rest.length
    · rw [Nat.min_eq_left hle]
      exact List.take_append_drop _ _
    · rw [Nat.min_eq_right hle, List.take_of_length_le hle, List.drop_length, List.append_nil]
  generalize hb : rest.take (min (k + 1) s.grow.offered) = b at hlen hpiece
  have hrecv : recvFrom rest e k s.grow.offered = .data b := by
    rw [recvFrom, if_neg hrest, if_neg (by omega), hb]
  obtain ⟨s', hstore, hpos, hkeep⟩ := hgrown.write (b := b) (by omega)
  have hbytes : ¬ (Recv.data b).bytes < 1 := by
    show ¬ b.length < 1
    omega
  refine ⟨b, { s' with pos := ptrAdd s'.pos b.length }, ?_, ?_, by omega, ?_, by omega, hkeep⟩
  · simp only [RecvRun.round, hrecv, hstore, if_neg hbytes]
    rfl
  · rw [hlen]
    exact hpiece
  · show ptrAdd s'.pos b.length = _
    rw [hpos, hgrown.pos]

theorem Receiving.round_eof (h : Receiving s got) (hgot : got.length < 2^63) :
    ∃ buffer, RecvRun.round .eof k (.looping s []) = .returned buffer got.length ∧
      buffer.take got.length = got := by
  obtain ⟨hgrown, -⟩ := h.grow hgot
  refine ⟨s.grow.buffer, ?_, hgrown.written⟩
  have hlen : (s.grow.pos % 2^64).toNat = got.length := by
    rw [hgrown.pos]
    omega
  simp only [RecvRun.round, recvFrom, if_pos, StreamEnd.answer, RecvState.store, Recv.bytes, hlen]
  rfl

/-- An error is no end: -1 is kept as the largest `size_t`. -/
theorem round_error : ∃ s', RecvRun.round .error k (.looping s []) = .looping s' [] :=
  ⟨{ s.grow with pos := ptrAdd s.grow.pos (2^64 - 1) }, rfl⟩

/-- A round at the end of the input is the last one, and any other takes something. -/
theorem round_eof_rest {s' : RecvState} {rest' : Bytes}
    (h : RecvRun.round .eof k (.looping s rest) = .looping s' rest') :
    rest'.length + 1 ≤ rest.length := by
  simp only [RecvRun.round] at h
  generalize hr : recvFrom rest .eof k s.grow.offered = r at h
  cases hstore : s.grow.store r with
  | error f => simp [hstore] at h
  | ok s1 =>
    simp only [hstore] at h
    split at h
    · cases h
    · next hbytes =>
      cases r with
      | closed => exact absurd (Nat.zero_lt_one) hbytes
      | failed =>
        rw [recvFrom] at hr
        split at hr
        · cases hr
        · split at hr <;> cases hr
      | data b =>
        have hpiece : b.length ≤ rest.length := by
          rw [recvFrom] at hr
          split at hr
          · cases hr
          · split at hr
            · cases hr
            · cases hr
              exact (List.length_take_le' _ _)
        have hlen : 1 ≤ b.length := Nat.not_lt.mp hbytes
        cases h
        rw [List.length_drop]
        omega

end

/-! ### The whole run -/

section
variable {stream : Bytes} {ks : ℕ → ℕ}

variable (ks) in
theorem recvRun_eof (h : stream.length < 2^63) (n : ℕ) :
    (∃ s got rest, recvRun stream ks .eof n = .looping s rest ∧ got ++ rest = stream ∧
      Receiving s got ∧ n ≤ got.length) ∨
    ∃ buffer, recvRun stream ks .eof n = .returned buffer stream.length ∧
      buffer.take stream.length = stream := by
  induction n with
  | zero => exact Or.inl ⟨recvStart, [], stream, rfl, rfl, receiving_start, Nat.le_refl _⟩
  | succ n ih =>
    obtain ⟨s, got, rest, hrun, hsplit, hs, hn⟩ | ⟨buffer, hrun, hwhole⟩ := ih
    · have hlen := congrArg List.length hsplit
      rw [List.length_append] at hlen
      rw [recvRun, hrun]
      by_cases hrest : rest = []
      · subst hrest
        rw [List.append_nil] at hsplit
        obtain ⟨buffer, hround, hwhole⟩ := hs.round_eof (k := ks n) (by omega)
        exact Or.inr ⟨buffer, by rw [hround, hsplit], by rw [← hsplit]; exact hwhole⟩
      · obtain ⟨b, s', hround, hpiece, hb, -, -, hkeep⟩ :=
          hs.round (e := .eof) (k := ks n) (by omega) hrest
        have hpart := congrArg List.length hpiece
        rw [List.length_append] at hpart
        refine Or.inl ⟨s', got ++ b, rest.drop b.length, hround, ?_, hkeep (by omega), ?_⟩
        · rw [List.append_assoc, hpiece, hsplit]
        · rw [List.length_append]
          omega
    · rw [recvRun, hrun]
      exact Or.inr ⟨buffer, rfl, hwhole⟩

theorem receivesAll_of_eof (h : stream.length < 2^63) : ReceivesAll stream ks .eof where
  returns := by
    obtain ⟨s, got, rest, -, hsplit, -, hn⟩ | ⟨buffer, hrun, hwhole⟩ :=
      recvRun_eof ks h (stream.length + 1)
    · have hlen := congrArg List.length hsplit
      rw [List.length_append] at hlen
      omega
    · exact ⟨_, buffer, _, hrun, rfl, hwhole⟩
  inside n s rest hrun := by
    obtain ⟨s', got, rest', hrun', hsplit, hs, -⟩ | ⟨buffer, hrun', -⟩ := recvRun_eof ks h n
    · rw [hrun] at hrun'
      cases hrun'
      have hlen := congrArg List.length hsplit
      rw [List.length_append] at hlen
      obtain ⟨hgrown, hspace⟩ := hs.grow (by omega)
      have hpos := hs.pos
      have hroom := hs.room
      have hgrownpos := hgrown.pos
      have hoff := hgrown.offered_eq
      exact ⟨by omega, by omega, by omega, by omega⟩
    · rw [hrun] at hrun'
      cases hrun'

/-- An error, or a stream the position cannot count: no round is the last. -/
theorem recvRun_endless {e : StreamEnd} (hend : e = .error ∨ 2^63 ≤ stream.length)
    (hinside : ∀ n s rest, recvRun stream ks e n = .looping s rest → 0 ≤ s.pos) (n : ℕ) :
    (∃ s got rest, recvRun stream ks e n = .looping s rest ∧ got ++ rest = stream ∧
      Receiving s got ∧ got.length < 2^63) ∨
    (e = .error ∧ ∃ s, recvRun stream ks e n = .looping s []) := by
  induction n with
  | zero => exact Or.inl ⟨recvStart, [], stream, rfl, rfl, receiving_start, by decide⟩
  | succ n ih =>
    obtain ⟨s, got, rest, hrun, hsplit, hs, hgot⟩ | ⟨rfl, s, hrun⟩ := ih
    · have hlen := congrArg List.length hsplit
      rw [List.length_append] at hlen
      by_cases hrest : rest = []
      · subst hrest
        rw [List.length_nil] at hlen
        obtain rfl | hlong := hend
        · rw [recvRun, hrun]
          exact Or.inr ⟨rfl, round_error⟩
        · omega
      · obtain ⟨b, s', hround, hpiece, -, hpos, hfit, hkeep⟩ :=
          hs.round (e := e) (k := ks n) hgot hrest
        have hnext : recvRun stream ks e (n + 1) = .looping s' (rest.drop b.length) := by
          rw [recvRun, hrun, hround]
        have hbelow : got.length + b.length < 2^63 := by
          obtain hlt | heq := Nat.lt_or_eq_of_le hfit
          · exact hlt
          · have hnonneg := hinside _ _ _ hnext
            rw [hpos, ptrAdd, ← Nat.cast_add, heq] at hnonneg
            exact absurd hnonneg (by decide)
        refine Or.inl ⟨s', got ++ b, _, hnext, ?_, hkeep hbelow, ?_⟩
        · rw [List.append_assoc, hpiece, hsplit]
        · rw [List.length_append]
          exact hbelow
    · rw [recvRun, hrun]
      exact Or.inr ⟨rfl, round_error⟩

theorem recvRun_eof_rest {n : ℕ} {s : RecvState} {rest : Bytes}
    (h : recvRun stream ks .eof n = .looping s rest) : n + rest.length ≤ stream.length := by
  induction n generalizing s rest with
  | zero =>
    cases h
    exact (Nat.zero_add _).le
  | succ n ih =>
    rw [recvRun] at h
    cases hrun : recvRun stream ks .eof n with
    | looping s0 rest0 =>
      rw [hrun] at h
      have hround := round_eof_rest h
      have hbefore := ih hrun
      omega
    | returned buffer len =>
      rw [hrun] at h
      cases h
    | faulted f =>
      rw [hrun] at h
      cases h

/-- The loop does what it should as long as no `recv` fails and `write_ptr - buffer`
can count the bytes. -/
theorem receivesAll_iff (stream : Bytes) (ks : ℕ → ℕ) (e : StreamEnd) :
    ReceivesAll stream ks e ↔ e = .eof ∧ stream.length < 2^63 := by
  constructor
  · intro h
    by_contra hcond
    have hend : e = .error ∨ 2^63 ≤ stream.length := by
      cases e with
      | eof => exact Or.inr (by_contra fun hlt => hcond ⟨rfl, by omega⟩)
      | error => exact Or.inl rfl
    obtain ⟨n, buffer, len, hret, -⟩ := h.returns
    obtain ⟨s, got, rest, hrun, -⟩ | ⟨-, s, hrun⟩ :=
      recvRun_endless hend (fun n s rest hrun => (h.inside n s rest hrun).1) n
    all_goals
      rw [hret] at hrun
      cases hrun
  · rintro ⟨rfl, hlt⟩
    exact receivesAll_of_eof hlt

/-- On a socket that was never connected `recvall` does not return. -/
theorem unconnected_never_returns : ¬ ReceivesAll [] (fun _ => 0) .error := by
  intro h
  have hloop : ∀ n, ∃ s, recvRun [] (fun _ => 0) .error n = .looping s [] := by
    intro n
    induction n with
    | zero => exact ⟨recvStart, rfl⟩
    | succ n ih =>
      obtain ⟨s, hs⟩ := ih
      rw [recvRun, hs]
      exact round_error
  obtain ⟨n, buffer, len, hret, -⟩ := h.returns
  obtain ⟨s, hs⟩ := hloop n
  rw [hret] at hs
  cases hs

end

end RN2223.Praxis2

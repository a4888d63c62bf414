import Mathlib.Algebra.Order.Ring.Int
import Mathlib.Order.Nat
import Mathlib.Data.Nat.Find
import RN2223.Praxis1.Webserver

/-!
# Which requests the webserver processes

The scan loop of the main buffer finds every terminator from where it begins,
but hands the buffer itself to `process_request`, and once the secondary buffer
is in use nothing is processed any more.
-/

namespace RN2223.Praxis1
open CMemory Machine

/-! ### Terminators -/

def HasTerm (b : Bytes) (i : ℕ) : Prop := httpTerminator <+: b.drop i

instance (b : Bytes) (i : ℕ) : Decidable (HasTerm b i) := inferInstanceAs (Decidable (_ <+: _))

theorem HasTerm.le {b : Bytes} {i : ℕ} (h : HasTerm b i) : i + 4 ≤ b.length := by
  have hlen := h.length_le
  rw [List.length_drop] at hlen
  have hterm : httpTerminator.length = 4 := rfl
  omega

theorem hasTerm_cons_succ {x : UInt8} {b : Bytes} {i : ℕ} :
    HasTerm (x :: b) (i + 1) ↔ HasTerm b i := Iff.rfl

theorem hasTerm_drop {b : Bytes} {k i : ℕ} : HasTerm (b.drop k) i ↔ HasTerm b (k + i) := by
  rw [HasTerm, HasTerm, List.drop_drop]

theorem hasTerm_append {a b : Bytes} {i : ℕ} (h : i + 4 ≤ a.length) :
    HasTerm (a ++ b) i ↔ HasTerm a i := by
  have hlen : httpTerminator.length ≤ (a.drop i).length := by
    rw [List.length_drop]
    show 4 ≤ _
    omega
  rw [HasTerm, HasTerm, List.drop_append_of_le_length (by omega)]
  constructor
  · intro hpre
    exact List.prefix_of_prefix_length_le hpre (List.prefix_append _ _) hlen
  · intro hpre
    exact hpre.trans (List.prefix_append _ _)

theorem HasTerm.append {a : Bytes} {i : ℕ} (h : HasTerm a i) (b : Bytes) : HasTerm (a ++ b) i :=
  (hasTerm_append h.le).mpr h

theorem hasTerm_zero {b : Bytes} : HasTerm b 0 ↔ ∃ rest, b = 13 :: 10 :: 13 :: 10 :: rest := by
  constructor
  · rintro ⟨rest, h⟩
    exact ⟨rest, h.symm⟩
  · rintro ⟨rest, rfl⟩
    exact ⟨rest, rfl⟩

/-- A terminator that overlaps an earlier one ends in a CR LF behind it. -/
theorem HasTerm.overlap {b : Bytes} {i j : ℕ} (h : HasTerm b i) (h' : HasTerm b j) (hij : i < j)
    (hj : j < i + 4) : j = i + 2 ∧ [13, 10] <+: b.drop (i + 4) := by
  obtain ⟨rest, hi⟩ := hasTerm_zero.mp (hasTerm_drop.mpr h)
  obtain ⟨rest', hrest⟩ := hasTerm_zero.mp (hasTerm_drop.mpr h')
  obtain ⟨d, rfl⟩ : ∃ d, j = i + d := ⟨j - i, by omega⟩
  rw [← List.drop_drop, hi] at hrest
  have hd : d = 1 ∨ d = 2 ∨ d = 3 := by omega
  obtain rfl | rfl | rfl := hd
  · simp at hrest
  · refine ⟨rfl, ?_⟩
    rw [← List.drop_drop, hi]
    simp only [List.drop_succ_cons, List.drop_zero, List.cons.injEq, true_and] at hrest ⊢
    exact ⟨rest', hrest.symm⟩
  · simp at hrest

theorem hasTerm_of_crlf {b : Bytes} {i : ℕ} (h : HasTerm b i) (h' : [13, 10] <+: b.drop (i + 4)) :
    HasTerm b (i + 2) := by
  obtain ⟨rest, hi⟩ := hasTerm_zero.mp (hasTerm_drop.mpr h)
  obtain ⟨rest', hrest⟩ := h'
  rw [← List.drop_drop, hi] at hrest
  refine ⟨rest', ?_⟩
  rw [← List.drop_drop, hi]
  simpa [httpTerminator] using hrest

theorem first_or_none (b : Bytes) (i : ℕ) :
    (∀ j, i ≤ j → ¬ HasTerm b j) ∨
    ∃ m, i ≤ m ∧ HasTerm b m ∧ ∀ j, i ≤ j → j < m → ¬ HasTerm b j := by
  by_cases h : ∃ j, i ≤ j ∧ HasTerm b j
  · refine Or.inr ⟨Nat.find h, (Nat.find_spec h).1, (Nat.find_spec h).2, fun j hij hj hterm => ?_⟩
    exact Nat.find_min h hj ⟨hij, hterm⟩
  · exact Or.inl fun j hij hterm => h ⟨j, hij, hterm⟩

/-! ### The requests of a stream -/

theorem requestsFrom_none {start n : ℕ} {b : Bytes} (h : ∀ j, ¬ HasTerm b j) :
    requestsFrom start n b = [] := by
  fun_induction requestsFrom start n b with
  | case1 => rfl
  | case2 start n rest ih => exact absurd (hasTerm_zero.mpr ⟨rest, rfl⟩) (h 0)
  | case3 start n x rest hx ih => exact ih fun j hj => h (j + 1) hj

theorem requestsFrom_first {start n m : ℕ} {b : Bytes} (h : HasTerm b m)
    (hfirst : ∀ j, j < m → ¬ HasTerm b j) :
    requestsFrom start n b =
      ⟨start, (n + m + 4 : ℕ)⟩ :: requestsFrom (start + (n + m + 4)) 0 (b.drop (m + 4)) := by
  fun_induction requestsFrom start n b generalizing m with
  | case1 => exact absurd h.le (by simp)
  | case2 start n rest ih =>
    obtain rfl | hm := Nat.eq_zero_or_pos m
    · rfl
    · exact absurd (hasTerm_zero.mpr ⟨rest, rfl⟩) (hfirst 0 hm)
  | case3 start n x rest hx ih =>
    cases m with
    | zero =>
      obtain ⟨tail, htail⟩ := hasTerm_zero.mp h
      cases htail
      exact absurd rfl (hx tail rfl)
    | succ m =>
      rw [ih (hasTerm_cons_succ.mp h) fun j hj => hfirst (j + 1) (by omega)]
      have hlen : n + 1 + m + 4 = n + (m + 1) + 4 := by omega
      rw [hlen]
      rfl

theorem requestsFrom_eq_nil {start n : ℕ} {b : Bytes} :
    requestsFrom start n b = [] ↔ ∀ j, ¬ HasTerm b j := by
  constructor
  · intro h
    obtain hnone | ⟨m, -, hm, hfirst⟩ := first_or_none b 0
    · exact fun j => hnone j (Nat.zero_le _)
    · rw [requestsFrom_first hm fun j => hfirst j (Nat.zero_le _)] at h
      cases h
  · exact requestsFrom_none

theorem le_start_of_mem {start n : ℕ} {b : Bytes} {r : Call} (h : r ∈ requestsFrom start n b) :
    start ≤ r.start := by
  fun_induction requestsFrom start n b with
  | case1 => cases h
  | case2 start n rest ih =>
    cases h with
    | head => exact Nat.le_refl _
    | tail _ h => exact Nat.le_trans (Nat.le_add_right _ _) (ih h)
  | case3 start n x rest hx ih => exact ih h

section
variable {c : Chunk} {cs : List Chunk} {last : Int}

theorem oneRequestEach_none (h : ∀ j, ¬ HasTerm (c.bytes ++ stream cs) j) :
    OneRequestEach last (c :: cs) := by
  rw [OneRequestEach, requestsFrom_none h]
  trivial

theorem oneRequestEach_first {m : ℕ} (h : HasTerm (c.bytes ++ stream cs) m)
    (hfirst : ∀ j, j < m → ¬ HasTerm (c.bytes ++ stream cs) j) :
    OneRequestEach last (c :: cs) ↔ last < (m + 4 : ℕ) ∧
      (m + 4 = c.bytes.length ∧ OneRequestEach (m + 4 : ℕ) cs ∨
        m + 4 < c.bytes.length ∧ (∀ j, ¬ HasTerm ((c.bytes ++ stream cs).drop (m + 4)) j) ∧
          ¬ [13, 10] <+: c.bytes.drop (m + 4)) := by
  rw [OneRequestEach, requestsFrom_first h hfirst, Nat.zero_add]
  simp only [requestsFrom_eq_nil, Int.toNat_natCast, Nat.cast_inj, Nat.cast_lt]

end

/-! ### Scanning the main buffer -/

theorem bufStructInit_scanner {n : Int} {b : BufStruct} (h : bufStructInit n = some b) :
    b.scannerIndex = 0 := by
  unfold bufStructInit at h
  split at h
  · cases h
  · cases h
    rfl

/-- `main` is about to receive: what the scan of the last chunk has left. -/
structure AtRecv (s : Webserver) (cs : List Chunk) (pos i : ℕ) (begun : Int) (full : Bool)
    (calls : List Call) : Prop where
  control : s.control = .recv
  scanner : s.recvBuf.scannerIndex = i
  begun : s.recvBuf.reqBeginIndex = begun
  full : s.recvBufFullyProcessed = full
  chunks : s.chunks = cs
  taken : s.taken = pos
  calls : s.calls = calls

/-- `main` is in the scan loop, the chunk `c` in the buffer. -/
structure Scanning (s : Webserver) (c : Chunk) (cs : List Chunk) (pos i : ℕ) (begun : Int)
    (full : Bool) (calls : List Call) : Prop where
  control : s.control = .recvScan
  bytes : c.bytes <+: s.recvBuf.buffer
  used : s.recvBuf.usedSpace = c.bytes.length
  origin : s.recvBuf.origin = pos
  scanner : s.recvBuf.scannerIndex = i
  begun : s.recvBuf.reqBeginIndex = begun
  full : s.recvBufFullyProcessed = full
  chunks : s.chunks = cs
  taken : s.taken = pos + c.bytes.length
  calls : s.calls = calls

/-- Nothing is processed any more: the program has ended, or works on the
secondary buffer, whose scanner stands at 0. -/
def Silent (s : Webserver) : Prop :=
  s.control = .exited ∨
  (s.control = .reqRecv ∨ s.control = .reqScan ∨ s.control = .reqScanned) ∧
    s.reqBuf.scannerIndex = 0 ∧ s.terminatorPresent2 = false

theorem atRecv_start (chunks : List Chunk) :
    AtRecv (webserverStart chunks) chunks 0 0 0 false [] :=
  ⟨rfl, rfl, rfl, rfl, rfl, rfl, rfl⟩

section
variable {s : Webserver} {c : Chunk} {cs : List Chunk} {pos i : ℕ} {begun : Int} {full : Bool}
  {calls : List Call}

theorem AtRecv.recv_nil (h : AtRecv s [] pos i begun full calls) :
    Silent s.step ∧ s.step.calls = calls := by
  have hstep : s.step = { s with control := .exited } := by
    rw [Webserver.step, h.control, Webserver.recv, h.chunks]
  rw [hstep]
  exact ⟨Or.inl rfl, h.calls⟩

theorem AtRecv.recv_cons (h : AtRecv s (c :: cs) pos i begun full calls) :
    Scanning s.step c cs pos i begun full calls := by
  have hstep : s.step = { s with
      control := .recvScan, recvBuf := s.recvBuf.receive s.taken c, remaining := 0,
      chunks := cs, taken := s.taken + c.bytes.length } := by
    rw [Webserver.step, h.control, Webserver.recv, h.chunks]
  rw [hstep]
  exact ⟨rfl, List.prefix_append _ _, rfl, h.taken, h.scanner, h.begun, h.full, rfl,
    congrArg (· + c.bytes.length) h.taken, h.calls⟩

theorem Scanning.step_eq (h : Scanning s c cs pos i begun full calls) : s.step = s.recvScan := by
  simp only [Webserver.step, h.control]

theorem Scanning.inScan_iff (h : Scanning s c cs pos i begun full calls) :
    s.recvBuf.inScan ↔ i + 4 ≤ c.bytes.length := by
  rw [BufStruct.inScan, h.scanner, h.used, terminatorLength]
  omega

theorem Scanning.atTerminator_iff (h : Scanning s c cs pos i begun full calls)
    (hi : i + 4 ≤ c.bytes.length) : s.recvBuf.atTerminator = true ↔ HasTerm c.bytes i := by
  obtain ⟨old, hold⟩ := h.bytes
  rw [BufStruct.atTerminator, h.scanner, Int.toNat_natCast, List.isPrefixOf_iff_prefix, ← hold]
  exact hasTerm_append hi

theorem Scanning.skip (h : Scanning s c cs pos i begun full calls) (hi : i + 4 ≤ c.bytes.length)
    (hterm : ¬ HasTerm c.bytes i) : Scanning s.step c cs pos (i + 1) begun full calls := by
  have hstep : s.step = { s with
      recvBuf := { s.recvBuf with scannerIndex := s.recvBuf.scannerIndex + 1 } } := by
    rw [h.step_eq, Webserver.recvScan]
    simp only [if_pos (h.inScan_iff.mpr hi), if_neg (mt (h.atTerminator_iff hi).mp hterm)]
  rw [hstep]
  exact ⟨h.control, h.bytes, h.used, h.origin, congrArg (· + 1) h.scanner, h.begun, h.full,
    h.chunks, h.taken, h.calls⟩

theorem Scanning.pass (h : Scanning s c cs pos i begun full calls) {k : ℕ} (hik : i ≤ k)
    (hk : k ≤ c.bytes.length - 3) (hterm : ∀ j, i ≤ j → j < k → ¬ HasTerm c.bytes j) :
    ∃ t, Reaches Webserver.step s t ∧ Scanning t c cs pos k begun full calls := by
  induction k, hik using Nat.le_induction with
  | base => exact ⟨s, Reaches.refl s, h⟩
  | succ k hik ih =>
    obtain ⟨t, hreach, ht⟩ := ih (by omega) fun j hij hj => hterm j hij (by omega)
    exact ⟨t.step, hreach.trans (Reaches.single t),
      ht.skip (by omega) (hterm k hik (Nat.lt_succ_self k))⟩

theorem Scanning.hit_end (h : Scanning s c cs pos i begun full calls) (hterm : HasTerm c.bytes i)
    (hbegun : (i : Int) ≠ begun) (hi : i + 4 = c.bytes.length) :
    Scanning s.step c cs pos (i + 1) begun true (calls ++ [⟨pos, i - begun + 4⟩]) := by
  have hne : s.recvBuf.scannerIndex ≠ s.recvBuf.reqBeginIndex := by
    rw [h.scanner, h.begun]
    exact hbegun
  have hend : s.recvBuf.scannerIndex = s.recvBuf.usedSpace - terminatorLength := by
    rw [h.scanner, h.used, terminatorLength]
    omega
  have hcall : s.calls ++ [⟨s.recvBuf.origin,
      s.recvBuf.scannerIndex - s.recvBuf.reqBeginIndex + terminatorLength⟩] =
      calls ++ [⟨pos, i - begun + 4⟩] := by
    rw [h.calls, h.origin, h.scanner, h.begun]
    rfl
  have hstep : s.step = { s with
      calls := s.calls ++ [⟨s.recvBuf.origin,
        s.recvBuf.scannerIndex - s.recvBuf.reqBeginIndex + terminatorLength⟩],
      recvBufFullyProcessed := true,
      recvBuf := { s.recvBuf with scannerIndex := s.recvBuf.scannerIndex + 1 } } := by
    rw [h.step_eq, Webserver.recvScan]
    simp only [if_pos (h.inScan_iff.mpr hi.le), if_pos ((h.atTerminator_iff hi.le).mpr hterm),
      if_neg hne, if_pos hend]
    rfl
  rw [hstep]
  exact ⟨h.control, h.bytes, h.used, h.origin, congrArg (· + 1) h.scanner, h.begun, rfl,
    h.chunks, h.taken, hcall⟩

theorem Scanning.hit (h : Scanning s c cs pos i begun full calls) (hterm : HasTerm c.bytes i)
    (hbegun : (i : Int) ≠ begun) (hi : i + 4 < c.bytes.length) :
    Scanning s.step c cs pos (i + 1) (i + 4) full (calls ++ [⟨pos, i - begun + 4⟩]) := by
  have hne : s.recvBuf.scannerIndex ≠ s.recvBuf.reqBeginIndex := by
    rw [h.scanner, h.begun]
    exact hbegun
  have hend : s.recvBuf.scannerIndex ≠ s.recvBuf.usedSpace - terminatorLength := by
    rw [h.scanner, h.used, terminatorLength]
    omega
  have hcall : s.calls ++ [⟨s.recvBuf.origin,
      s.recvBuf.scannerIndex - s.recvBuf.reqBeginIndex + terminatorLength⟩] =
      calls ++ [⟨pos, i - begun + 4⟩] := by
    rw [h.calls, h.origin, h.scanner, h.begun]
    rfl
  have hstep : s.step = { s with
      calls := s.calls ++ [⟨s.recvBuf.origin,
        s.recvBuf.scannerIndex - s.recvBuf.reqBeginIndex + terminatorLength⟩],
      recvBuf := { s.recvBuf with
        reqBeginIndex := s.recvBuf.scannerIndex + terminatorLength,
        scannerIndex := s.recvBuf.scannerIndex + 1 } } := by
    rw [h.step_eq, Webserver.recvScan]
    simp only [if_pos (h.inScan_iff.mpr hi.le), if_pos ((h.atTerminator_iff hi.le).mpr hterm),
      if_neg hne, if_neg hend]
    rfl
  rw [hstep]
  exact ⟨h.control, h.bytes, h.used, h.origin, congrArg (· + 1) h.scanner,
    congrArg (· + (terminatorLength : Int)) h.scanner, h.full, h.chunks, h.taken, hcall⟩

theorem Scanning.hit_empty (h : Scanning s c cs pos i i full calls) (hterm : HasTerm c.bytes i) :
    Silent s.step ∧ s.step.calls = calls := by
  have heq : s.recvBuf.scannerIndex = s.recvBuf.reqBeginIndex := h.scanner.trans h.begun.symm
  have hstep : s.step = { s with control := .exited } := by
    rw [h.step_eq, Webserver.recvScan]
    simp only [if_pos (h.inScan_iff.mpr hterm.le), if_pos ((h.atTerminator_iff hterm.le).mpr hterm),
      if_pos heq]
  rw [hstep]
  exact ⟨Or.inl rfl, h.calls⟩

theorem Scanning.scanned (h : Scanning s c cs pos i begun full calls)
    (hi : c.bytes.length < i + 4) : s.step = { s with control := .recvScanned } := by
  rw [h.step_eq, Webserver.recvScan]
  simp only [if_neg (mt h.inScan_iff.mp (by omega))]

theorem Scanning.finish (h : Scanning s c cs pos i begun true calls)
    (hi : c.bytes.length < i + 4) :
    AtRecv s.step.step cs (pos + c.bytes.length) i begun true calls := by
  have hstep : s.step.step = { s with control := .recv } := by
    rw [h.scanned hi, Webserver.step, Webserver.recvScanned, if_pos h.full]
  rw [hstep]
  exact ⟨rfl, h.scanner, h.begun, h.full, h.chunks, h.taken, h.calls⟩

theorem Scanning.finish_silent (h : Scanning s c cs pos i begun false calls)
    (hi : c.bytes.length < i + 4) : Silent s.step.step ∧ s.step.step.calls = calls := by
  have hfull : ¬ s.recvBufFullyProcessed = true := by
    rw [h.full]
    decide
  rw [h.scanned hi, Webserver.step, Webserver.recvScanned, if_neg hfull]
  cases hinit : bufStructInit (s.recvBuf.availableSpace * 2) with
  | none => exact ⟨Or.inl rfl, h.calls⟩
  | some reqBuf =>
    have hscanner := bufStructInit_scanner hinit
    exact ⟨Or.inr ⟨Or.inl rfl, hscanner, rfl⟩, h.calls⟩

end

/-! ### No more calls -/

theorem bufStructExpand_scanner {old b : BufStruct} (h : bufStructExpand old = some b) :
    b.scannerIndex = old.scannerIndex := by
  unfold bufStructExpand at h
  cases hinit : bufStructInit (old.availableSpace * 2) with
  | none =>
    rw [hinit] at h
    cases h
  | some new =>
    rw [hinit] at h
    cases h
    rfl

/-- The scan of the secondary buffer ends the program or does not get on. -/
theorem Silent.step {s : Webserver} (h : Silent s) : Silent s.step ∧ s.step.calls = s.calls := by
  obtain hexit | ⟨hcontrol, hscanner, hpresent⟩ := h
  · have hstep : s.step = s := by
      simp only [Webserver.step, hexit]
    rw [hstep]
    exact ⟨Or.inl hexit, rfl⟩
  · obtain hcontrol | hcontrol | hcontrol := hcontrol
    · have hstep : s.step = s.reqRecv := by
        simp only [Webserver.step, hcontrol]
      rw [hstep, Webserver.reqRecv]
      cases s.chunks with
      | nil => exact ⟨Or.inl rfl, rfl⟩
      | cons c cs =>
        dsimp only
        split
        · exact ⟨Or.inl rfl, rfl⟩
        · next b hroomy =>
          refine ⟨Or.inr ⟨Or.inr (Or.inl rfl), ?_, hpresent⟩, rfl⟩
          split at hroomy
          · exact (bufStructExpand_scanner hroomy).trans hscanner
          · cases hroomy
            exact hscanner
    · have hstep : s.step = s.reqScan := by
        simp only [Webserver.step, hcontrol]
      rw [hstep, Webserver.reqScan]
      dsimp only
      split
      · split
        · exact ⟨Or.inl rfl, rfl⟩
        · exact ⟨Or.inr ⟨Or.inr (Or.inl hcontrol), hscanner, hpresent⟩, rfl⟩
      · exact ⟨Or.inr ⟨Or.inr (Or.inr rfl), hscanner, hpresent⟩, rfl⟩
    · have hstep : s.step = { s with control := .reqRecv } := by
        simp only [Webserver.step, hcontrol, hpresent]
        rfl
      rw [hstep]
      exact ⟨Or.inr ⟨Or.inl rfl, hscanner, hpresent⟩, rfl⟩

theorem Silent.settles_iff {s : Webserver} (h : Silent s) {a : List Call} :
    Settles Webserver.step Webserver.calls s a ↔ s.calls = a :=
  settles_iff_of_silent (P := Silent) (fun _ hs => hs.step) h

structure CallsFrom (pos : ℕ) (base : List Call) (s : Webserver) : Prop where
  calls : ∃ extra, s.calls = base ++ extra ∧ ∀ r ∈ extra, pos ≤ r.start
  control : s.control = .recv ∧ pos ≤ s.taken ∨
    (s.control = .recvScan ∨ s.control = .recvScanned) ∧ pos ≤ s.recvBuf.origin ∧ pos ≤ s.taken ∨
    Silent s

theorem CallsFrom.processRequest {pos : ℕ} {base : List Call} {s : Webserver}
    (h : CallsFrom pos base s) {start : ℕ} {reqLen : Int} (hstart : pos ≤ start) :
    ∃ extra, s.calls ++ [⟨start, reqLen⟩] = base ++ extra ∧ ∀ r ∈ extra, pos ≤ r.start := by
  obtain ⟨extra, hcalls, hfrom⟩ := h.calls
  refine ⟨extra ++ [⟨start, reqLen⟩], by rw [hcalls, List.append_assoc], fun r hr => ?_⟩
  obtain hr | hr := List.mem_append.mp hr
  · exact hfrom r hr
  · rw [List.mem_singleton.mp hr]
    exact hstart

theorem CallsFrom.step {pos : ℕ} {base : List Call} {s : Webserver} (h : CallsFrom pos base s) :
    CallsFrom pos base s.step := by
  obtain ⟨hcontrol, htaken⟩ | ⟨hcontrol, horigin, htaken⟩ | hsilent := h.control
  · have hstep : s.step = s.recv := by
      simp only [Webserver.step, hcontrol]
    rw [hstep, Webserver.recv]
    cases s.chunks with
    | nil => exact ⟨h.calls, Or.inr (Or.inr (Or.inl rfl))⟩
    | cons c cs =>
      exact ⟨h.calls, Or.inr (Or.inl ⟨Or.inl rfl, htaken, Nat.le_add_right_of_le htaken⟩)⟩
  · obtain hcontrol | hcontrol := hcontrol
    · have hstep : s.step = s.recvScan := by
        simp only [Webserver.step, hcontrol]
      have hscan : s.control = .recvScan ∨ s.control = .recvScanned := Or.inl hcontrol
      rw [hstep, Webserver.recvScan]
      dsimp only
      split
      · split
        · split
          · exact ⟨h.calls, Or.inr (Or.inr (Or.inl rfl))⟩
          · split <;>
              exact ⟨h.processRequest horigin, Or.inr (Or.inl ⟨hscan, horigin, htaken⟩)⟩
        · exact ⟨h.calls, Or.inr (Or.inl ⟨hscan, horigin, htaken⟩)⟩
      · exact ⟨h.calls, Or.inr (Or.inl ⟨Or.inr rfl, horigin, htaken⟩)⟩
    · have hstep : s.step = s.recvScanned := by
        simp only [Webserver.step, hcontrol]
      rw [hstep, Webserver.recvScanned]
      split
      · exact ⟨h.calls, Or.inl ⟨rfl, htaken⟩⟩
      · cases hinit : bufStructInit (s.recvBuf.availableSpace * 2) with
        | none => exact ⟨h.calls, Or.inr (Or.inr (Or.inl rfl))⟩
        | some reqBuf =>
          have hscanner := bufStructInit_scanner hinit
          exact ⟨h.calls, Or.inr (Or.inr (Or.inr ⟨Or.inl rfl, hscanner, rfl⟩))⟩
  · obtain ⟨hsilent', hcalls⟩ := hsilent.step
    refine ⟨?_, Or.inr (Or.inr hsilent')⟩
    rw [hcalls]
    exact h.calls

theorem CallsFrom.settles {pos : ℕ} {base a : List Call} {s : Webserver} (h : CallsFrom pos base s)
    (ha : Settles Webserver.step Webserver.calls s a) :
    ∃ extra, a = base ++ extra ∧ ∀ r ∈ extra, pos ≤ r.start := by
  obtain ⟨n, hn⟩ := ha.exists_iterate
  obtain ⟨extra, hextra, hfrom⟩ := (iterate_invariant (fun _ hs => hs.step) h n).calls
  exact ⟨extra, hn.symm.trans hextra, hfrom⟩

section
variable {s : Webserver} {c : Chunk} {cs : List Chunk} {pos i : ℕ} {begun : Int} {full : Bool}
  {calls : List Call}

theorem AtRecv.callsFrom (h : AtRecv s cs pos i begun full calls) : CallsFrom pos calls s :=
  ⟨⟨[], by rw [h.calls, List.append_nil], fun r hr => absurd hr List.not_mem_nil⟩,
    Or.inl ⟨h.control, h.taken.ge⟩⟩

theorem Scanning.callsFrom (h : Scanning s c cs pos i begun full calls) : CallsFrom pos calls s :=
  ⟨⟨[], by rw [h.calls, List.append_nil], fun r hr => absurd hr List.not_mem_nil⟩,
    Or.inr (Or.inl ⟨Or.inl h.control, h.origin.ge, by rw [h.taken]; omega⟩)⟩

/-! ### One chunk -/

theorem Scanning.rest (h : Scanning s c cs pos i begun full calls)
    (hterm : ∀ j, i ≤ j → ¬ HasTerm c.bytes j) : ∃ t, Reaches Webserver.step s t ∧
      (full = true ∧ (∃ k, AtRecv t cs (pos + c.bytes.length) k begun true calls) ∨
        full = false ∧ Silent t ∧ t.calls = calls) := by
  obtain ⟨k, t, hreach, ht, hk⟩ : ∃ k t, Reaches Webserver.step s t ∧
      Scanning t c cs pos k begun full calls ∧ c.bytes.length < k + 4 := by
    by_cases hi : c.bytes.length < i + 4
    · exact ⟨i, s, Reaches.refl s, h, hi⟩
    · obtain ⟨t, hreach, ht⟩ := h.pass (k := c.bytes.length - 3) (by omega) (Nat.le_refl _)
        fun j hij _ => hterm j hij
      exact ⟨_, t, hreach, ht, by omega⟩
  have hend : Reaches Webserver.step s t.step.step :=
    hreach.trans ((Reaches.single t).trans (Reaches.single t.step))
  cases full with
  | true => exact ⟨_, hend, Or.inl ⟨rfl, k, ht.finish hk⟩⟩
  | false => exact ⟨_, hend, Or.inr ⟨rfl, ht.finish_silent hk⟩⟩

theorem AtRecv.quiet (h : AtRecv s cs pos i begun full calls)
    (hterm : ∀ j, ¬ HasTerm (stream cs) j) {a : List Call} :
    Settles Webserver.step Webserver.calls s a ↔ calls = a := by
  induction cs generalizing s pos i full with
  | nil =>
    obtain ⟨hsilent, hcalls⟩ := h.recv_nil
    rw [(Reaches.single s).settles_iff, hsilent.settles_iff, hcalls]
  | cons c cs ih =>
    rw [stream_cons] at hterm
    obtain ⟨t, hreach, ⟨-, k, ht⟩ | ⟨-, hsilent, hcalls⟩⟩ := h.recv_cons.rest
      fun j _ hj => hterm j (hj.append _)
    · rw [((Reaches.single s).trans hreach).settles_iff]
      refine ih ht fun j hj => hterm (c.bytes.length + j) ?_
      rw [← hasTerm_drop, List.drop_left]
      exact hj
    · rw [((Reaches.single s).trans hreach).settles_iff, hsilent.settles_iff, hcalls]

theorem Scanning.quiet (h : Scanning s c cs pos i begun full calls)
    (hterm : ∀ j, i ≤ j → ¬ HasTerm c.bytes j) (hrest : ∀ j, ¬ HasTerm (stream cs) j)
    {a : List Call} : Settles Webserver.step Webserver.calls s a ↔ calls = a := by
  obtain ⟨t, hreach, ⟨-, k, ht⟩ | ⟨-, hsilent, hcalls⟩⟩ := h.rest hterm
  · rw [hreach.settles_iff]
    exact ht.quiet hrest
  · rw [hreach.settles_iff, hsilent.settles_iff, hcalls]

/-- The next request is not found in the chunk it begins with: it never is. -/
theorem Scanning.missed (h : Scanning s c cs pos i begun full calls)
    (hterm : ∀ j, i ≤ j → ¬ HasTerm c.bytes j) (n : Int) (more : List Call) :
    ¬ Settles Webserver.step Webserver.calls s (calls ++ ⟨pos, n⟩ :: more) := by
  intro hsettles
  obtain ⟨t, hreach, ⟨-, k, ht⟩ | ⟨-, hsilent, hcalls⟩⟩ := h.rest hterm
  · rw [hreach.settles_iff] at hsettles
    obtain ⟨extra, hextra, hfrom⟩ := ht.callsFrom.settles hsettles
    have hstart := hfrom ⟨pos, n⟩ (by rw [← List.append_cancel_left hextra]; exact List.mem_cons_self)
    have hpos := c.pos
    dsimp only at hstart
    omega
  · rw [hreach.settles_iff, hsilent.settles_iff, hcalls] at hsettles
    have hlen := congrArg List.length hsettles
    rw [List.length_append, List.length_cons] at hlen
    omega

/-- A terminator found anywhere in the chunk: the call is about the whole buffer. -/
theorem Scanning.hit_any (h : Scanning s c cs pos i begun full calls) (hterm : HasTerm c.bytes i)
    (hbegun : (i : Int) ≠ begun) :
    CallsFrom pos (calls ++ [⟨pos, i - begun + 4⟩]) s.step := by
  obtain heq | hlt := Nat.eq_or_lt_of_le hterm.le
  · exact (h.hit_end hterm hbegun heq).callsFrom
  · exact (h.hit hterm hbegun hlt).callsFrom

/-- The first terminator found is not the one that ends the next request. -/
theorem Scanning.hit_wrong (h : Scanning s c cs pos i 0 full calls) {j m : ℕ} (hij : i ≤ j)
    (hterm : HasTerm c.bytes j) (hfirst : ∀ k, i ≤ k → k < j → ¬ HasTerm c.bytes k)
    (hwrong : ¬ (j = m ∧ 1 ≤ j)) (more : List Call) :
    ¬ Settles Webserver.step Webserver.calls s (calls ++ ⟨pos, (m + 4 : ℕ)⟩ :: more) := by
  intro hsettles
  have hle := hterm.le
  obtain ⟨t, hreach, ht⟩ := h.pass hij (by omega) hfirst
  rw [(hreach.trans (Reaches.single t)).settles_iff] at hsettles
  obtain rfl | hj := Nat.eq_zero_or_pos j
  · obtain ⟨hsilent, hcalls⟩ := ht.hit_empty hterm
    rw [hsilent.settles_iff, hcalls] at hsettles
    have hlen := congrArg List.length hsettles
    rw [List.length_append, List.length_cons] at hlen
    omega
  · obtain ⟨extra, hextra, -⟩ := (ht.hit_any hterm (by omega)).settles hsettles
    rw [List.append_assoc] at hextra
    have hcons := List.append_cancel_left hextra
    rw [List.singleton_append] at hcons
    have hcall := congrArg Call.reqLen (List.cons.inj hcons).1
    dsimp only at hcall
    exact hwrong ⟨by omega, hj⟩

theorem Scanning.behind_none {m : ℕ} {base : List Call}
    (h : Scanning s c cs pos (m + 1) (m + 4) full base) (hlt : m + 4 < c.bytes.length)
    (hnone : ∀ j, m + 1 ≤ j → ¬ HasTerm c.bytes j) :
    Settles Webserver.step Webserver.calls s (base ++
        requestsFrom (pos + (m + 4)) 0 ((c.bytes ++ stream cs).drop (m + 4))) ↔
      ∀ j, ¬ HasTerm ((c.bytes ++ stream cs).drop (m + 4)) j := by
  generalize hX : (c.bytes ++ stream cs).drop (m + 4) = X
  constructor
  · intro hsettles
    refine requestsFrom_eq_nil.mp (?_ : requestsFrom (pos + (m + 4)) 0 X = [])
    obtain ⟨w, hreach, ⟨-, l, hw⟩ | ⟨-, hsilent, hcalls⟩⟩ := h.rest hnone
    · rw [hreach.settles_iff] at hsettles
      obtain ⟨extra, hextra, hfrom⟩ := hw.callsFrom.settles hsettles
      obtain hnil | ⟨m', -, hm', hfirst'⟩ := first_or_none X 0
      · exact requestsFrom_none fun j => hnil j (Nat.zero_le _)
      · have hhead : requestsFrom (pos + (m + 4)) 0 X = _ :=
          requestsFrom_first hm' fun j => hfirst' j (Nat.zero_le _)
        have hstart := hfrom _ (by
          rw [← List.append_cancel_left hextra, hhead]
          exact List.mem_cons_self)
        dsimp only at hstart
        omega
    · rw [hreach.settles_iff, hsilent.settles_iff, hcalls] at hsettles
      exact List.self_eq_append_right.mp hsettles
  · intro hno
    rw [requestsFrom_none hno, List.append_nil, h.quiet hnone]
    intro j hj
    refine hno (c.bytes.length - (m + 4) + j) ?_
    rw [← hX, List.drop_append_of_le_length hlt.le, ← List.length_drop, ← hasTerm_drop,
      List.drop_left]
    exact hj

theorem hasTerm_behind {m d : ℕ} (h : HasTerm c.bytes (m + d)) :
    HasTerm ((c.bytes ++ stream cs).drop m) d := by
  rw [hasTerm_drop]
  exact h.append _

theorem Scanning.behind_found {m k : ℕ} {base : List Call}
    (h : Scanning s c cs pos (m + 1) (m + 4) full base) (hmk : m + 1 ≤ k)
    (hk : HasTerm c.bytes k) (hkfirst : ∀ j, m + 1 ≤ j → j < k → ¬ HasTerm c.bytes j) :
    ¬ Settles Webserver.step Webserver.calls s (base ++
      requestsFrom (pos + (m + 4)) 0 ((c.bytes ++ stream cs).drop (m + 4))) := by
  intro hsettles
  have hle := hk.le
  obtain ⟨w, hreach, hw⟩ := h.pass hmk (by omega) hkfirst
  rw [(hreach.trans (Reaches.single w)).settles_iff] at hsettles
  by_cases hempty : k = m + 4
  · subst hempty
    obtain ⟨hsilent, hcalls⟩ := Scanning.hit_empty (i := m + 4) (by exact_mod_cast hw) hk
    rw [hsilent.settles_iff, hcalls] at hsettles
    have hnil := List.self_eq_append_right.mp hsettles
    exact requestsFrom_eq_nil.mp hnil 0 (hasTerm_behind hk)
  · obtain ⟨extra, hextra, -⟩ := (hw.hit_any hk (by omega)).settles hsettles
    rw [List.append_assoc] at hextra
    have hmem : (⟨pos, k - (m + 4) + 4⟩ : Call) ∈ requestsFrom (pos + (m + 4)) 0
        ((c.bytes ++ stream cs).drop (m + 4)) := by
      rw [List.append_cancel_left hextra]
      exact List.mem_cons_self
    have hstart := le_start_of_mem hmem
    dsimp only at hstart
    omega

theorem call_from_zero (pos m : ℕ) :
    (⟨pos, (m : Int) - 0 + 4⟩ : Call) = ⟨pos, (m + 4 : ℕ)⟩ := by
  rw [Int.sub_zero, Nat.cast_add]
  rfl

theorem Scanning.hit_middle (h : Scanning s c cs pos i 0 full calls) {m : ℕ} (him : i ≤ m)
    (hm : 1 ≤ m) (hterm : HasTerm c.bytes m)
    (hfirst : ∀ k, i ≤ k → k < m → ¬ HasTerm c.bytes k) (hlt : m + 4 < c.bytes.length) :
    Settles Webserver.step Webserver.calls s (calls ++ ⟨pos, (m + 4 : ℕ)⟩ ::
        requestsFrom (pos + (m + 4)) 0 ((c.bytes ++ stream cs).drop (m + 4))) ↔
      (∀ j, ¬ HasTerm ((c.bytes ++ stream cs).drop (m + 4)) j) ∧
        ¬ [13, 10] <+: c.bytes.drop (m + 4) := by
  obtain ⟨t, hreach, ht⟩ := h.pass him (by omega) hfirst
  have hu := ht.hit hterm (by omega) hlt
  rw [(hreach.trans (Reaches.single t)).settles_iff]
  rw [call_from_zero] at hu
  rw [← List.singleton_append, ← List.append_assoc]
  obtain hnone | ⟨k, hmk, hk, hkfirst⟩ := first_or_none c.bytes (m + 1)
  · have hcrlf : ¬ [13, 10] <+: c.bytes.drop (m + 4) := fun hpre =>
      hnone (m + 2) (by omega) (hasTerm_of_crlf hterm hpre)
    rw [hu.behind_none hlt hnone, and_iff_left hcrlf]
  · refine iff_of_false (hu.behind_found hmk hk hkfirst) ?_
    rintro ⟨hno, hcrlf⟩
    by_cases hover : k < m + 4
    · exact hcrlf (hterm.overlap hk (by omega) hover).2
    · have hk' : m + 4 + (k - (m + 4)) = k := by omega
      exact hno (k - (m + 4)) (hasTerm_behind (by rwa [hk']))

theorem Scanning.hit_last (h : Scanning s c cs pos i 0 full calls) {m : ℕ} (him : i ≤ m)
    (hm : 1 ≤ m) (hterm : HasTerm c.bytes m)
    (hfirst : ∀ k, i ≤ k → k < m → ¬ HasTerm c.bytes k) (heq : m + 4 = c.bytes.length) :
    ∃ t, Reaches Webserver.step s t ∧
      AtRecv t cs (pos + (m + 4)) (m + 1) 0 true (calls ++ [⟨pos, (m + 4 : ℕ)⟩]) := by
  obtain ⟨t, hreach, ht⟩ := h.pass him (by omega) hfirst
  have hu := ht.hit_end hterm (by omega) heq
  rw [call_from_zero] at hu
  have hend : Reaches Webserver.step s t.step.step.step :=
    hreach.trans ((Reaches.single t).trans ((Reaches.single _).trans (Reaches.single _)))
  have hdone := hu.finish (by omega)
  rw [← heq] at hdone
  exact ⟨_, hend, hdone⟩

/-! ### All chunks -/

theorem AtRecv.settles_iff (h : AtRecv s cs pos i 0 full calls)
    (hstart : full = true ∧ 1 ≤ i ∨ full = false ∧ i = 0) :
    Settles Webserver.step Webserver.calls s (calls ++ requestsFrom pos 0 (stream cs)) ↔
      OneRequestEach (max (i + 3) 4) cs := by
  induction cs generalizing s pos i full calls with
  | nil =>
    rw [h.quiet fun j hj => absurd hj.le (by simp)]
    simp [requestsFrom, OneRequestEach]
  | cons c cs ih =>
    have hs := h.recv_cons
    obtain hnone | ⟨m, -, hm, hmfirst⟩ := first_or_none (c.bytes ++ stream cs) 0
    · have hno : ∀ j, ¬ HasTerm (c.bytes ++ stream cs) j := fun j => hnone j (Nat.zero_le _)
      rw [stream_cons, requestsFrom_none hno, List.append_nil, h.quiet hno]
      exact ⟨fun _ => oneRequestEach_none hno, fun _ => rfl⟩
    · have hmfirst' : ∀ j, j < m → ¬ HasTerm (c.bytes ++ stream cs) j :=
        fun j => hmfirst j (Nat.zero_le _)
      have hinside : m + 4 ≤ c.bytes.length → HasTerm c.bytes m := fun hle =>
        (hasTerm_append hle).mp hm
      rw [stream_cons, requestsFrom_first hm hmfirst', oneRequestEach_first hm hmfirst',
        Nat.zero_add, (Reaches.single s).settles_iff]
      obtain hmiss | ⟨j, hij, hj, hjfirst⟩ := first_or_none c.bytes i
      · refine iff_of_false (hs.missed hmiss _ _) ?_
        rintro ⟨hlast, hcond⟩
        exact hmiss m (by omega) (hinside (by omega))
      · by_cases hright : j = m ∧ 1 ≤ j
        · obtain ⟨rfl, hpos⟩ := hright
          have hlast : max ((i : Int) + 3) 4 < (j + 4 : ℕ) := by omega
          obtain heq | hlt := Nat.eq_or_lt_of_le hj.le
          · obtain ⟨t, hreach, ht⟩ := hs.hit_last hij hpos hj hjfirst heq
            have hdrop : (c.bytes ++ stream cs).drop (j + 4) = stream cs := by
              rw [heq, List.drop_left]
            have hmax : max (((j + 1 : ℕ) : Int) + 3) 4 = (j + 4 : ℕ) := by omega
            have hnext := ih ht (Or.inl ⟨rfl, by omega⟩)
            rw [hmax, List.append_assoc, List.singleton_append] at hnext
            rw [hreach.settles_iff, hdrop, hnext]
            constructor
            · exact fun hone => ⟨hlast, Or.inl ⟨heq, hone⟩⟩
            · rintro ⟨-, ⟨-, hone⟩ | ⟨hlt, -⟩⟩
              · exact hone
              · omega
          · rw [hs.hit_middle hij hpos hj hjfirst hlt]
            constructor
            · exact fun hend => ⟨hlast, Or.inr ⟨hlt, hend⟩⟩
            · rintro ⟨-, ⟨heq, -⟩ | ⟨-, hend⟩⟩
              · omega
              · exact hend
        · refine iff_of_false (hs.hit_wrong hij hj hjfirst hright _) ?_
          rintro ⟨hlast, hcond⟩
          have him : i ≤ m := by omega
          have hm' := hinside (by omega)
          have hjm : j ≤ m := by
            by_contra hlt
            exact hjfirst m him (by omega) hm'
          have hmj : m ≤ j := by
            by_contra hlt
            exact hmfirst' j (by omega) (hj.append _)
          exact hright ⟨by omega, by omega⟩

/-- The webserver processes the requests of a client if and only if each comes in
a chunk of its own, longer and longer. -/
theorem processesRequests_iff (chunks : List Chunk) :
    ProcessesRequests chunks ↔ OneRequestEach 4 chunks := by
  have h := (atRecv_start chunks).settles_iff (Or.inr ⟨rfl, rfl⟩)
  rw [List.nil_append] at h
  exact h

end

/-- The three packets of `test/packets.py`. -/
def packetsScript : List Chunk :=
  [⟨[82, 101, 113, 117, 101, 115, 116, 49, 13, 10, 13, 10], by decide, by decide⟩,
    ⟨[82, 101, 113, 117, 101, 115, 116, 13, 10, 50, 13, 10], by decide, by decide⟩,
    ⟨[13, 10], by decide, by decide⟩]

/-- Only the first of its two requests is processed. -/
theorem packetsScript_half_processed :
    (∀ b ∈ stream packetsScript, b ≠ 0) ∧
    (∀ r ∈ requestsFrom 0 0 (stream packetsScript), 4 < r.reqLen) ∧
    ¬ ProcessesRequests packetsScript := by
  refine ⟨by simp [packetsScript], by decide, fun h => ?_⟩
  have hreach : Reaches Webserver.step (webserverStart packetsScript)
      (Webserver.step^[40] (webserverStart packetsScript)) := ⟨40, rfl⟩
  have hexit : Silent (Webserver.step^[40] (webserverStart packetsScript)) := Or.inl (by decide)
  rw [ProcessesRequests, hreach.settles_iff, hexit.settles_iff] at h
  revert h
  decide

end RN2223.Praxis1

import RN2223.Praxis1.RequestScan

/-!
# The scan of the secondary buffer (webserver.c:306-337)

Behind every chunk that is appended to the secondary buffer the scan loop should
look at each position once. Its body leaves `scanner_index` alone, so the loop
ends at once or never.
-/

namespace RN2223.Praxis1
open CMemory Machine

def BufStruct.valid (b : BufStruct) : Bytes := b.buffer.take b.usedSpace.toNat

/-- `main` is at the inner `recv`, and `c` arrives. -/
structure InnerRecv (s : Webserver) (c : Chunk) (cs : List Chunk) : Prop where
  control : s.control = .reqRecv
  chunks : s.chunks = c :: cs
  absent : s.terminatorPresent2 = false
  space : 0 < s.reqBuf.availableSpace
  scanner : 0 ≤ s.reqBuf.scannerIndex

/-- The first terminator of the valid part that the scanner has not passed. -/
def BufStruct.FirstTerm (b : BufStruct) (m : ℕ) : Prop :=
  b.scannerIndex ≤ m ∧ HasTerm b.valid m ∧
    ∀ j : ℕ, b.scannerIndex ≤ j → j < m → ¬ HasTerm b.valid j

/-- The loop was left with the terminator at `m`: its request is processed, or an
empty one has ended the program. -/
structure FoundAt (t : Webserver) (m : ℕ) : Prop where
  control : t.control = .reqScanned ∨ t.control = .exited
  present : t.terminatorPresent2 = true
  scanner : t.reqBuf.scannerIndex = m

/-- Every position from the scanner's to `used_space - 4` is looked at within `n`
steps. -/
def Examines (s : Webserver) (n : ℕ) : Prop :=
  ∀ j : ℕ, s.reqBuf.scannerIndex ≤ j → (j : Int) ≤ s.reqBuf.usedSpace - terminatorLength →
    ∃ k < n, (Webserver.step^[k] s).control = .reqScan ∧
      (Webserver.step^[k] s).reqBuf.scannerIndex = j

/-- The loop ends: at the first terminator, or without one when every position was
examined, and then `main` is back at the inner `recv`. -/
def ScanEnds (s : Webserver) : Prop :=
  ∃ n, (∃ m, s.reqBuf.FirstTerm m ∧ FoundAt (Webserver.step^[n] s) m) ∨
    (∀ m, ¬ s.reqBuf.FirstTerm m) ∧ (Webserver.step^[n] s).control = .reqRecv ∧ Examines s n

/-! ### The chunk is appended -/

theorem bufStructExpand_some {old : BufStruct} (h : 0 < old.availableSpace) :
    ∃ b, bufStructExpand old = some b ∧ b.scannerIndex = old.scannerIndex ∧
      0 < b.availableSpace := by
  have hsize : ¬ old.availableSpace * 2 ≤ 0 := by omega
  have hdouble : 0 < old.availableSpace * 2 := by omega
  rw [bufStructExpand, bufStructInit, if_neg hsize]
  exact ⟨_, rfl, rfl, hdouble⟩

theorem reqRecv_room {b : BufStruct} (h : 0 < b.availableSpace) (n : Int) :
    ∃ b', (if b.availableSpace - b.usedSpace < n then bufStructExpand b else some b) = some b' ∧
      b'.scannerIndex = b.scannerIndex ∧ 0 < b'.availableSpace := by
  split
  · exact bufStructExpand_some h
  · exact ⟨b, rfl, rfl, h⟩

section
variable {s : Webserver} {c : Chunk} {cs : List Chunk}

/-- The scan begins where the last one has left the scanner. -/
theorem InnerRecv.step (h : InnerRecv s c cs) :
    s.step.control = .reqScan ∧ s.step.terminatorPresent2 = false ∧
      s.step.reqBuf.scannerIndex = s.reqBuf.scannerIndex := by
  have hstep : s.step = s.reqRecv := by
    simp only [Webserver.step, h.control]
  obtain ⟨b, hb, hscanner, -⟩ := reqRecv_room h.space c.bytes.length
  rw [hstep, Webserver.reqRecv, h.chunks]
  simp only [hb]
  exact ⟨trivial, h.absent, hscanner⟩

end

/-! ### One look at the buffer -/

section
variable {s : Webserver}

theorem atTerminator_iff {b : BufStruct} (h : b.inScan) (h0 : 0 ≤ b.scannerIndex) :
    b.atTerminator = true ↔ HasTerm b.valid b.scannerIndex.toNat := by
  have hscan : b.scannerIndex ≤ b.usedSpace - 4 := h
  have hsplit := List.take_append_drop b.usedSpace.toNat b.buffer
  rw [BufStruct.atTerminator, List.isPrefixOf_iff_prefix]
  show HasTerm b.buffer _ ↔ HasTerm (b.buffer.take _) _
  constructor
  · intro hterm
    have hle := hterm.le
    rw [← hsplit] at hterm
    refine (hasTerm_append ?_).mp hterm
    rw [List.length_take]
    omega
  · intro hterm
    rw [← hsplit]
    exact hterm.append _

theorem reqScan_step (hcontrol : s.control = .reqScan) : s.step = s.reqScan := by
  simp only [Webserver.step, hcontrol]

theorem reqScan_past (hcontrol : s.control = .reqScan) (habsent : s.terminatorPresent2 = false)
    (hpast : ¬ s.reqBuf.inScan) : s.step.step.control = .reqRecv := by
  have hstep : s.step = { s with control := .reqScanned } := by
    rw [reqScan_step hcontrol, Webserver.reqScan]
    simp only [if_neg hpast]
  rw [hstep]
  simp only [Webserver.step, habsent]
  rfl

theorem reqScan_found (hcontrol : s.control = .reqScan) (hscan : s.reqBuf.inScan)
    (hterm : s.reqBuf.atTerminator = true) : (s.step.control = .reqScanned ∨
      s.step.control = .exited) ∧ s.step.terminatorPresent2 = true ∧ s.step.reqBuf = s.reqBuf := by
  rw [reqScan_step hcontrol, Webserver.reqScan]
  simp only [if_pos hscan, hterm, Bool.or_true, if_true]
  split
  · exact ⟨Or.inr rfl, rfl, rfl⟩
  · exact ⟨Or.inl rfl, rfl, rfl⟩

/-- Anywhere else the loop makes no progress. -/
theorem reqScan_stuck (hcontrol : s.control = .reqScan) (habsent : s.terminatorPresent2 = false)
    (hscan : s.reqBuf.inScan) (hterm : s.reqBuf.atTerminator = false) (n : ℕ) :
    Webserver.step^[n] s = s := by
  refine Function.iterate_fixed ?_ n
  rw [reqScan_step hcontrol, Webserver.reqScan]
  simp only [if_pos hscan, hterm, habsent, Bool.or_false, Bool.false_eq_true, if_false]

theorem scanEnds_of_past (hcontrol : s.control = .reqScan) (habsent : s.terminatorPresent2 = false)
    (hpast : ¬ s.reqBuf.inScan) : ScanEnds s := by
  have hbehind : s.reqBuf.usedSpace - 4 < s.reqBuf.scannerIndex := Int.not_le.mp hpast
  refine ⟨2, Or.inr ⟨fun m hm => ?_, reqScan_past hcontrol habsent hpast, fun j hj hused => ?_⟩⟩
  · obtain ⟨hscanner, hterm, -⟩ := hm
    have hle := hterm.le
    rw [BufStruct.valid, List.length_take] at hle
    omega
  · rw [terminatorLength] at hused
    omega

theorem scanEnds_of_found (hcontrol : s.control = .reqScan) (h0 : 0 ≤ s.reqBuf.scannerIndex)
    (hscan : s.reqBuf.inScan) (hterm : s.reqBuf.atTerminator = true) : ScanEnds s := by
  obtain ⟨hleft, hpresent, hbuf⟩ := reqScan_found hcontrol hscan hterm
  have hnat : ((s.reqBuf.scannerIndex.toNat : ℕ) : Int) = s.reqBuf.scannerIndex :=
    Int.toNat_of_nonneg h0
  refine ⟨1, Or.inl ⟨s.reqBuf.scannerIndex.toNat, ⟨hnat.ge, ?_, fun j hj hlt => ?_⟩, hleft,
    hpresent, ?_⟩⟩
  · exact (atTerminator_iff hscan h0).mp hterm
  · omega
  · rw [hnat, Function.iterate_one, hbuf]

theorem not_scanEnds_of_stuck (hcontrol : s.control = .reqScan)
    (habsent : s.terminatorPresent2 = false) (hscan : s.reqBuf.inScan)
    (hterm : s.reqBuf.atTerminator = false) : ¬ ScanEnds s := by
  rintro ⟨n, ⟨m, -, hfound⟩ | ⟨-, hrecv, -⟩⟩
  · have hpresent := hfound.present
    rw [reqScan_stuck hcontrol habsent hscan hterm, habsent] at hpresent
    cases hpresent
  · rw [reqScan_stuck hcontrol habsent hscan hterm, hcontrol] at hrecv
    cases hrecv

end

/-! ### Whole runs -/

/-- Where the secondary buffer is in use its scanner has not moved. -/
structure InnerOk (s : Webserver) : Prop where
  recvSpace : 0 < s.recvBuf.availableSpace
  inner : s.control = .reqRecv ∨ s.control = .reqScan ∨ s.control = .reqScanned →
    0 < s.reqBuf.availableSpace ∧ s.reqBuf.scannerIndex = 0 ∧ s.terminatorPresent2 = false

theorem innerOk_outside {s : Webserver} (hspace : 0 < s.recvBuf.availableSpace)
    (h : s.control = .recv ∨ s.control = .recvScan ∨ s.control = .recvScanned ∨
      s.control = .exited) : InnerOk s := by
  refine ⟨hspace, fun hin => ?_⟩
  obtain h | h | h | h := h <;> rw [h] at hin <;> obtain hin | hin | hin := hin <;> cases hin

theorem InnerOk.step {s : Webserver} (h : InnerOk s) : InnerOk s.step := by
  have hspace := h.recvSpace
  cases hcontrol : s.control with
  | recv =>
    have hstep : s.step = s.recv := by
      simp only [Webserver.step, hcontrol]
    rw [hstep, Webserver.recv]
    split
    · exact innerOk_outside hspace (Or.inr (Or.inr (Or.inr rfl)))
    · exact innerOk_outside hspace (Or.inr (Or.inl rfl))
  | recvScan =>
    have hstep : s.step = s.recvScan := by
      simp only [Webserver.step, hcontrol]
    rw [hstep, Webserver.recvScan]
    dsimp only
    repeat' split
    · exact innerOk_outside hspace (Or.inr (Or.inr (Or.inr rfl)))
    · exact innerOk_outside hspace (Or.inr (Or.inl hcontrol))
    · exact innerOk_outside hspace (Or.inr (Or.inl hcontrol))
    · exact innerOk_outside hspace (Or.inr (Or.inl hcontrol))
    · exact innerOk_outside hspace (Or.inr (Or.inr (Or.inl rfl)))
  | recvScanned =>
    have hstep : s.step = s.recvScanned := by
      simp only [Webserver.step, hcontrol]
    have hsize : ¬ s.recvBuf.availableSpace * 2 ≤ 0 := by omega
    rw [hstep, Webserver.recvScanned]
    split
    · exact innerOk_outside hspace (Or.inl rfl)
    · rw [bufStructInit, if_neg hsize]
      exact ⟨hspace, fun _ => ⟨Int.not_le.mp hsize, rfl, rfl⟩⟩
  | reqRecv =>
    obtain ⟨hroom, hscanner, habsent⟩ := h.inner (Or.inl hcontrol)
    have hstep : s.step = s.reqRecv := by
      simp only [Webserver.step, hcontrol]
    rw [hstep, Webserver.reqRecv]
    cases s.chunks with
    | nil => exact innerOk_outside hspace (Or.inr (Or.inr (Or.inr rfl)))
    | cons c cs =>
      obtain ⟨b, hb, hb0, hbspace⟩ := reqRecv_room hroom c.bytes.length
      simp only [hb]
      exact ⟨hspace, fun _ => ⟨hbspace, hb0.trans hscanner, habsent⟩⟩
  | reqScan =>
    obtain ⟨hroom, hscanner, habsent⟩ := h.inner (Or.inr (Or.inl hcontrol))
    rw [reqScan_step hcontrol, Webserver.reqScan]
    dsimp only
    split
    · split
      · -- the scanner stands at the beginning of the buffer: the request is empty
        exact innerOk_outside hspace (Or.inr (Or.inr (Or.inr rfl)))
      · exact h
    · exact ⟨hspace, fun _ => ⟨hroom, hscanner, habsent⟩⟩
  | reqScanned =>
    obtain ⟨hroom, hscanner, habsent⟩ := h.inner (Or.inr (Or.inr hcontrol))
    have hstep : s.step = { s with control := .reqRecv } := by
      simp only [Webserver.step, hcontrol, habsent]
      rfl
    rw [hstep]
    exact ⟨hspace, fun _ => ⟨hroom, hscanner, habsent⟩⟩
  | reqEnd =>
    simp only [Webserver.step, hcontrol]
    split
    · exact innerOk_outside hspace (Or.inr (Or.inl rfl))
    · exact innerOk_outside hspace (Or.inl rfl)
  | exited =>
    have hstep : s.step = s := by
      simp only [Webserver.step, hcontrol]
    rw [hstep]
    exact h

theorem run_innerOk (chunks : List Chunk) (n : ℕ) :
    InnerOk (Webserver.step^[n] (webserverStart chunks)) :=
  iterate_invariant (fun _ h => h.step) (innerOk_outside (show (0 : Int) < 100 by decide) (Or.inl rfl)) n

/-- Whenever the server is at the inner `recv`, the scan begins at position 0. -/
theorem run_innerRecv (chunks : List Chunk) (n : ℕ) {c : Chunk} {cs : List Chunk}
    (hcontrol : (Webserver.step^[n] (webserverStart chunks)).control = .reqRecv)
    (hchunks : (Webserver.step^[n] (webserverStart chunks)).chunks = c :: cs) :
    InnerRecv (Webserver.step^[n] (webserverStart chunks)) c cs ∧
      (Webserver.step^[n] (webserverStart chunks)).reqBuf.scannerIndex = 0 := by
  obtain ⟨hspace, hscanner, habsent⟩ := (run_innerOk chunks n).inner (Or.inl hcontrol)
  exact ⟨⟨hcontrol, hchunks, habsent, hspace, hscanner.ge⟩, hscanner⟩

/-! ### When the loop ends -/

/-- The scan behind an appended chunk ends if and only if the scanner stands on a
terminator, or behind the last position, when the loop begins. -/
theorem scanEnds_iff {s : Webserver} {c : Chunk} {cs : List Chunk} (h : InnerRecv s c cs) :
    ScanEnds s.step ↔ ¬ s.step.reqBuf.inScan ∨ s.step.reqBuf.atTerminator = true := by
  obtain ⟨hcontrol, habsent, hscanner⟩ := h.step
  have h0 : 0 ≤ s.step.reqBuf.scannerIndex := hscanner ▸ h.scanner
  by_cases hscan : s.step.reqBuf.inScan
  · cases hterm : s.step.reqBuf.atTerminator with
    | true => exact iff_of_true (scanEnds_of_found hcontrol h0 hscan hterm) (Or.inr rfl)
    | false =>
      refine iff_of_false (not_scanEnds_of_stuck hcontrol habsent hscan hterm) ?_
      rintro (hpast | hfalse)
      · exact hpast hscan
      · cases hfalse
  · exact iff_of_true (scanEnds_of_past hcontrol habsent hscan) (Or.inl hscan)

/-- The second of two pieces the terminator behind the request "x" comes in. -/
def lateHalf : Chunk := ⟨[10, 13, 10], by decide, by decide⟩

def splitRequest : List Chunk := [⟨[120, 13], by decide, by decide⟩, lateHalf]

def halfReceived : Webserver := Webserver.step^[3] (webserverStart splitRequest)

theorem halfReceived_innerRecv : InnerRecv halfReceived lateHalf [] :=
  (run_innerRecv splitRequest 3 rfl rfl).1

theorem scanEnds_iff_half : InnerRecv halfReceived lateHalf [] ∧
    (ScanEnds halfReceived.step ↔
      ¬ halfReceived.step.reqBuf.inScan ∨ halfReceived.step.reqBuf.atTerminator = true) :=
  ⟨halfReceived_innerRecv, scanEnds_iff halfReceived_innerRecv⟩

/-- The terminator is complete, and the loop looks at the "x" for ever. -/
theorem halfReceived_hangs : InnerRecv halfReceived lateHalf [] ∧
    halfReceived.step.reqBuf.FirstTerm 1 ∧ ¬ ScanEnds halfReceived.step := by
  refine ⟨halfReceived_innerRecv, ⟨by decide, by decide, fun j _ hj => ?_⟩, ?_⟩
  · obtain rfl : j = 0 := by omega
    decide
  · exact not_scanEnds_of_stuck rfl rfl (by decide) (by decide)

end RN2223.Praxis1

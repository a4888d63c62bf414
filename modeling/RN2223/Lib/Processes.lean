import Mathlib.Logic.Function.Basic
import RN2223.Lib.Prog

/-!
# Processes side by side

Processes with private states that run programs one at a time and in any
interleaving, the world answering their calls as it likes. What every program
keeps in the state of its own process holds in every reachable state.
-/

namespace RN2223

/-- The world that may answer anything. -/
def anyAnswer {Op : Type} {Res : Op → Type} (_ : Unit) (o : Op) (_ : Res o) (_ : Unit) : Prop :=
  True

structure Processes (ι σ Op : Type) (Res : Op → Type) where
  state : ι → σ
  running : ι → Option (Prog σ Op Res Unit)

namespace Processes

variable {ι σ Op : Type} {Res : Op → Type} [DecidableEq ι]

inductive Step (actions : ι → Prog σ Op Res Unit → Prop) :
    Processes ι σ Op Res → Processes ι σ Op Res → Prop where
  | start (s : Processes ι σ Op Res) (i : ι) (p : Prog σ Op Res Unit) (hidle : s.running i = none)
    (hp : actions i p) :
    Step actions s { s with running := Function.update s.running i (some p) }
  | run (s : Processes ι σ Op Res) (i : ι) (p p' : Prog σ Op Res Unit) (x : σ)
    (hrun : s.running i = some p) (hstep : Prog.Step anyAnswer (p, s.state i, ()) (p', x, ())) :
    Step actions s
      { state := Function.update s.state i x, running := Function.update s.running i (some p') }
  | finish (s : Processes ι σ Op Res) (i : ι) (hret : s.running i = some (.ret ())) :
    Step actions s { s with running := Function.update s.running i none }

inductive Reachable (actions : ι → Prog σ Op Res Unit → Prop) (init : Processes ι σ Op Res → Prop) :
    Processes ι σ Op Res → Prop where
  | init {s : Processes ι σ Op Res} (h : init s) : Reachable actions init s
  | step {s s' : Processes ι σ Op Res} (h : Reachable actions init s) (hs : Step actions s s') :
    Reachable actions init s'

/-- `I` holds now and at every later point of the running programs. -/
structure Keeps (I : ι → σ → Prop) (s : Processes ι σ Op Res) : Prop where
  state : ∀ i, I i (s.state i)
  running : ∀ i p, s.running i = some p → p.Always anyAnswer (fun x _ => I i x) (s.state i) ()

variable {actions : ι → Prog σ Op Res Unit → Prop} {I : ι → σ → Prop}

theorem keeps_step (hact : ∀ i p x, actions i p → I i x → p.Always anyAnswer (fun y _ => I i y) x ())
    {s s' : Processes ι σ Op Res} (h : Keeps I s) (hs : Step actions s s') : Keeps I s' := by
  cases hs with
  | start i p hidle hp =>
    refine ⟨h.state, fun j q hq => ?_⟩
    dsimp only at hq
    by_cases hj : j = i
    · subst hj
      rw [Function.update_self, Option.some.injEq] at hq
      subst hq
      exact hact j p (s.state j) hp (h.state j)
    · rw [Function.update_of_ne hj] at hq
      exact h.running j q hq
  | run i p p' x hrun hstep =>
    have hnext := Prog.always_step hstep (h.running i p hrun)
    refine ⟨fun j => ?_, fun j q hq => ?_⟩ <;> dsimp only at *
    · by_cases hj : j = i
      · subst hj
        simpa only [Function.update_self] using Prog.always_here hnext
      · simpa only [Function.update_of_ne hj] using h.state j
    · by_cases hj : j = i
      · subst hj
        rw [Function.update_self, Option.some.injEq] at hq
        subst hq
        simpa only [Function.update_self] using hnext
      · rw [Function.update_of_ne hj] at hq
        simpa only [Function.update_of_ne hj] using h.running j q hq
  | finish i hret =>
    refine ⟨h.state, fun j q hq => ?_⟩
    dsimp only at hq
    by_cases hj : j = i
    · subst hj
      rw [Function.update_self] at hq
      cases hq
    · rw [Function.update_of_ne hj] at hq
      exact h.running j q hq

theorem reachable_keeps {init : Processes ι σ Op Res → Prop}
    (hact : ∀ i p x, actions i p → I i x → p.Always anyAnswer (fun y _ => I i y) x ())
    (hinit : ∀ s, init s → Keeps I s) {s : Processes ι σ Op Res}
    (h : Reachable actions init s) : Keeps I s := by
  induction h with
  | init h => exact hinit _ h
  | step _ hs ih => exact keeps_step hact ih hs

/-! ### A program run through -/

section
variable {init : Processes ι σ Op Res → Prop} {s : Processes ι σ Op Res} {i : ι}

theorem reachable_advance {p q : Prog σ Op Res Unit} {x y : σ}
    (hstep : Prog.Step anyAnswer (p, x, ()) (q, y, ()))
    (h : Reachable actions init
      ⟨Function.update s.state i x, Function.update s.running i (some p)⟩) :
    Reachable actions init
      ⟨Function.update s.state i y, Function.update s.running i (some q)⟩ := by
  have hrun := Reachable.step h (.run _ i p q y (Function.update_self ..)
    (by simpa only [Function.update_self] using hstep))
  rwa [Function.update_idem, Function.update_idem] at hrun

theorem reachable_ret {p : Prog σ Op Res Unit} {x x' : σ}
    (hexec : p.Exec anyAnswer x () () x' ())
    (h : Reachable actions init
      ⟨Function.update s.state i x, Function.update s.running i (some p)⟩) :
    Reachable actions init
      ⟨Function.update s.state i x', Function.update s.running i (some (.ret ()))⟩ := by
  induction p generalizing x with
  | ret a =>
    obtain ⟨-, rfl, -⟩ := hexec
    exact h
  | get k ih => exact ih x hexec (reachable_advance (.get k x ()) h)
  | put t k ih => exact ih hexec (reachable_advance (.put t k x ()) h)
  | call o k ih =>
    obtain ⟨r, u, hr, hrest⟩ := hexec
    exact ih r hrest (reachable_advance (.call o k x r hr) h)

/-- A process that is idle can run one of its programs from beginning to end. -/
theorem reachable_run (h : Reachable actions init s) (hidle : s.running i = none)
    {p : Prog σ Op Res Unit} (hp : actions i p) {x : σ}
    (hexec : p.Exec anyAnswer (s.state i) () () x ()) :
    Reachable actions init ⟨Function.update s.state i x, s.running⟩ := by
  have hstart := Reachable.step h (.start s i p hidle hp)
  rw [← Function.update_eq_self i s.state] at hstart
  have hend := Reachable.step (reachable_ret hexec hstart) (.finish _ i (Function.update_self ..))
  rwa [Function.update_idem, ← hidle, Function.update_eq_self] at hend

end

end Processes

end RN2223

import Mathlib.Logic.Function.Iterate

/-!
# Deterministic machines

What can be observed of a machine in the end: a step function run for ever and
an observation that stops changing. `Settles` does not depend on where along the
run one starts to look.
-/

namespace RN2223.Machine

variable {σ α : Type*} {step : σ → σ} {obs : σ → α}

/-- From some step on the observation is `a`. -/
def Settles (step : σ → σ) (obs : σ → α) (s : σ) (a : α) : Prop :=
  ∃ n₀, ∀ n ≥ n₀, obs (step^[n] s) = a

def Reaches (step : σ → σ) (s t : σ) : Prop := ∃ n, step^[n] s = t

theorem Reaches.refl (s : σ) : Reaches step s s := ⟨0, rfl⟩

theorem Reaches.single (s : σ) : Reaches step s (step s) := ⟨1, rfl⟩

theorem Reaches.trans {s t u : σ} (h : Reaches step s t) (h' : Reaches step t u) :
    Reaches step s u := by
  obtain ⟨m, rfl⟩ := h
  obtain ⟨n, rfl⟩ := h'
  exact ⟨n + m, Function.iterate_add_apply step n m s⟩

theorem Reaches.settles_iff {s t : σ} (h : Reaches step s t) {a : α} :
    Settles step obs s a ↔ Settles step obs t a := by
  obtain ⟨m, rfl⟩ := h
  constructor
  · rintro ⟨n₀, hn⟩
    refine ⟨n₀, fun n hle => ?_⟩
    rw [← Function.iterate_add_apply]
    exact hn _ (by omega)
  · rintro ⟨n₀, hn⟩
    refine ⟨n₀ + m, fun n hle => ?_⟩
    have hsplit : n = (n - m) + m := by omega
    rw [hsplit, Function.iterate_add_apply]
    exact hn _ (by omega)

theorem iterate_invariant {P : σ → Prop} (hstep : ∀ s, P s → P (step s)) {s : σ} (h : P s) (n : ℕ) :
    P (step^[n] s) := by
  induction n with
  | zero => exact h
  | succ n ih =>
    rw [Function.iterate_succ_apply']
    exact hstep _ ih

theorem settles_iff_of_silent {P : σ → Prop} (hstep : ∀ s, P s → P (step s) ∧ obs (step s) = obs s)
    {s : σ} (h : P s) {a : α} : Settles step obs s a ↔ obs s = a := by
  have hall : ∀ n, P (step^[n] s) ∧ obs (step^[n] s) = obs s := by
    intro n
    induction n with
    | zero => exact ⟨h, rfl⟩
    | succ n ih =>
      obtain ⟨hP, hobs⟩ := ih
      rw [Function.iterate_succ_apply']
      exact ⟨(hstep _ hP).1, (hstep _ hP).2.trans hobs⟩
  constructor
  · rintro ⟨n₀, hn⟩
    rw [← (hall n₀).2]
    exact hn n₀ (Nat.le_refl _)
  · intro ha
    exact ⟨0, fun n _ => (hall n).2.trans ha⟩

/-- What settles can be read off at a late enough state. -/
theorem Settles.exists_iterate {s : σ} {a : α} (h : Settles step obs s a) :
    ∃ n, obs (step^[n] s) = a := by
  obtain ⟨n₀, hn⟩ := h
  exact ⟨n₀, hn n₀ (Nat.le_refl _)⟩

end RN2223.Machine

import Mathlib.Data.List.Basic

/-!
# Programs with state and system calls

A program either returns, reads its state, writes it, or makes a call and goes
on with the answer. What the calls answer is left to a world: a relation that
says which answers a world may give and how it changes (`Exec`, `Always`), or a
function that also says when a call blocks (`advance`).
-/

namespace RN2223

inductive Prog (σ : Type) (Op : Type) (Res : Op → Type) (α : Type) : Type where
  | ret (a : α)
  | get (k : σ → Prog σ Op Res α)
  | put (s : σ) (k : Prog σ Op Res α)
  | call (o : Op) (k : Res o → Prog σ Op Res α)

namespace Prog

variable {σ Op : Type} {Res : Op → Type} {α β γ W : Type}

def bind : Prog σ Op Res α → (α → Prog σ Op Res β) → Prog σ Op Res β
  | ret a, f => f a
  | get k, f => get fun s => (k s).bind f
  | put s k, f => put s (k.bind f)
  | call o k, f => call o fun r => (k r).bind f

instance : Monad (Prog σ Op Res) where
  pure := ret
  bind := bind

@[simp] theorem pure_eq (a : α) : (pure a : Prog σ Op Res α) = ret a := rfl

@[simp] theorem ret_bind (a : α) (f : α → Prog σ Op Res β) : (ret a >>= f) = f a := rfl

@[simp] theorem get_bind (k : σ → Prog σ Op Res α) (f : α → Prog σ Op Res β) :
    (get k >>= f) = get fun s => k s >>= f := rfl

@[simp] theorem put_bind (s : σ) (k : Prog σ Op Res α) (f : α → Prog σ Op Res β) :
    (put s k >>= f) = put s (k >>= f) := rfl

@[simp] theorem call_bind (o : Op) (k : Res o → Prog σ Op Res α) (f : α → Prog σ Op Res β) :
    (call o k >>= f) = call o fun r => k r >>= f := rfl

@[simp] theorem bind_assoc (p : Prog σ Op Res α) (f : α → Prog σ Op Res β)
    (g : β → Prog σ Op Res γ) : (p >>= f) >>= g = p >>= fun a => f a >>= g := by
  induction p with
  | ret a => rfl
  | get k ih => exact congrArg get (funext ih)
  | put s k ih => exact congrArg (put s) ih
  | call o k ih => exact congrArg (call o) (funext ih)

def read : Prog σ Op Res σ := get ret

def modify (f : σ → σ) : Prog σ Op Res Unit := get fun s => put (f s) (ret ())

def sys (o : Op) : Prog σ Op Res (Res o) := call o ret

@[simp] theorem sys_bind (o : Op) (f : Res o → Prog σ Op Res β) : (sys o >>= f) = call o f := rfl

@[simp] theorem read_bind (f : σ → Prog σ Op Res β) : (read >>= f) = get f := rfl

@[simp] theorem modify_bind (g : σ → σ) (f : Unit → Prog σ Op Res β) :
    (modify g >>= f) = get fun s => put (g s) (f ()) := rfl

/-! ### Complete runs -/

/-- `p` started in state `s` and world `w` may return `a` in `s'` and `w'`. -/
def Exec (H : W → (o : Op) → Res o → W → Prop) :
    Prog σ Op Res α → σ → W → α → σ → W → Prop
  | ret b, s, w, a, s', w' => a = b ∧ s' = s ∧ w' = w
  | get k, s, w, a, s', w' => (k s).Exec H s w a s' w'
  | put t k, _, w, a, s', w' => k.Exec H t w a s' w'
  | call o k, s, w, a, s', w' => ∃ r w1, H w o r w1 ∧ (k r).Exec H s w1 a s' w'

section Exec
variable {H : W → (o : Op) → Res o → W → Prop}

@[simp] theorem exec_ret {b a : α} {s s' : σ} {w w' : W} :
    (ret b : Prog σ Op Res α).Exec H s w a s' w' ↔ a = b ∧ s' = s ∧ w' = w := Iff.rfl

@[simp] theorem exec_get {k : σ → Prog σ Op Res α} {a : α} {s s' : σ} {w w' : W} :
    (get k).Exec H s w a s' w' ↔ (k s).Exec H s w a s' w' := Iff.rfl

@[simp] theorem exec_put {t : σ} {k : Prog σ Op Res α} {a : α} {s s' : σ} {w w' : W} :
    (put t k).Exec H s w a s' w' ↔ k.Exec H t w a s' w' := Iff.rfl

@[simp] theorem exec_call {o : Op} {k : Res o → Prog σ Op Res α} {a : α} {s s' : σ}
    {w w' : W} : (call o k).Exec H s w a s' w' ↔
      ∃ r w1, H w o r w1 ∧ (k r).Exec H s w1 a s' w' := Iff.rfl

theorem exec_bind {p : Prog σ Op Res α} {f : α → Prog σ Op Res β} {b : β} {s s' : σ}
    {w w' : W} : (p >>= f).Exec H s w b s' w' ↔
      ∃ a s1 w1, p.Exec H s w a s1 w1 ∧ (f a).Exec H s1 w1 b s' w' := by
  induction p generalizing s w with
  | ret a =>
    constructor
    · exact fun h => ⟨a, s, w, ⟨rfl, rfl, rfl⟩, h⟩
    · rintro ⟨_, _, _, ⟨rfl, rfl, rfl⟩, h⟩
      exact h
  | get k ih => exact ih s
  | put t k ih => exact ih
  | call o k ih =>
    constructor
    · rintro ⟨r, w1, hr, h⟩
      obtain ⟨a, s2, w2, hp, hf⟩ := (ih r).mp h
      exact ⟨a, s2, w2, ⟨r, w1, hr, hp⟩, hf⟩
    · rintro ⟨a, s2, w2, ⟨r, w1, hr, hp⟩, hf⟩
      exact ⟨r, w1, hr, (ih r).mpr ⟨a, s2, w2, hp, hf⟩⟩

@[simp] theorem exec_read {s s' a : σ} {w w' : W} :
    (read : Prog σ Op Res σ).Exec H s w a s' w' ↔ a = s ∧ s' = s ∧ w' = w := Iff.rfl

@[simp] theorem exec_modify {f : σ → σ} {u : Unit} {s s' : σ} {w w' : W} :
    (modify f : Prog σ Op Res Unit).Exec H s w u s' w' ↔ s' = f s ∧ w' = w := by
  simp [modify]

@[simp] theorem exec_sys {o : Op} {r : Res o} {s s' : σ} {w w' : W} :
    (sys o : Prog σ Op Res (Res o)).Exec H s w r s' w' ↔ s' = s ∧ H w o r w' := by
  constructor
  · rintro ⟨r', w1, hr, rfl, rfl, rfl⟩
    exact ⟨rfl, hr⟩
  · rintro ⟨rfl, hr⟩
    exact ⟨r, w', hr, rfl, rfl, rfl⟩

/-- What every call keeps of the world, a run keeps. -/
theorem exec_keeps {I : W → Prop} (hI : ∀ w o r w', I w → H w o r w' → I w')
    {p : Prog σ Op Res α} {a : α} {s s' : σ} {w w' : W} (hw : I w) (h : p.Exec H s w a s' w') :
    I w' := by
  induction p generalizing s w with
  | ret b => exact h.2.2 ▸ hw
  | get k ih => exact ih s hw h
  | put t k ih => exact ih hw h
  | call o k ih =>
    obtain ⟨r, w1, hr, h⟩ := h
    exact ih r (hI w o r w1 hw hr) h

end Exec

/-! ### Every state on the way -/

/-- `I` holds in every state and world `p` passes through, whatever the world
answers. -/
def Always (H : W → (o : Op) → Res o → W → Prop) (I : σ → W → Prop) :
    Prog σ Op Res α → σ → W → Prop
  | ret _, s, w => I s w
  | get k, s, w => (k s).Always H I s w
  | put t k, s, w => I s w ∧ k.Always H I t w
  | call o k, s, w => I s w ∧ ∀ r w1, H w o r w1 → (k r).Always H I s w1

inductive Step (H : W → (o : Op) → Res o → W → Prop) :
    Prog σ Op Res α × σ × W → Prog σ Op Res α × σ × W → Prop where
  | get (k : σ → Prog σ Op Res α) (s : σ) (w : W) : Step H (get k, s, w) (k s, s, w)
  | put (t : σ) (k : Prog σ Op Res α) (s : σ) (w : W) : Step H (put t k, s, w) (k, t, w)
  | call (o : Op) (k : Res o → Prog σ Op Res α) (s : σ) {w w1 : W} (r : Res o)
    (h : H w o r w1) : Step H (call o k, s, w) (k r, s, w1)

section Always
variable {H : W → (o : Op) → Res o → W → Prop} {I : σ → W → Prop}

theorem always_here {p : Prog σ Op Res α} {s : σ} {w : W} (h : p.Always H I s w) : I s w := by
  induction p generalizing s w with
  | ret a => exact h
  | get k ih => exact ih s h
  | put t k _ => exact h.1
  | call o k _ => exact h.1

theorem always_step {p p' : Prog σ Op Res α} {s s' : σ} {w w' : W}
    (hs : Step H (p, s, w) (p', s', w')) (h : p.Always H I s w) : p'.Always H I s' w' := by
  cases hs with
  | get k => exact h
  | put t k => exact h.2
  | call o k s r hr => exact h.2 r w' hr

theorem always_bind {p : Prog σ Op Res α} {f : α → Prog σ Op Res β} {s : σ} {w : W}
    (hp : p.Always H I s w)
    (hf : ∀ a s' w', p.Exec H s w a s' w' → I s' w' → (f a).Always H I s' w') :
    (p >>= f).Always H I s w := by
  induction p generalizing s w with
  | ret a => exact hf a s w ⟨rfl, rfl, rfl⟩ hp
  | get k ih => exact ih s hp hf
  | put t k ih => exact ⟨hp.1, ih hp.2 hf⟩
  | call o k ih =>
    refine ⟨hp.1, fun r w1 hr => ih r (hp.2 r w1 hr) fun a s' w' he => ?_⟩
    exact hf a s' w' ⟨r, w1, hr, he⟩

end Always

/-! ### Programs that leave the state alone -/

def Silent : Prog σ Op Res α → Prop
  | ret _ => True
  | get k => ∀ s, (k s).Silent
  | put _ _ => False
  | call _ k => ∀ r, (k r).Silent

@[simp] theorem silent_ret (a : α) : (ret a : Prog σ Op Res α).Silent := trivial

@[simp] theorem silent_call (o : Op) (k : Res o → Prog σ Op Res α) :
    (call o k).Silent ↔ ∀ r, (k r).Silent := Iff.rfl

theorem silent_bind {p : Prog σ Op Res α} {f : α → Prog σ Op Res β} (hp : p.Silent)
    (hf : ∀ a, (f a).Silent) : (p >>= f).Silent := by
  induction p with
  | ret a => exact hf a
  | get k ih => exact fun s => ih s (hp s)
  | put t k _ => exact hp.elim
  | call o k ih => exact fun r => ih r (hp r)

@[simp] theorem silent_sys (o : Op) : (sys o : Prog σ Op Res (Res o)).Silent := fun _ => trivial

theorem silent_always {H : W → (o : Op) → Res o → W → Prop} {I : σ → W → Prop}
    {p : Prog σ Op Res α} (hp : p.Silent) {s : σ} {w : W}
    (hI : ∀ w o r w1, I s w → H w o r w1 → I s w1) (h : I s w) : p.Always H I s w := by
  induction p generalizing w with
  | ret b => exact h
  | get k ih => exact ih s (hp s) h
  | put t k _ => exact hp.elim
  | call o k ih => exact ⟨h, fun r w1 hr => ih r (hp r) (hI w o r w1 h hr)⟩

/-! ### Up to a blocking call -/

/-- `p` may get from `s` and `w` to the program `q` in `s'` and `w'`, where it
either has returned or is about to make a call that blocks. -/
def Until (B : Op → Prop) (H : W → (o : Op) → Res o → W → Prop) :
    Prog σ Op Res α → σ → W → Prog σ Op Res α → σ → W → Prop
  | ret a, s, w, q, s', w' => q = ret a ∧ s' = s ∧ w' = w
  | get k, s, w, q, s', w' => (k s).Until B H s w q s' w'
  | put t k, _, w, q, s', w' => k.Until B H t w q s' w'
  | call o k, s, w, q, s', w' => (B o ∧ q = call o k ∧ s' = s ∧ w' = w) ∨
      (¬ B o ∧ ∃ r w1, H w o r w1 ∧ (k r).Until B H s w1 q s' w')

def Only (P : Op → Prop) : Prog σ Op Res α → Prop
  | ret _ => True
  | get k => ∀ s, (k s).Only P
  | put _ k => k.Only P
  | call o k => P o ∧ ∀ r, (k r).Only P

section Until
variable {B : Op → Prop} {H : W → (o : Op) → Res o → W → Prop}

@[simp] theorem until_ret {a : α} {s s' : σ} {w w' : W} {q : Prog σ Op Res α} :
    (ret a : Prog σ Op Res α).Until B H s w q s' w' ↔ q = ret a ∧ s' = s ∧ w' = w := Iff.rfl

@[simp] theorem until_get {k : σ → Prog σ Op Res α} {s s' : σ} {w w' : W} {q : Prog σ Op Res α} :
    (get k).Until B H s w q s' w' ↔ (k s).Until B H s w q s' w' := Iff.rfl

@[simp] theorem until_put {t : σ} {k : Prog σ Op Res α} {s s' : σ} {w w' : W}
    {q : Prog σ Op Res α} : (put t k).Until B H s w q s' w' ↔ k.Until B H t w q s' w' := Iff.rfl

theorem until_blocked {o : Op} (ho : B o) {k : Res o → Prog σ Op Res α} {s s' : σ} {w w' : W}
    {q : Prog σ Op Res α} :
    (call o k).Until B H s w q s' w' ↔ q = call o k ∧ s' = s ∧ w' = w := by
  simp [Until, ho]

theorem until_answered {o : Op} (ho : ¬ B o) {k : Res o → Prog σ Op Res α} {s s' : σ} {w w' : W}
    {q : Prog σ Op Res α} : (call o k).Until B H s w q s' w' ↔
      ∃ r w1, H w o r w1 ∧ (k r).Until B H s w1 q s' w' := by
  simp [Until, ho]

theorem only_bind {P : Op → Prop} {p : Prog σ Op Res α} {f : α → Prog σ Op Res β} (hp : p.Only P)
    (hf : ∀ a, (f a).Only P) : (p >>= f).Only P := by
  induction p with
  | ret a => exact hf a
  | get k ih => exact fun s => ih s (hp s)
  | put t k ih => exact ih hp
  | call o k ih => exact ⟨hp.1, fun r => ih r (hp.2 r)⟩

theorem until_bind {p : Prog σ Op Res α} (hp : p.Only fun o => ¬ B o) {f : α → Prog σ Op Res β}
    {s s' : σ} {w w' : W} {q : Prog σ Op Res β} : (p >>= f).Until B H s w q s' w' ↔
      ∃ a s1 w1, p.Exec H s w a s1 w1 ∧ (f a).Until B H s1 w1 q s' w' := by
  induction p generalizing s w with
  | ret a =>
    constructor
    · exact fun h => ⟨a, s, w, ⟨rfl, rfl, rfl⟩, h⟩
    · rintro ⟨_, _, _, ⟨rfl, rfl, rfl⟩, h⟩
      exact h
  | get k ih => exact ih s (hp s)
  | put t k ih => exact ih hp
  | call o k ih =>
    constructor
    · rintro (⟨ho, -⟩ | ⟨-, r, w1, hr, h⟩)
      · exact absurd ho hp.1
      · obtain ⟨a, s2, w2, hp', hf⟩ := (ih r (hp.2 r)).mp h
        exact ⟨a, s2, w2, ⟨r, w1, hr, hp'⟩, hf⟩
    · rintro ⟨a, s2, w2, ⟨r, w1, hr, hp'⟩, hf⟩
      exact Or.inr ⟨hp.1, r, w1, hr, (ih r (hp.2 r)).mpr ⟨a, s2, w2, hp', hf⟩⟩

theorem until_free {p : Prog σ Op Res α} (hp : p.Only fun o => ¬ B o) {s s' : σ} {w w' : W}
    {q : Prog σ Op Res α} :
    p.Until B H s w q s' w' ↔ ∃ a, q = ret a ∧ p.Exec H s w a s' w' := by
  induction p generalizing s w with
  | ret a => simp
  | get k ih => exact ih s (hp s)
  | put t k ih => exact ih hp
  | call o k ih =>
    constructor
    · rintro (⟨ho, -⟩ | ⟨-, r, w1, hr, h⟩)
      · exact absurd ho hp.1
      · obtain ⟨a, ha, he⟩ := (ih r (hp.2 r)).mp h
        exact ⟨a, ha, r, w1, hr, he⟩
    · rintro ⟨a, ha, r, w1, hr, he⟩
      exact Or.inr ⟨hp.1, r, w1, hr, (ih r (hp.2 r)).mpr ⟨a, ha, he⟩⟩

def Resumes (B : Op → Prop) (H : W → (o : Op) → Res o → W → Prop) :
    Prog σ Op Res α → σ → W → Prog σ Op Res α → σ → W → Prop
  | call o k, s, w, q, s', w' => ∃ r w1, H w o r w1 ∧ (k r).Until B H s w1 q s' w'
  | _, _, _, _, _, _ => False

theorem until_keeps {I : W → Prop} (hI : ∀ w o r w', I w → H w o r w' → I w')
    {p q : Prog σ Op Res α} {s s' : σ} {w w' : W} (hw : I w) (h : p.Until B H s w q s' w') :
    I w' := by
  induction p generalizing s w with
  | ret b => exact h.2.2 ▸ hw
  | get k ih => exact ih s hw h
  | put t k ih => exact ih hw h
  | call o k ih =>
    obtain ⟨-, -, -, rfl⟩ | ⟨-, r, w1, hr, h⟩ := h
    · exact hw
    · exact ih r (hI w o r w1 hw hr) h

theorem resumes_keeps {I : W → Prop} (hI : ∀ w o r w', I w → H w o r w' → I w')
    {p q : Prog σ Op Res α} {s s' : σ} {w w' : W} (hw : I w) (h : p.Resumes B H s w q s' w') :
    I w' := by
  cases p with
  | call o k =>
    obtain ⟨r, w1, hr, h⟩ := h
    exact until_keeps hI (hI w o r w1 hw hr) h
  | _ => exact h.elim

/-! ### Another world -/

section Simulates
variable {V : Type} {K : V → (o : Op) → Res o → V → Prop} {S : W → V → Prop} {s s' : σ} {w w' : W}
  {v : V}

/-- In a world that answers each call in the same way, a run is the same. -/
theorem exec_simulates (hS : ∀ w v o r w', S w v → H w o r w' → ∃ v', K v o r v' ∧ S w' v')
    {p : Prog σ Op Res α} {a : α} (hw : S w v) (h : p.Exec H s w a s' w') :
    ∃ v', p.Exec K s v a s' v' ∧ S w' v' := by
  induction p generalizing s w v with
  | ret b =>
    obtain ⟨rfl, rfl, rfl⟩ := h
    exact ⟨v, ⟨rfl, rfl, rfl⟩, hw⟩
  | get k ih => exact ih s hw h
  | put t k ih => exact ih hw h
  | call o k ih =>
    obtain ⟨r, w1, hr, h⟩ := h
    obtain ⟨v1, hr', hw1⟩ := hS w v o r w1 hw hr
    obtain ⟨v', h', hw'⟩ := ih r hw1 h
    exact ⟨v', ⟨r, v1, hr', h'⟩, hw'⟩

theorem until_simulates (hS : ∀ w v o r w', S w v → H w o r w' → ∃ v', K v o r v' ∧ S w' v')
    {p q : Prog σ Op Res α} (hw : S w v) (h : p.Until B H s w q s' w') :
    ∃ v', p.Until B K s v q s' v' ∧ S w' v' := by
  induction p generalizing s w v with
  | ret b =>
    obtain ⟨rfl, rfl, rfl⟩ := h
    exact ⟨v, ⟨rfl, rfl, rfl⟩, hw⟩
  | get k ih => exact ih s hw h
  | put t k ih => exact ih hw h
  | call o k ih =>
    obtain ⟨ho, rfl, rfl, rfl⟩ | ⟨ho, r, w1, hr, h⟩ := h
    · exact ⟨v, Or.inl ⟨ho, rfl, rfl, rfl⟩, hw⟩
    · obtain ⟨v1, hr', hw1⟩ := hS w v o r w1 hw hr
      obtain ⟨v', h', hw'⟩ := ih r hw1 h
      exact ⟨v', Or.inr ⟨ho, r, v1, hr', h'⟩, hw'⟩

theorem resumes_simulates (hS : ∀ w v o r w', S w v → H w o r w' → ∃ v', K v o r v' ∧ S w' v')
    {p q : Prog σ Op Res α} (hw : S w v) (h : p.Resumes B H s w q s' w') :
    ∃ v', p.Resumes B K s v q s' v' ∧ S w' v' := by
  cases p with
  | call o k =>
    obtain ⟨r, w1, hr, h⟩ := h
    obtain ⟨v1, hr', hw1⟩ := hS w v o r w1 hw hr
    obtain ⟨v', h', hw'⟩ := until_simulates hS hw1 h
    exact ⟨v', ⟨r, v1, hr', h'⟩, hw'⟩
  | _ => exact h.elim

end Simulates

/-- A program that only makes calls which are always answered gets to its end. -/
theorem exec_of_only {P : Op → Prop} (hP : ∀ w o, P o → ∃ r w', H w o r w')
    {p : Prog σ Op Res α} (hp : p.Only P) (s : σ) (w : W) : ∃ a s' w', p.Exec H s w a s' w' := by
  induction p generalizing s w with
  | ret a => exact ⟨a, s, w, rfl, rfl, rfl⟩
  | get k ih => exact ih s (hp s) s w
  | put t k ih => exact ih hp t w
  | call o k ih =>
    obtain ⟨r, w1, hr⟩ := hP w o hp.1
    obtain ⟨a, s', w', he⟩ := ih r (hp.2 r) s w1
    exact ⟨a, s', w', r, w1, hr, he⟩

def unfinished : Prog σ Op Res α → Option (Prog σ Op Res α)
  | ret _ => none
  | p => some p

theorem unfinished_injective [Subsingleton α] {p p' : Prog σ Op Res α}
    (h : p.unfinished = p'.unfinished) : p = p' := by
  cases p <;> cases p' <;> cases h
  case ret.ret a b => rw [Subsingleton.elim a b]
  all_goals rfl

end Until

/-! ### The same from one state -/

def atState (s : σ) : Prog σ Op Res α → Prog σ Op Res α
  | get k => (k s).atState s
  | p => p

@[simp] theorem atState_get (s : σ) (k : σ → Prog σ Op Res α) :
    (get k).atState s = (k s).atState s := rfl

theorem exec_atState {H : W → (o : Op) → Res o → W → Prop} (p : Prog σ Op Res α) {a : α}
    {s s' : σ} {w w' : W} : (p.atState s).Exec H s w a s' w' ↔ p.Exec H s w a s' w' := by
  induction p with
  | get k ih => exact ih s
  | _ => exact Iff.rfl

theorem until_atState_bind {B : Op → Prop} {H : W → (o : Op) → Res o → W → Prop}
    (p : Prog σ Op Res α) (f : α → Prog σ Op Res β) {q : Prog σ Op Res β} {s s' : σ} {w w' : W} :
    (p.atState s >>= f).Until B H s w q s' w' ↔ (p >>= f).Until B H s w q s' w' := by
  induction p with
  | get k ih => exact ih s
  | _ => exact Iff.rfl

/-! ### Running until a call is not answered -/

/-- The run of `p` in a world that answers calls by a function, up to the first
call it does not answer. -/
def advance (h : W → (o : Op) → Option (Res o × W)) :
    Prog σ Op Res α → σ → W → Prog σ Op Res α × σ × W
  | ret a, s, w => (ret a, s, w)
  | get k, s, w => (k s).advance h s w
  | put t k, _, w => k.advance h t w
  | call o k, s, w =>
    match h w o with
    | some (r, w1) => (k r).advance h s w1
    | none => (call o k, s, w)

section Advance
variable {h : W → (o : Op) → Option (Res o × W)}

@[simp] theorem advance_ret (a : α) (s : σ) (w : W) :
    (ret a : Prog σ Op Res α).advance h s w = (ret a, s, w) := rfl

@[simp] theorem advance_get (k : σ → Prog σ Op Res α) (s : σ) (w : W) :
    (get k).advance h s w = (k s).advance h s w := rfl

@[simp] theorem advance_put (t : σ) (k : Prog σ Op Res α) (s : σ) (w : W) :
    (put t k).advance h s w = k.advance h t w := rfl

theorem advance_call {o : Op} (k : Res o → Prog σ Op Res α) (s : σ) {w w1 : W} {r : Res o}
    (hr : h w o = some (r, w1)) : (call o k).advance h s w = (k r).advance h s w1 := by
  simp only [advance, hr]

theorem advance_blocked {o : Op} (k : Res o → Prog σ Op Res α) (s : σ) {w : W}
    (hr : h w o = none) : (call o k).advance h s w = (call o k, s, w) := by
  simp only [advance, hr]

theorem advance_bind {p : Prog σ Op Res α} {s s1 : σ} {w w1 : W} {p1 : Prog σ Op Res α}
    (hp : p.advance h s w = (p1, s1, w1)) (f : α → Prog σ Op Res β) :
    (p >>= f).advance h s w = (p1 >>= f).advance h s1 w1 := by
  induction p generalizing s w with
  | ret a =>
    cases hp
    rfl
  | get k ih => exact ih s hp
  | put t k ih => exact ih hp
  | call o k ih =>
    cases hr : h w o with
    | none =>
      rw [advance_blocked k s hr] at hp
      cases hp
      rfl
    | some rw =>
      obtain ⟨r, w2⟩ := rw
      rw [advance_call k s hr] at hp
      rw [call_bind, advance_call _ s hr]
      exact ih r hp

theorem advance_bind_ret {p : Prog σ Op Res α} {f : α → Prog σ Op Res β} {b : β} {s s' : σ}
    {w w' : W} (h' : (p >>= f).advance h s w = (ret b, s', w')) : ∃ a s1 w1,
      p.advance h s w = (ret a, s1, w1) ∧ (f a).advance h s1 w1 = (ret b, s', w') := by
  induction p generalizing s w with
  | ret a => exact ⟨a, s, w, rfl, h'⟩
  | get k ih => exact ih s h'
  | put t k ih => exact ih h'
  | call o k ih =>
    cases hr : h w o with
    | none =>
      rw [call_bind, advance_blocked _ s hr] at h'
      cases h'
    | some rw =>
      obtain ⟨r, w1⟩ := rw
      rw [call_bind, advance_call _ s hr] at h'
      rw [advance_call k s hr]
      exact ih r h'

/-- What every answered call keeps of the world, a run keeps. -/
theorem advance_rel {R : W → W → Prop} (hrefl : ∀ w, R w w)
    (htrans : ∀ w w1 w2, R w w1 → R w1 w2 → R w w2)
    (hcall : ∀ w o r w1, h w o = some (r, w1) → R w w1) (p : Prog σ Op Res α) (s : σ) (w : W) :
    R w (p.advance h s w).2.2 := by
  induction p generalizing s w with
  | ret a => exact hrefl w
  | get k ih => exact ih s s w
  | put t k ih => exact ih t w
  | call o k ih =>
    cases hr : h w o with
    | none =>
      rw [advance_blocked k s hr]
      exact hrefl w
    | some rw =>
      obtain ⟨r, w1⟩ := rw
      rw [advance_call k s hr]
      exact htrans w w1 _ (hcall w o r w1 hr) (ih r s w1)

theorem advance_atState (p : Prog σ Op Res α) (s : σ) (w : W) :
    (p.atState s).advance h s w = p.advance h s w := by
  induction p with
  | get k ih => exact ih s
  | _ => rfl

def returned : Prog σ Op Res α → Option α
  | ret a => some a
  | _ => none

theorem exec_of_advance {H : W → (o : Op) → Res o → W → Prop}
    (hH : ∀ w o r w1, h w o = some (r, w1) → H w o r w1) {p : Prog σ Op Res α} {s : σ} {w : W}
    {a : α} (hret : (p.advance h s w).1.returned = some a) :
    p.Exec H s w a (p.advance h s w).2.1 (p.advance h s w).2.2 := by
  induction p generalizing s w with
  | ret b =>
    cases hret
    exact ⟨rfl, rfl, rfl⟩
  | get k ih => exact ih s hret
  | put t k ih => exact ih hret
  | call o k ih =>
    cases hr : h w o with
    | none =>
      rw [advance_blocked k s hr] at hret
      cases hret
    | some rw =>
      obtain ⟨r, w1⟩ := rw
      rw [advance_call k s hr] at hret ⊢
      exact ⟨r, w1, hH w o r w1 hr, ih r hret⟩

def Stopped (B : Op → Prop) : Prog σ Op Res α → Prop
  | ret _ => True
  | call o _ => B o
  | _ => False

/-- A run is complete up to a blocking call if it is blocked nowhere else. -/
theorem until_of_advance {B : Op → Prop} {H : W → (o : Op) → Res o → W → Prop}
    (hH : ∀ w o r w1, h w o = some (r, w1) → ¬ B o ∧ H w o r w1) {p : Prog σ Op Res α} {s : σ}
    {w : W} (hstop : (p.advance h s w).1.Stopped B) :
    p.Until B H s w (p.advance h s w).1 (p.advance h s w).2.1 (p.advance h s w).2.2 := by
  induction p generalizing s w with
  | ret b => exact ⟨rfl, rfl, rfl⟩
  | get k ih => exact ih s hstop
  | put t k ih => exact ih hstop
  | call o k ih =>
    cases hr : h w o with
    | none =>
      rw [advance_blocked k s hr] at hstop ⊢
      exact Or.inl ⟨hstop, rfl, rfl, rfl⟩
    | some rw =>
      obtain ⟨r, w1⟩ := rw
      rw [advance_call k s hr] at hstop ⊢
      obtain ⟨hb, hcall⟩ := hH w o r w1 hr
      exact Or.inr ⟨hb, r, w1, hcall, ih r hstop⟩

end Advance

/-! ### The calls of a run -/

/-- The calls `p` makes, the last of them perhaps never answered. -/
def calls (h : W → (o : Op) → Option (Res o × W)) : Prog σ Op Res α → σ → W → List Op
  | ret _, _, _ => []
  | get k, s, w => (k s).calls h s w
  | put t k, _, w => k.calls h t w
  | call o k, s, w =>
    match h w o with
    | some (r, w1) => o :: (k r).calls h s w1
    | none => [o]

section Calls
variable {h : W → (o : Op) → Option (Res o × W)}

@[simp] theorem calls_ret (a : α) (s : σ) (w : W) : (ret a : Prog σ Op Res α).calls h s w = [] := rfl

theorem calls_call {o : Op} (k : Res o → Prog σ Op Res α) (s : σ) {w w1 : W} {r : Res o}
    (hr : h w o = some (r, w1)) : (call o k).calls h s w = o :: (k r).calls h s w1 := by
  simp only [calls, hr]

theorem calls_blocked {o : Op} (k : Res o → Prog σ Op Res α) (s : σ) {w : W}
    (hr : h w o = none) : (call o k).calls h s w = [o] := by
  simp only [calls, hr]

theorem calls_bind {p : Prog σ Op Res α} {s s1 : σ} {w w1 : W} {a : α}
    (hp : p.advance h s w = (ret a, s1, w1)) (f : α → Prog σ Op Res β) :
    (p >>= f).calls h s w = p.calls h s w ++ (f a).calls h s1 w1 := by
  induction p generalizing s w with
  | ret b =>
    cases hp
    rfl
  | get k ih => exact ih s hp
  | put t k ih => exact ih hp
  | call o k ih =>
    cases hr : h w o with
    | none =>
      rw [advance_blocked k s hr] at hp
      cases hp
    | some rw =>
      obtain ⟨r, w2⟩ := rw
      rw [advance_call k s hr] at hp
      rw [call_bind, calls_call _ s hr, calls_call _ s hr, ih r hp, List.cons_append]

theorem only_calls {P : Op → Prop} {p : Prog σ Op Res α} (hp : p.Only P) (s : σ) (w : W) :
    ∀ o ∈ p.calls h s w, P o := by
  induction p generalizing s w with
  | ret a => exact fun _ ho => absurd ho List.not_mem_nil
  | get k ih => exact ih s (hp s) s w
  | put t k ih => exact ih hp t w
  | call o k ih =>
    cases hr : h w o with
    | none =>
      rw [calls_blocked k s hr]
      intro o' ho
      rw [List.mem_singleton.mp ho]
      exact hp.1
    | some rw =>
      obtain ⟨r, w1⟩ := rw
      rw [calls_call k s hr]
      intro o' ho
      obtain rfl | ho := List.mem_cons.mp ho
      · exact hp.1
      · exact ih r (hp.2 r) s w1 o' ho

end Calls

end Prog

end RN2223

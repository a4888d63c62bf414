import Mathlib.Data.List.Nodup
import Mathlib.Logic.Function.Basic

/-!
# Linearizable histories

A history records when calls on a shared object were made and when they were
answered. It is linearizable when the calls can be put in an order that answers
them as the object does one after the other and that agrees with the history
wherever one call was answered before another was made. The object that carries
out each call at a single moment between the two has such histories only; a
system is shown to have them by following its moves with that object's.
-/

namespace RN2223

inductive CallEvent (K Op Ret : Type) : Type where
  | invoke (k : K) (op : Op)
  | respond (k : K) (ret : Ret)

variable {K Op Ret S : Type}

def replay (apply : Op → S → Ret × S) : S → List Op → List Ret
  | _, [] => []
  | s, op :: ops => (apply op s).1 :: replay apply (apply op s).2 ops

def replayed (apply : Op → S → Ret × S) (s : S) (ops : List Op) : S :=
  ops.foldl (fun s op => (apply op s).2) s

/-- The order explains every answer of the history and respects its real time. -/
structure Linearizes (apply : Op → S → Ret × S) (s0 : S) (history : List (CallEvent K Op Ret))
    (order : List (K × Op)) : Prop where
  nodup : (order.map Prod.fst).Nodup
  invoked : ∀ k op, (k, op) ∈ order → .invoke k op ∈ history
  answered : ∀ k ret, .respond k ret ∈ history → ∃ (n : ℕ) (op : Op), order[n]? = some (k, op) ∧
    (replay apply s0 (order.map Prod.snd))[n]? = some ret
  realTime : ∀ (i j : ℕ) (k k' : K) (ret : Ret) (op' : Op), history[i]? = some (.respond k ret) →
    history[j]? = some (.invoke k' op') → i < j → ∀ (n n' : ℕ) (x x' : Op),
      order[n]? = some (k, x) → order[n']? = some (k', x') → n < n'

/-! ### Replaying -/

theorem replay_append (apply : Op → S → Ret × S) (s : S) (ops : List Op) (op : Op) :
    replay apply s (ops ++ [op]) = replay apply s ops ++ [(apply op (replayed apply s ops)).1] := by
  induction ops generalizing s with
  | nil => rfl
  | cons x xs ih =>
    simp only [List.cons_append, replay, ih]
    rfl

theorem replayed_append (apply : Op → S → Ret × S) (s : S) (ops : List Op) (op : Op) :
    replayed apply s (ops ++ [op]) = (apply op (replayed apply s ops)).2 := by
  rw [replayed, List.foldl_append]
  rfl

theorem replay_length (apply : Op → S → Ret × S) (s : S) (ops : List Op) :
    (replay apply s ops).length = ops.length := by
  induction ops generalizing s with
  | nil => rfl
  | cons x xs ih => simp only [replay, List.length_cons, ih]

theorem replay_getElem? (apply : Op → S → Ret × S) (s : S) (ops : List Op) (n : ℕ) :
    (replay apply s ops)[n]? = ops[n]?.map fun op => (apply op (replayed apply s (ops.take n))).1 := by
  induction ops generalizing s n with
  | nil => rfl
  | cons op ops ih =>
    cases n with
    | zero => rfl
    | succ n =>
      rw [replay, List.getElem?_cons_succ, List.getElem?_cons_succ, ih]
      rfl

/-! ### The object that carries out calls one at a time -/

inductive CallPhase (Op Ret : Type) : Type where
  | pending (op : Op)
  | executed (op : Op) (ret : Ret)
  | responded (op : Op) (ret : Ret)

structure AtomicObject (K Op Ret S : Type) : Type where
  phase : K → Option (CallPhase Op Ret)
  store : S
  order : List (K × Op)
  history : List (CallEvent K Op Ret)

namespace AtomicObject

def init (s0 : S) : AtomicObject K Op Ret S := ⟨fun _ => none, s0, [], []⟩

variable [DecidableEq K] (apply : Op → S → Ret × S)

def invoke (o : AtomicObject K Op Ret S) (k : K) (op : Op) : AtomicObject K Op Ret S :=
  { o with
    phase := Function.update o.phase k (some (.pending op))
    history := o.history ++ [.invoke k op] }

def execute (o : AtomicObject K Op Ret S) (k : K) (op : Op) : AtomicObject K Op Ret S :=
  { o with
    phase := Function.update o.phase k (some (.executed op (apply op o.store).1))
    store := (apply op o.store).2
    order := o.order ++ [(k, op)] }

def respond (o : AtomicObject K Op Ret S) (k : K) (op : Op) (ret : Ret) :
    AtomicObject K Op Ret S :=
  { o with
    phase := Function.update o.phase k (some (.responded op ret))
    history := o.history ++ [.respond k ret] }

inductive Reachable (s0 : S) : AtomicObject K Op Ret S → Prop where
  | init : Reachable s0 (init s0)
  | invoke {o : AtomicObject K Op Ret S} (h : Reachable s0 o) {k : K} (op : Op)
    (hk : o.phase k = none) : Reachable s0 (o.invoke k op)
  | execute {o : AtomicObject K Op Ret S} (h : Reachable s0 o) {k : K} {op : Op}
    (hk : o.phase k = some (.pending op)) : Reachable s0 (o.execute apply k op)
  | respond {o : AtomicObject K Op Ret S} (h : Reachable s0 o) {k : K} {op : Op} {ret : Ret}
    (hk : o.phase k = some (.executed op ret)) : Reachable s0 (o.respond k op ret)

/-- What the phases say about the order and the history. -/
structure Ok (s0 : S) (o : AtomicObject K Op Ret S) : Prop where
  store : o.store = replayed apply s0 (o.order.map Prod.snd)
  invoked : ∀ k op, .invoke k op ∈ o.history → o.phase k ≠ none
  pending : ∀ k op, o.phase k = some (.pending op) →
    .invoke k op ∈ o.history ∧ ∀ x, (k, x) ∉ o.order
  ordered : ∀ k op, (k, op) ∈ o.order → .invoke k op ∈ o.history ∧ o.phase k ≠ none
  executed : ∀ k op ret, o.phase k = some (.executed op ret) ∨ o.phase k = some (.responded op ret) →
    ∃ n : ℕ, o.order[n]? = some (k, op) ∧
      (replay apply s0 (o.order.map Prod.snd))[n]? = some ret
  responded : ∀ k ret, .respond k ret ∈ o.history → ∃ op, o.phase k = some (.responded op ret)
  linearizes : Linearizes apply s0 o.history o.order

variable {apply} {s0 : S} {o : AtomicObject K Op Ret S}

omit [DecidableEq K] in
theorem ok_init : Ok apply s0 (init s0 : AtomicObject K Op Ret S) where
  store := rfl
  invoked _ _ h := absurd h List.not_mem_nil
  pending _ _ h := nomatch h
  ordered _ _ h := absurd h List.not_mem_nil
  executed _ _ _ h := by rcases h with h | h <;> cases h
  responded _ _ h := absurd h List.not_mem_nil
  linearizes := {
    nodup := List.nodup_nil
    invoked := fun _ _ h => absurd h List.not_mem_nil
    answered := fun _ _ h => absurd h List.not_mem_nil
    realTime := fun _ _ _ _ _ _ h => nomatch h }

theorem linearizes_invoke (h : Ok apply s0 o) {k : K} (op : Op) (hk : o.phase k = none) :
    Linearizes apply s0 (o.invoke k op).history o.order := by
  refine { h.linearizes with
    invoked := fun k' op' he => List.mem_append_left _ (h.linearizes.invoked k' op' he),
    answered := fun k' ret he => ?_,
    realTime := fun i j k1 k2 ret op' hi hj hij n n' x x' hn hn' => ?_ }
  · rcases List.mem_append.mp he with he | he
    · exact h.linearizes.answered k' ret he
    · cases List.mem_singleton.mp he
  · have hjlt : j < (o.history ++ [CallEvent.invoke k op]).length :=
      (List.getElem?_eq_some_iff.mp hj).1
    rw [List.length_append, List.length_singleton] at hjlt
    rw [invoke, List.getElem?_append_left (by omega)] at hi
    by_cases hjl : j < o.history.length
    · rw [invoke, List.getElem?_append_left hjl] at hj
      exact h.linearizes.realTime i j k1 k2 ret op' hi hj hij n n' x x' hn hn'
    · -- the new call has not been carried out yet
      have hje : j = o.history.length := by omega
      rw [invoke, hje, List.getElem?_concat_length] at hj
      cases hj
      exact absurd hk (h.ordered k x' (List.mem_of_getElem? hn')).2

theorem ok_invoke (h : Ok apply s0 o) {k : K} (op : Op) (hk : o.phase k = none) :
    Ok apply s0 (o.invoke k op) := by
  have hother : ∀ k', k' ≠ k → (o.invoke k op).phase k' = o.phase k' :=
    fun k' hk' => Function.update_of_ne hk' _ _
  have hself : (o.invoke k op).phase k = some (.pending op) := Function.update_self ..
  have hne : ∀ k', o.phase k' ≠ none → k' ≠ k := fun k' hk' he => hk' (by rw [he, hk])
  have hmem : ∀ {e}, e ∈ o.history → e ∈ (o.invoke k op).history :=
    fun he => List.mem_append_left _ he
  have hsome : ∀ k', o.phase k' ≠ none → (o.invoke k op).phase k' ≠ none := by
    intro k' hk'
    rwa [hother k' (hne k' hk')]
  refine {
    store := h.store, invoked := fun k' op' he => ?_, pending := fun k' op' he => ?_,
    ordered := fun k' op' he => ?_, executed := fun k' op' ret he => h.executed k' op' ret ?_,
    responded := fun k' ret he => ?_, linearizes := linearizes_invoke h op hk }
  · rcases List.mem_append.mp he with he | he
    · exact hsome k' (h.invoked k' op' he)
    · cases List.mem_singleton.mp he
      rw [hself]
      exact fun hn => nomatch hn
  · by_cases hkk : k' = k
    · rw [hkk, hself] at he
      cases he
      rw [hkk]
      exact ⟨List.mem_append_right _ (List.mem_singleton_self _),
        fun x hx => (h.ordered k x hx).2 hk⟩
    · rw [hother k' hkk] at he
      exact ⟨hmem (h.pending k' op' he).1, (h.pending k' op' he).2⟩
  · obtain ⟨hinv, hphase⟩ := h.ordered k' op' he
    exact ⟨hmem hinv, hsome k' hphase⟩
  · have hkk : k' ≠ k := fun hkk => by
      rw [hkk, hself] at he
      rcases he with he | he <;> cases he
    rwa [hother k' hkk] at he
  · rcases List.mem_append.mp he with he | he
    · obtain ⟨op', hp⟩ := h.responded k' ret he
      have hkk : k' ≠ k := hne k' (by rw [hp]; exact fun hn => nomatch hn)
      exact ⟨op', by rw [hother k' hkk, hp]⟩
    · cases List.mem_singleton.mp he

theorem replay_append_getElem? {ops : List Op} {n : ℕ} {ret : Ret} (op : Op)
    (h : (replay apply s0 ops)[n]? = some ret) :
    (replay apply s0 (ops ++ [op]))[n]? = some ret := by
  rw [replay_append, List.getElem?_append_left (List.getElem?_eq_some_iff.mp h).1]
  exact h

omit [DecidableEq K] in
theorem executed_append {k' : K} {op' : Op} {ret : Ret} (k : K) (op : Op)
    (h : ∃ n : ℕ, o.order[n]? = some (k', op') ∧
      (replay apply s0 (o.order.map Prod.snd))[n]? = some ret) :
    ∃ n : ℕ, (o.order ++ [(k, op)])[n]? = some (k', op') ∧
      (replay apply s0 ((o.order ++ [(k, op)]).map Prod.snd))[n]? = some ret := by
  obtain ⟨n, hn, hret⟩ := h
  refine ⟨n, ?_, ?_⟩
  · rw [List.getElem?_append_left (List.getElem?_eq_some_iff.mp hn).1]
    exact hn
  · rw [List.map_append, List.map_singleton]
    exact replay_append_getElem? op hret

theorem mem_execute_order {k k' : K} {op op' : Op}
    (h : (k', op') ∈ (o.execute apply k op).order) :
    (k', op') ∈ o.order ∨ (k' = k ∧ op' = op) := by
  rcases List.mem_append.mp h with h | h
  · exact Or.inl h
  · cases List.mem_singleton.mp h
    exact Or.inr ⟨rfl, rfl⟩

theorem linearizes_execute (h : Ok apply s0 o) {k : K} {op : Op}
    (hk : o.phase k = some (.pending op)) :
    Linearizes apply s0 (o.execute apply k op).history (o.execute apply k op).order := by
  obtain ⟨hinv, hnew⟩ := h.pending k op hk
  refine {
    nodup := ?_, invoked := fun k' op' he => ?_, answered := fun k' ret he => ?_,
    realTime := fun i j k1 k2 ret op' hi hj hij n n' x x' hn hn' => ?_ }
  · rw [execute, List.map_append, List.nodup_append]
    refine ⟨h.linearizes.nodup, List.nodup_singleton _, fun a ha b hb => ?_⟩
    obtain ⟨⟨k', op'⟩, hx, rfl⟩ := List.mem_map.mp ha
    rw [List.map_singleton, List.mem_singleton] at hb
    rintro rfl
    rw [← show k' = k from hb] at hnew
    exact hnew op' hx
  · rcases mem_execute_order he with he | ⟨rfl, rfl⟩
    · exact h.linearizes.invoked k' op' he
    · exact hinv
  · obtain ⟨n, op', hn⟩ := h.linearizes.answered k' ret he
    obtain ⟨n, hn⟩ := executed_append k op ⟨n, hn⟩
    exact ⟨n, op', hn⟩
  · -- an answered call has its place already, a new place is behind it
    obtain ⟨op1, hp1⟩ := h.responded k1 ret (List.mem_of_getElem? hi)
    have hne : k1 ≠ k := fun he => by
      rw [he, hk] at hp1
      cases hp1
    have hlt : n < o.order.length := by
      have hnlt := (List.getElem?_eq_some_iff.mp hn).1
      rw [execute, List.length_append, List.length_singleton] at hnlt
      by_contra hge
      have hnl : n = o.order.length := by omega
      rw [hnl, execute, List.getElem?_concat_length] at hn
      cases hn
      exact hne rfl
    rw [execute, List.getElem?_append_left hlt] at hn
    by_cases hlt' : n' < o.order.length
    · rw [execute, List.getElem?_append_left hlt'] at hn'
      exact h.linearizes.realTime i j k1 k2 ret op' hi hj hij n n' x x' hn hn'
    · omega

theorem ok_execute (h : Ok apply s0 o) {k : K} {op : Op} (hk : o.phase k = some (.pending op)) :
    Ok apply s0 (o.execute apply k op) := by
  obtain ⟨hinv, hnew⟩ := h.pending k op hk
  have hother : ∀ k', k' ≠ k → (o.execute apply k op).phase k' = o.phase k' :=
    fun k' hk' => Function.update_of_ne hk' _ _
  have hself : (o.execute apply k op).phase k = some (.executed op (apply op o.store).1) :=
    Function.update_self ..
  refine {
    store := ?_, invoked := fun k' op' he => ?_, pending := fun k' op' he => ?_,
    ordered := fun k' op' he => ?_, executed := fun k' op' ret he => ?_,
    responded := fun k' ret he => ?_, linearizes := linearizes_execute h hk }
  · rw [execute, List.map_append, List.map_singleton, replayed_append, ← h.store]
  · by_cases hkk : k' = k
    · rw [hkk, hself]
      exact fun hn => nomatch hn
    · rw [hother k' hkk]
      exact h.invoked k' op' he
  · have hkk : k' ≠ k := fun hkk => by
      rw [hkk, hself] at he
      cases he
    rw [hother k' hkk] at he
    obtain ⟨hinv', hnew'⟩ := h.pending k' op' he
    refine ⟨hinv', fun x hx => ?_⟩
    rcases mem_execute_order hx with hx | ⟨hkk', -⟩
    · exact hnew' x hx
    · exact hkk hkk'
  · by_cases hkk : k' = k
    · subst hkk
      rw [hself]
      refine ⟨?_, fun hn => nomatch hn⟩
      rcases mem_execute_order he with he | ⟨-, rfl⟩
      · exact absurd he (hnew op')
      · exact hinv
    · rw [hother k' hkk]
      exact h.ordered k' op' ((mem_execute_order he).resolve_right fun hx => hkk hx.1)
  · by_cases hkk : k' = k
    · subst hkk
      rw [hself] at he
      rcases he with he | he
      · cases he
        refine ⟨o.order.length, List.getElem?_concat_length, ?_⟩
        rw [execute, List.map_append, List.map_singleton, replay_append, h.store]
        have hlen : o.order.length = (replay apply s0 (o.order.map Prod.snd)).length := by
          rw [replay_length, List.length_map]
        rw [hlen, List.getElem?_concat_length]
      · cases he
    · rw [hother k' hkk] at he
      exact executed_append k op (h.executed k' op' ret he)
  · obtain ⟨op', hp⟩ := h.responded k' ret he
    have hkk : k' ≠ k := fun hkk => by
      rw [hkk, hk] at hp
      cases hp
    exact ⟨op', by rw [hother k' hkk, hp]⟩

theorem linearizes_respond (h : Ok apply s0 o) {k : K} {op : Op} {ret : Ret}
    (hk : o.phase k = some (.executed op ret)) :
    Linearizes apply s0 (o.respond k op ret).history o.order := by
  refine { h.linearizes with
    invoked := fun k' op' he => List.mem_append_left _ (h.linearizes.invoked k' op' he),
    answered := fun k' ret' he => ?_,
    realTime := fun i j k1 k2 ret' op' hi hj hij n n' x x' hn hn' => ?_ }
  · rcases List.mem_append.mp he with he | he
    · exact h.linearizes.answered k' ret' he
    · cases List.mem_singleton.mp he
      obtain ⟨n, hn⟩ := h.executed k op ret (Or.inl hk)
      exact ⟨n, op, hn⟩
  · have hjlt : j < (o.history ++ [CallEvent.respond k ret]).length :=
      (List.getElem?_eq_some_iff.mp hj).1
    rw [List.length_append, List.length_singleton] at hjlt
    have hjl : j < o.history.length := by
      by_contra hge
      have hje : j = o.history.length := by omega
      rw [respond, hje, List.getElem?_concat_length] at hj
      cases hj
    rw [respond, List.getElem?_append_left hjl] at hj
    rw [respond, List.getElem?_append_left (by omega)] at hi
    exact h.linearizes.realTime i j k1 k2 ret' op' hi hj hij n n' x x' hn hn'

theorem ok_respond (h : Ok apply s0 o) {k : K} {op : Op} {ret : Ret}
    (hk : o.phase k = some (.executed op ret)) : Ok apply s0 (o.respond k op ret) := by
  have hother : ∀ k', k' ≠ k → (o.respond k op ret).phase k' = o.phase k' :=
    fun k' hk' => Function.update_of_ne hk' _ _
  have hself : (o.respond k op ret).phase k = some (.responded op ret) :=
    Function.update_self ..
  have hmem : ∀ {e}, e ∈ o.history → e ∈ (o.respond k op ret).history :=
    fun he => List.mem_append_left _ he
  have hsome : ∀ k', o.phase k' ≠ none → (o.respond k op ret).phase k' ≠ none := by
    intro k' hk'
    by_cases hkk : k' = k
    · rw [hkk, hself]
      exact fun hn => nomatch hn
    · rwa [hother k' hkk]
  refine {
    store := h.store, invoked := fun k' op' he => ?_, pending := fun k' op' he => ?_,
    ordered := fun k' op' he => ?_, executed := fun k' op' ret' he => ?_,
    responded := fun k' ret' he => ?_, linearizes := linearizes_respond h hk }
  · rcases List.mem_append.mp he with he | he
    · exact hsome k' (h.invoked k' op' he)
    · cases List.mem_singleton.mp he
  · have hkk : k' ≠ k := fun hkk => by
      rw [hkk, hself] at he
      cases he
    rw [hother k' hkk] at he
    exact ⟨hmem (h.pending k' op' he).1, (h.pending k' op' he).2⟩
  · obtain ⟨hinv, hphase⟩ := h.ordered k' op' he
    exact ⟨hmem hinv, hsome k' hphase⟩
  · refine h.executed k' op' ret' ?_
    by_cases hkk : k' = k
    · subst hkk
      rw [hself] at he
      rcases he with he | he
      · cases he
      · cases he
        exact Or.inl hk
    · rwa [hother k' hkk] at he
  · rcases List.mem_append.mp he with he | he
    · obtain ⟨op', hp⟩ := h.responded k' ret' he
      have hkk : k' ≠ k := fun hkk => by
        rw [hkk, hk] at hp
        cases hp
      exact ⟨op', by rw [hother k' hkk, hp]⟩
    · cases List.mem_singleton.mp he
      exact ⟨op, hself⟩

theorem reachable_ok (h : Reachable apply s0 o) : Ok apply s0 o := by
  induction h with
  | init => exact ok_init
  | invoke _ op hk ih => exact ok_invoke ih op hk
  | execute _ hk ih => exact ok_execute ih hk
  | respond _ hk ih => exact ok_respond ih hk

theorem reachable_invoke_unique (h : Reachable apply s0 o) {k : K} {op op' : Op}
    (hop : .invoke k op ∈ o.history) (hop' : .invoke k op' ∈ o.history) : op = op' := by
  induction h with
  | init => exact absurd hop List.not_mem_nil
  | @invoke o h k' x hk ih =>
    have hnew : ∀ y, .invoke k y ∈ (o.invoke k' x).history →
        .invoke k y ∈ o.history ∨ (k = k' ∧ y = x) := by
      intro y hy
      rcases List.mem_append.mp hy with hy | hy
      · exact Or.inl hy
      · cases List.mem_singleton.mp hy
        exact Or.inr ⟨rfl, rfl⟩
    have hfirst : ∀ y, .invoke k y ∈ o.history → k ≠ k' := fun y hy he =>
      (reachable_ok h).invoked k y hy (he ▸ hk)
    rcases hnew op hop with hop | ⟨hkk, rfl⟩
    · rcases hnew op' hop' with hop' | ⟨hkk', -⟩
      · exact ih hop hop'
      · exact absurd hkk' (hfirst op hop)
    · rcases hnew op' hop' with hop' | ⟨-, rfl⟩
      · exact absurd hkk (hfirst op' hop')
      · rfl
  | execute _ _ ih => exact ih hop hop'
  | @respond o _ k' x ret _ ih =>
    have hold : ∀ y, .invoke k y ∈ (o.respond k' x ret).history → .invoke k y ∈ o.history := by
      intro y hy
      rcases List.mem_append.mp hy with hy | hy
      · exact hy
      · cases List.mem_singleton.mp hy
    exact ih (hold op hop) (hold op' hop')

/-- A call that is over has its answer in the history. -/
theorem reachable_responded (h : Reachable apply s0 o) {k : K} {op : Op} {ret : Ret}
    (hk : o.phase k = some (.responded op ret)) : .respond k ret ∈ o.history := by
  induction h with
  | init => cases hk
  | @invoke o _ k' op' _ ih =>
    by_cases hkk : k = k'
    · rw [hkk] at hk
      cases (Function.update_self ..).symm.trans hk
    · exact List.mem_append_left _ (ih ((Function.update_of_ne hkk ..).symm.trans hk))
  | @execute o _ k' op' _ ih =>
    by_cases hkk : k = k'
    · rw [hkk] at hk
      cases (Function.update_self ..).symm.trans hk
    · exact ih ((Function.update_of_ne hkk ..).symm.trans hk)
  | @respond o _ k' op' ret' _ ih =>
    by_cases hkk : k = k'
    · rw [hkk] at hk
      cases (Function.update_self ..).symm.trans hk
      exact hkk ▸ List.mem_concat_self
    · exact List.mem_append_left _ (ih ((Function.update_of_ne hkk ..).symm.trans hk))

/-- What a call that has been carried out gets is an answer of the object. -/
theorem reachable_executed (h : Reachable apply s0 o) {k : K} {op : Op} {ret : Ret}
    (hk : o.phase k = some (.executed op ret)) : ∃ s, ret = (apply op s).1 := by
  induction h with
  | init => cases hk
  | @invoke o _ k' op' _ ih =>
    by_cases hkk : k = k'
    · rw [hkk] at hk
      cases (Function.update_self ..).symm.trans hk
    · exact ih ((Function.update_of_ne hkk ..).symm.trans hk)
  | @execute o _ k' op' _ ih =>
    by_cases hkk : k = k'
    · rw [hkk] at hk
      cases (Function.update_self ..).symm.trans hk
      exact ⟨_, rfl⟩
    · exact ih ((Function.update_of_ne hkk ..).symm.trans hk)
  | @respond o _ k' op' ret' _ ih =>
    by_cases hkk : k = k'
    · rw [hkk] at hk
      cases (Function.update_self ..).symm.trans hk
    · exact ih ((Function.update_of_ne hkk ..).symm.trans hk)

/-- Every history of the object is linearizable, in the order in which it carried
out the calls. -/
theorem reachable_linearizes (h : Reachable apply s0 o) :
    Linearizes apply s0 o.history o.order := (reachable_ok h).linearizes

end AtomicObject

end RN2223

import RN2223.Praxis2.RingRest

/-!
# A ring that stands still

Peers that wait for one another in a cycle wait forever, whatever the others do, and
no client whose request is at one of them gets an answer.
-/

namespace RN2223.Praxis2
open CMemory Relation

variable {ι : Type} [Fintype ι] [DecidableEq ι] {R : LinkedRing ι} {net : RingNet R} {i j : ι}

namespace RingState
variable {x x' : RingState ι} {W W' : Paths ι}

/-! ### One step -/

/-- What a step leaves as it is for peer `i`: its program, its numbers and the open ends
of the connections to it. -/
structure Leaves (i : ι) (x x' : RingState ι) : Prop where
  running : x'.running i = x.running i
  fds : x'.fds i = x.fds i
  forth : ∀ c l, x.conns c = some l → l.target = i → ∃ l', x'.conns c = some l' ∧ l'.target = i
  back : ∀ c l', x'.conns c = some l' → l'.target = i → l'.downClosed = true →
    ∃ l, x.conns c = some l ∧ l.target = i ∧ l.downClosed = true

omit [Fintype ι] [DecidableEq ι] in
theorem Leaves.trans {x'' : RingState ι} (h : Leaves i x x') (h' : Leaves i x' x'') :
    Leaves i x x'' where
  running := h'.running.trans h.running
  fds := h'.fds.trans h.fds
  forth c l hl ht := by
    obtain ⟨l', hl', ht'⟩ := h.forth c l hl ht
    exact h'.forth c l' hl' ht'
  back c l'' hl'' ht'' hd'' := by
    obtain ⟨l', hl', ht', hd'⟩ := h'.back c l'' hl'' ht'' hd''
    exact h.back c l' hl' ht' hd'

omit [DecidableEq ι] in
/-- A connection nobody has accepted is open. -/
theorem Inv.accepted (h : Inv net x W) {c : ℕ} {l : Link ι} (hl : x.conns c = some l)
    (hclosed : l.downClosed = true) : l.accepted = true := by
  have hlW : W.conns c = some l := (congrFun h.conns c).trans hl
  cases hnew : l.accepted with
  | true => rfl
  | false =>
    obtain ⟨p, -, hopen⟩ := h.ok.decodes hlW (h.ok.unread hlW hnew)
    cases hopen.symm.trans hclosed

omit [DecidableEq ι] in
theorem Inv.leaves {k : ι} {e : Option ℕ} (h' : Inv net x' W')
    (hpasses : Passes k e x.conns x'.conns) (hne : i ≠ k)
    (hread : ∀ c, e = some c → ∃ l, x.conns c = some l ∧ l.target = k)
    (hrunning : x'.running i = x.running i) (hfds : x'.fds i = x.fds i) : Leaves i x x' where
  running := hrunning
  fds := hfds
  forth c l hl ht := by
    have hc : e ≠ some c := fun he => by
      obtain ⟨l', hl', ht'⟩ := hread c he
      obtain rfl := Option.some.inj (hl'.symm.trans hl)
      exact hne (ht.symm.trans ht')
    obtain ⟨l', hl', -, ht', -⟩ := hpasses.forth c l hl hc
    exact ⟨l', hl', ht'.trans ht⟩
  back c l' hl' ht' hd' := by
    obtain ⟨l, hl, hsame⟩ := hpasses.back c l' hl' (fun he => hne (ht'.symm.trans he))
      (h'.accepted hl' hd')
    exact ⟨l, hl, hsame.target.symm.trans ht', hsame.downClosed.symm.trans hd'⟩

/-- A peer that waits is left alone. -/
theorem step_leaves {e : RingEvent ι} (h : Reachable net x) (hs : Step net x e x')
    (hwaits : x.Waits i j) : Leaves i x x' := by
  obtain ⟨W, hinv⟩ := reachable_inv h
  obtain ⟨W', hinv'⟩ := reachable_inv (.step e h hs)
  obtain ⟨k, q, s', w', executed, e0, rfl, hsettles, hactor, hread⟩ |
    ⟨conns, history, rfl, hpasses⟩ := (reachable_minds h).step_cases hinv hs
  · have hne : i ≠ k := fun he => hactor j (he ▸ hwaits)
    refine hinv'.leaves hsettles.passes hne (fun c hc => ?_) (Function.update_of_ne hne ..)
      (Function.update_of_ne hne ..)
    obtain ⟨l, hl, ht, -⟩ := hread c hc
    exact ⟨l, hl, ht⟩
  · exact hinv'.leaves (hpasses (R.succ i)) (R.succ_ne i).symm (fun c hc => by cases hc) rfl rfl

omit [Fintype ι] [DecidableEq ι] in
/-- Who waits for a peer that is left alone goes on waiting for it. -/
theorem Waits.stays (hw : x.Waits i j) (hi : Leaves i x x') (hj : Leaves j x x') : x'.Waits i j := by
  obtain ⟨q, hq, hwait⟩ := hw
  refine ⟨q, hi.running.trans hq, ?_⟩
  match q, hwait with
  | .call (.recv fd) f, ⟨c, l, hfd, hl, ht, hopen⟩ =>
    obtain ⟨l', hl', ht'⟩ := hj.forth c l hl ht
    refine ⟨c, l', (congrFun hi.fds fd).trans hfd, hl', ht', ?_⟩
    cases hclosed : l'.downClosed with
    | false => rfl
    | true =>
      obtain ⟨l0, hl0, -, hd0⟩ := hj.back c l' hl' ht' hclosed
      obtain rfl := Option.some.inj (hl0.symm.trans hl)
      cases hopen.symm.trans hd0

theorem step_stuck {e : RingEvent ι} (h : Reachable net x) (hs : Step net x e x')
    (hcycle : TransGen x.Waits i i) : TransGen x'.Waits i i ∧ Leaves i x x' := by
  constructor
  · refine cycle_of_stays hcycle fun a b hab ⟨d, hbd⟩ => ?_
    exact hab.stays (step_leaves h hs hab) (step_leaves h hs hbd)
  · obtain ⟨b, hib, -⟩ := TransGen.head'_iff.mp hcycle
    exact step_leaves h hs hib

/-! ### Answers -/

/-- A client takes its answer from a connection that is closed for good. -/
theorem reachable_closed (h : Reachable net x) {c : ℕ} {ret : Bytes}
    (hret : .respond c ret ∈ x.history) :
    ∃ l, x.conns c = some l ∧ l.downClosed = true := by
  induction h with
  | start => cases hret
  | @step x x' e hprev hs ih =>
    obtain ⟨W, hinv⟩ := reachable_inv hprev
    obtain ⟨W', hinv', k, hframe⟩ := hinv.step hs
    have hold : .respond c ret ∈ x.history → ∃ l, x'.conns c = some l ∧ l.downClosed = true := by
      intro hr
      obtain ⟨l, hl, hd⟩ := ih hr
      obtain ⟨l', hl', hg⟩ := hframe.links c l ((congrFun hinv.conns c).trans hl)
      exact ⟨l', (congrFun hinv'.conns c).symm.trans hl', hg.downClosed hd⟩
    cases hs with
    | invoke c' r entry hc =>
      obtain hr | hr := List.mem_append.mp hret
      · exact hold hr
      · cases List.mem_singleton.mp hr
    | respond c' l hc hsource hopen hdone =>
      obtain hr | hr := List.mem_append.mp hret
      · exact hold hr
      · cases List.mem_singleton.mp hr
        exact ⟨_, Function.update_self .., hdone⟩
    | _ => exact hold hret

end RingState

/-- Once peers wait for one another in a cycle they do so forever, and no client gets an
answer over a connection to one of them that was not closed by then. -/
theorem ring_standsStill {x x' : RingState ι} (h : RingState.Reachable net x)
    (hcycle : TransGen x.Waits i i)
    (hrun : ReflTransGen (fun y z => ∃ e, RingState.Step net y e z) x x') :
    TransGen x'.Waits i i ∧ x'.running i = x.running i ∧
    ∀ c l, x'.conns c = some l → l.target = i →
      (∀ l0, x.conns c = some l0 → l0.downClosed = false) →
      ∀ ret, .respond c ret ∉ x'.history := by
  have hstuck : RingState.Reachable net x' ∧ TransGen x'.Waits i i ∧ RingState.Leaves i x x' := by
    induction hrun with
    | refl =>
      exact ⟨h, hcycle, rfl, rfl, fun c l hl ht => ⟨l, hl, ht⟩, fun c l hl ht hd => ⟨l, hl, ht, hd⟩⟩
    | tail _ hs ih =>
      obtain ⟨hy, hcycle, hleaves⟩ := ih
      obtain ⟨e, hs⟩ := hs
      obtain ⟨hcycle', hleaves'⟩ := RingState.step_stuck hy hs hcycle
      exact ⟨.step e hy hs, hcycle', hleaves.trans hleaves'⟩
  obtain ⟨hx', hcycle', hleaves⟩ := hstuck
  refine ⟨hcycle', hleaves.running, fun c l hl ht hopen ret hret => ?_⟩
  obtain ⟨l', hl', hd⟩ := RingState.reachable_closed hx' hret
  obtain rfl := Option.some.inj (hl'.symm.trans hl)
  obtain ⟨l0, hl0, -, hd0⟩ := hleaves.back c l' hl' ht hd
  cases (hopen l0 hl0).symm.trans hd0

/-- A third client asks peer 10, which waits for peer 20. -/
def crossedAsked : RingState Bool := crossed.asking 4 (getOf 15) false

theorem ring_standsStill_crossedAsked : TransGen crossedAsked.Waits false false ∧
    crossedAsked.running false = crossed.running false ∧
    ∀ c l, crossedAsked.conns c = some l → l.target = false →
      (∀ l0, crossed.conns c = some l0 → l0.downClosed = false) →
      ∀ ret, .respond c ret ∉ crossedAsked.history := by
  have hup : crossed.Waits false true := ⟨_, rfl, 2, _, rfl, rfl, rfl, rfl⟩
  have hback : crossed.Waits true false := ⟨_, rfl, 3, _, rfl, rfl, rfl, rfl⟩
  exact ring_standsStill (.step _ crossing_run.reachable step_crossed)
    (.tail (.single hup) hback) (.single ⟨_, .invoke _ 4 (getOf 15) false rfl⟩)

end RN2223.Praxis2

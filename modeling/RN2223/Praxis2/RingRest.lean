import RN2223.Praxis2.RingWork

/-!
# What a ring has left to do

Every step but a new request takes work away, as long as some peer claims the hash of
every key. A request whose hash nobody claims gets no answer.
-/

namespace RN2223.Praxis2
open CMemory Relation

variable {ι : Type} [Fintype ι] [DecidableEq ι] {R : LinkedRing ι} {net : RingNet R} {i : ι}

/-- Whatever happens, but for new requests and passes over the clients that find none to
remove. -/
def RingEvent.Works (x : RingState ι) : RingEvent ι → Prop
  | .invoke .. => False
  | .sweep i => ∃ cl ∈ (x.peer i).srv.clients, cl.state = .remove
  | _ => True

namespace RingState
variable {x x' : RingState ι} {W : Paths ι} {s' : PeerState} {w' : Links ι} {m : ℤ}

noncomputable def work (R : LinkedRing ι) (x : RingState ι) : ℕ :=
  totalLoad (Link.work R) x.conns + ∑ i, (x.peer i).srv.clients.length

def Findable (R : LinkedRing ι) (x : RingState ι) : Prop :=
  ∀ c l p, x.conns c = some l → l.unread = some p → R.Answerable p

/-! ### Steps -/

theorem Findable.after {q : PeerM Unit} (executed : List Packet) (hfind : x.Findable R)
    (h : Spends R m (x.peer i) (x.links i) s' w') (hlimited : (x.links i).Limited) :
    ({ x.after i q s' w' with executed := executed } : RingState ι).Findable R ∧
      (({ x.after i q s' w' with executed := executed } : RingState ι).work R : ℤ) ≤
        x.work R + m := by
  obtain ⟨horderly, hle⟩ := h ⟨hlimited, hfind⟩
  have hclients := sum_update (Finset.mem_univ i) (fun s : PeerState => s.srv.clients.length)
    x.peer s'
  refine ⟨horderly.answerable, ?_⟩
  simp only [workAt] at hle
  simp only [work, RingState.after]
  have hconns : (x.links i).conns = x.conns := rfl
  rw [hconns] at hle
  omega

omit [DecidableEq ι] in
theorem Findable.client (history : List (CallEvent ℕ ClientRequest Bytes))
    (hfind : x.Findable R) (h : Spends R m (x.peer i) (x.links i) (x.peer i) w') (hlimited : (x.links i).Limited) :
    ({ x with conns := w'.conns, history := history } : RingState ι).Findable R ∧
      (({ x with conns := w'.conns, history := history } : RingState ι).work R : ℤ) ≤
        x.work R + m := by
  obtain ⟨horderly, hle⟩ := h ⟨hlimited, hfind⟩
  refine ⟨horderly.answerable, ?_⟩
  simp only [workAt] at hle
  simp only [work]
  have hconns : (x.links i).conns = x.conns := rfl
  rw [hconns] at hle
  omega

/-- A step takes work away, unless it is a new request or finds nothing to do. -/
theorem Findable.step {e : RingEvent ι} (hfind : x.Findable R) (hinv : Inv net x W)
    (hopens : Opens x) (hs : Step net x e x')
    (hcovered : ∀ c r entry, e = .invoke c r entry → R.CoveredOnce (keyHash r.key)) :
    x'.Findable R ∧ (e.Works x → x'.work R + 1 ≤ x.work R) := by
  have hless : ∀ {i : ι} {q : PeerM Unit} {s' : PeerState} {w' : Links ι} (executed : List Packet),
      Spends R (-1) (x.peer i) (x.links i) s' w' →
      ({ x.after i q s' w' with executed := executed } : RingState ι).Findable R ∧
        (e.Works x → ({ x.after i q s' w' with executed := executed } : RingState ι).work R + 1 ≤
          x.work R) := by
    intro i q s' w' executed hspends
    obtain ⟨hfind', hle⟩ := hfind.after (q := q) executed hspends (hopens.limited i)
    exact ⟨hfind', fun _ => by omega⟩
  cases hs with
  | invoke c r entry hc =>
    have hspends := Spends.setConn (R := R) (x.peer entry) (x.links entry) c
      { Link.fresh none entry with up := r.packet.wire } fun p hp => by
        rw [Link.unread_eq (l := { Link.fresh none entry with up := r.packet.wire }) r.decode,
          Option.some.injEq] at hp
        exact hp ▸ (LinkedRing.answerable_request r).mpr (hcovered c r entry rfl)
    exact ⟨(hfind.client (x.history ++ [.invoke c r]) hspends (hopens.limited entry)).1, False.elim⟩
  | accept i c fd l s' w' hidle hc ht hnew hfd hrun =>
    exact hless x.executed (accept_spends hc hnew hrun)
  | deliver i cl p c l q s' w' hidle hcl hfd hc hp hrun =>
    exact hless _ (deliver_spends (hinv.idle hidle) hfd hc hp hrun)
  | resume i p q s' w' hwait hrun =>
    obtain ⟨queue, hat, hcurrent⟩ := hinv.waiting hwait
    exact hless x.executed (resume_spends hat hcurrent hrun)
  | sweep i s' w' hidle hrun =>
    obtain ⟨hall, hmarked⟩ := sweep_spends (R := R) (hinv.idle hidle) hrun
    refine ⟨(hfind.after x.executed hall (hopens.limited i)).1, fun hworks => ?_⟩
    exact (hless x.executed (hmarked hworks)).2 hworks
  | hangup i cl c l s' w' hidle hcl hfd hc hup hclosed hrun =>
    exact hless x.executed ((remove_spends hfd hc hrun).2 ⟨cl, hcl, rfl⟩)
  | respond c l hc hsource hopen hdone =>
    have hspends := Spends.relink (R := R) (w := x.links l.target) (x.peer l.target)
      { l with upClosed := true } hc (Or.inl rfl)
    obtain ⟨hfind', hle⟩ := hfind.client (x.history ++ [.respond c l.down]) hspends
      (hopens.limited l.target)
    have hwork : ({ l with upClosed := true } : Link ι).work R + 1 = l.work R := by
      simp only [Link.work, Link.unread, hsource, hopen]
      rfl
    have hless : ({ x with
        conns := ((x.links l.target).setConn c { l with upClosed := true }).conns
        history := x.history ++ [.respond c l.down] } : RingState ι).work R + 1 ≤ x.work R := by
      omega
    exact ⟨hfind', fun _ => hless⟩

/-! ### Requests -/

theorem step_asked {e : RingEvent ι} (hs : Step net x e x') {c : ℕ} {r : ClientRequest} :
    .invoke c r ∈ x'.history ↔ .invoke c r ∈ x.history ∨ ∃ entry, e = .invoke c r entry := by
  cases hs with
  | invoke c' r' entry hc => simp [List.mem_append, eq_comm, and_comm]
  | _ => simp [RingState.after]

theorem reachable_findable (h : Reachable net x)
    (hcovered : ∀ c r, .invoke c r ∈ x.history → R.CoveredOnce (keyHash r.key)) :
    x.Findable R := by
  induction h with
  | start =>
    intro c l p hl
    cases hl
  | step e hprev hs ih =>
    obtain ⟨W, hinv⟩ := reachable_inv hprev
    refine ((ih fun c r hr => ?_).step hinv (reachable_opens hprev) hs fun c r entry he => ?_).1
    · exact hcovered c r ((step_asked hs).mpr (Or.inl hr))
    · exact hcovered c r ((step_asked hs).mpr (Or.inr ⟨entry, he⟩))

omit [DecidableEq ι] in
theorem executes_claimed {s : PeerState} (hs : R.Wired i s) (r : ClientRequest) :
    ∀ p ∈ executes s r.packet, R.Claims i (keyHash p.key) := by
  intro p hp
  rw [executes, route_wired hs r.exact r.isData] at hp
  by_cases hown : R.Claims i (keyHash r.packet.key)
  · rw [if_pos hown] at hp
    exact (List.mem_singleton.mp hp) ▸ hown
  · rw [if_neg hown] at hp
    split at hp
    · next hroute => split at hroute <;> cases hroute
    · cases hp

/-- Peers carry out requests whose hash they claim. -/
theorem reachable_executed (h : Reachable net x) :
    ∀ p ∈ x.executed, R.CoveredOnce (keyHash p.key) := by
  induction h with
  | start => exact fun p hp => absurd hp List.not_mem_nil
  | step e hprev hs ih =>
    obtain ⟨W, hinv⟩ := reachable_inv hprev
    cases hs with
    | deliver i cl p c l q s' w' hidle hcl hfd hc hp hrun =>
      have hwired := (hinv.idle hidle).knows.wired
      intro p' hp'
      obtain hold | hnew := List.mem_append.mp hp'
      · exact ih p' hold
      · obtain ⟨r, -, rfl⟩ | ⟨r, k, -, rfl⟩ | ⟨-, hcontrol⟩ :=
          hinv.ok.readable ((congrFun hinv.conns c).trans hc) hp
        · exact LinkedRing.coveredOnce_of_claims (executes_claimed hwired r p' hnew)
        · exact LinkedRing.coveredOnce_of_claims (executes_claimed hwired r p' hnew)
        · cases hcontrol with
          | lookup o hashId =>
            rw [executes, route_lookup] at hnew
            cases hnew
          | reply m hashId hm =>
            rw [executes, route_reply] at hnew
            cases hnew
    | _ => exact ih

theorem works_less {e : RingEvent ι} (h : Reachable net x)
    (hcovered : ∀ c r, .invoke c r ∈ x.history → R.CoveredOnce (keyHash r.key)) (hworks : e.Works x)
    (hs : Step net x e x') : x'.work R < x.work R := by
  obtain ⟨W, hinv⟩ := reachable_inv h
  have hless := ((reachable_findable h hcovered).step hinv (reachable_opens h) hs
    fun c r entry he => by
      rw [he] at hworks
      exact hworks.elim).2
  exact hless hworks

theorem works_asked {e : RingEvent ι} (hworks : e.Works x) (hs : Step net x e x') {c : ℕ}
    {r : ClientRequest} (h : .invoke c r ∈ x'.history) : .invoke c r ∈ x.history := by
  obtain hold | ⟨entry, rfl⟩ := (step_asked hs).mp h
  · exact hold
  · exact hworks.elim

end RingState

/-- A client that asks for a key whose hash nobody claims gets no answer. -/
theorem ring_unclaimed {x : RingState ι} (h : RingState.Reachable net x) {c : ℕ}
    {r : ClientRequest} (hask : .invoke c r ∈ x.history)
    (hunclaimed : ¬ R.CoveredOnce (keyHash r.key)) : ∀ ret, .respond c ret ∉ x.history := by
  intro ret hret
  obtain ⟨W, hinv⟩ := RingState.reachable_inv h
  have hlin := AtomicObject.reachable_linearizes hinv.ok.obj
  rw [← hinv.history] at hask hret
  obtain ⟨n, r', hn, -⟩ := hlin.answered c ret hret
  have horder := List.mem_of_getElem? hn
  obtain rfl := AtomicObject.reachable_invoke_unique hinv.ok.obj hask (hlin.invoked c r' horder)
  have hcarried : r.packet ∈ W.carried := List.mem_map.mpr ⟨(c, r), horder, rfl⟩
  rw [hinv.carried] at hcarried
  exact hunclaimed (RingState.reachable_executed h r.packet hcarried)

def askedBelow : RingState Bool := (RingState.start pairLinked).asking 0 (getOf 5) false

/-- The peer has taken the request and asks for the owner of hash 5, which is below both
ids. -/
def lookingBelow : RingState Bool :=
  (askedBelow.accepting false 0 (askedLink 5 false) 4).delivering pairNet false (newClient 4)
    (getOf 5).packet 0 { askedLink 5 false with accepted := true } true 5 1

theorem lookingBelow_reachable : RingState.Reachable pairNet lookingBelow := by
  refine .step _ (.step _ (.step (.invoke 0 (getOf 5) false) .start
    (.invoke _ 0 (getOf 5) false rfl))
    (RingState.step_accepting (c := 0) _ rfl rfl rfl rfl ?_))
    (RingState.step_delivering _ rfl ?_ ?_ rfl ?_ ?_)
  · decide
  · decide
  · rfl
  · decide
  · trivial

theorem ring_unclaimed_lookingBelow :
    getRequests (lookingBelow.peer false).rt 5 = [⟨(getOf 5).packet, 4⟩] ∧
    lookingBelow.conns 1 =
      some { Link.sent false true (pairNet.lookup false 5) with upClosed := true } ∧
    ¬ ∃ ret, .respond 0 ret ∈ lookingBelow.history := by
  refine ⟨rfl, rfl, ?_⟩
  rintro ⟨ret, hret⟩
  have hunclaimed : ¬ pairLinked.CoveredOnce (keyHash (getOf 5).key) := by
    rw [pairLinked.coveredOnce_iff]
    decide
  exact ring_unclaimed lookingBelow_reachable (r := getOf 5) List.mem_cons_self hunclaimed ret hret

end RN2223.Praxis2

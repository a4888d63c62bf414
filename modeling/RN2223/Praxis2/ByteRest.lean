import Mathlib.Data.Prod.Lex
import RN2223.Praxis2.RingRefines

/-!
# A ring that reads in pieces comes to rest

With requests that can be received, every step but a new request brings the ring of
whole packets further or leaves it and takes bytes off a connection. And whatever the
ring of whole packets could do next, the one that reads in pieces can do next, or it
can read.
-/

namespace RN2223.Praxis2
open CMemory Relation

variable {ι : Type} [Fintype ι] [DecidableEq ι] {R : LinkedRing ι} {net : RingNet R} {i : ι}
  {part : ℕ → Bytes} {y y' : ByteRing ι} {x' : RingState ι} {e : RingEvent ι}

namespace ByteRing

/-- Whatever happens, but for new requests and passes over the clients that find none to
remove. -/
def Works [Stack] (net : RingNet R) (y y' : ByteRing ι) : Prop :=
  ∃ e, (∀ e', e = some e' → e'.Works y.ring) ∧ Step net y e y'

def AtRest [Stack] (net : RingNet R) (y : ByteRing ι) : Prop := ∀ y', ¬ Works net y y'

/-! ### Every step takes something away -/

noncomputable def unread (y : ByteRing ι) : ℕ :=
  totalLoad (fun l : Link ι => l.up.length) y.ring.conns

/-- The work of the ring of whole packets comes first, the bytes that have not been read
come second. -/
structure Left [Stack] (net : RingNet R) (y : ByteRing ι) (m : ℕ ×ₗ ℕ) : Prop where
  receivable : ∀ c r, .invoke c r ∈ y.ring.history → r.Receivable
  covered : ∀ c r, .invoke c r ∈ y.ring.history → R.CoveredOnce (keyHash r.key)
  whole : ∃ part, RingState.Reachable net (y.ring.whole part) ∧
    Holding y.record part y.ring.conns ∧ m = toLex ((y.ring.whole part).work R, y.unread)

omit [Fintype ι] [DecidableEq ι] in
theorem works_whole : e.Works (y.ring.whole part) ↔ e.Works y.ring := by
  cases e <;> exact Iff.rfl

theorem reachable_finite {x : RingState ι} (h : RingState.Reachable net (x.whole part)) (i : ι) :
    {c | x.conns c ≠ none}.Finite := by
  refine ((RingState.reachable_opens h).limited i).conns.subset fun c hc hnone => hc ?_
  exact Option.map_eq_none_iff.mp hnone

theorem receive_less [Stack] (h : RingState.Reachable net (y.ring.whole part))
    (hold : Holding y.record part y.ring.conns)
    (hreq : ∀ c r, .invoke c r ∈ y.ring.history → r.Receivable) (hs : Step net y none y') :
    y'.ring.history = y.ring.history ∧ y'.unread < y.unread := by
  cases hs with
  | receive i cl c l k n client hidle hcl hmark hfd hc hup hn hserve =>
    obtain ⟨-, n', hn', hpos, -⟩ := serves h hold hreq hidle hfd hc hup k
    obtain rfl : n' = n := Except.ok.inj (hn'.symm.trans hn)
    refine ⟨rfl, ?_⟩
    have hload := totalLoad_update (fun l : Link ι => l.up.length) (reachable_finite h i) c
      (some { l with up := l.up.drop (min (k + 1) n') })
    have hlen := List.length_pos_iff.mpr hup
    simp only [hc, Option.elim_some, List.length_drop] at hload
    simp only [unread]
    omega

theorem Left.step [Stack] {m : ℕ ×ₗ ℕ} (h : Left net y m) (hs : Works net y y') :
    ∃ m', Left net y' m' ∧ m' < m := by
  obtain ⟨hreq, hcovered, part, hreach, hold, rfl⟩ := h
  obtain ⟨e, hworks, hs⟩ := hs
  obtain ⟨part', hold', hwhole⟩ := step_refines hreach hold hreq hs
  cases e with
  | none =>
    obtain ⟨hhistory, hless⟩ := receive_less hreach hold hreq hs
    have hsame : y'.ring.whole part' = y.ring.whole part := hwhole
    refine ⟨_, ⟨?_, ?_, part', hsame ▸ hreach, hold', rfl⟩, ?_⟩
    · exact fun c r hr => hreq c r (hhistory ▸ hr)
    · exact fun c r hr => hcovered c r (hhistory ▸ hr)
    · rw [hsame, Prod.Lex.toLex_lt_toLex]
      exact Or.inr ⟨rfl, hless⟩
  | some e =>
    have hstep : RingState.Step net (y.ring.whole part) e (y'.ring.whole part') := hwhole
    have he : e.Works (y.ring.whole part) := works_whole.mpr (hworks e rfl)
    have hold_asked : ∀ {c r}, .invoke c r ∈ y'.ring.history → .invoke c r ∈ y.ring.history :=
      fun hr => RingState.works_asked he hstep hr
    refine ⟨_, ⟨?_, ?_, part', .step e hreach hstep, hold', rfl⟩, ?_⟩
    · exact fun c r hr => hreq c r (hold_asked hr)
    · exact fun c r hr => hcovered c r (hold_asked hr)
    · rw [Prod.Lex.toLex_lt_toLex]
      exact Or.inl (RingState.works_less hreach hcovered he hstep)

theorem Left.run [Stack] {m : ℕ ×ₗ ℕ} (h : Left net y m) (hrun : ReflTransGen (Works net) y y') :
    ∃ m', Left net y' m' := by
  induction hrun with
  | refl => exact ⟨m, h⟩
  | tail _ hs ih =>
    obtain ⟨m1, hm1⟩ := ih
    obtain ⟨m', hm', -⟩ := hm1.step hs
    exact ⟨m', hm'⟩

/-! ### What could be done can be done -/

theorem sweep_works [Stack] (hidle : y.ring.running i = none)
    (hmarked : ∃ cl ∈ (y.ring.peer i).srv.clients, cl.state = .remove) : ∃ y', Works net y y' := by
  obtain ⟨a, s', w', hrun⟩ := runs_serverSweep net i (y.ring.peer i) (y.ring.links i)
  refine ⟨_, some (.sweep i), fun e he => ?_, .plain y (.sweep i) _ trivial
    (.sweep y.ring i s' w' hidle hrun)⟩
  cases he
  exact hmarked

theorem deliver_works [Stack] (h : RingState.Reachable net (y.ring.whole part))
    (hold : Holding y.record part y.ring.conns)
    (hreq : ∀ c r, .invoke c r ∈ y.ring.history → r.Receivable) {cl : Client} {p : Packet}
    (hs : RingState.Step net (y.ring.whole part) (.deliver i cl p) x') : ∃ y', Works net y y' := by
  cases hs with
  | deliver i cl p c l q s' w' hidle hcl hfd hc hp hrun =>
    by_cases hmark : cl.state = .remove
    · exact sweep_works hidle ⟨cl, hcl, hmark⟩
    · obtain ⟨l, hl, rfl⟩ := Option.map_eq_some_iff.mp hc
      have hup : l.up ≠ [] := fun he => by
        rw [whole_eq_self (hold.more c l hl he), he] at hp
        cases hp
      obtain ⟨-, n, hn, -, ⟨c', hserve, -⟩ | ⟨c', p', hserve, hlast, hholds, hdecode⟩⟩ :=
        serves h hold hreq hidle hfd hl hup 0
      · exact ⟨_, none, fun e he => (nomatch he),
          .receive y i cl c l 0 n c' hidle hcl hmark hfd hl hup hn hserve⟩
      · obtain rfl : p' = p := Option.some.inj (Except.ok.inj (hdecode.symm.trans hp))
        have hnext : Holding (Function.update y.record c c') (Function.update part c [])
            (Function.update y.ring.conns c (some { l with up := l.up.drop (min (0 + 1) n) })) :=
          hold.update c (fun _ => rfl) (fun _ => rfl) fun _ => hholds
        obtain ⟨v', hrun', -⟩ := Prog.until_simulates (S := fun v w => WholeLinks _ _ w v)
          wholeLinks_of_call ⟨(whole_emptied (y.ring.links i) hlast (part c)).symm, hnext⟩ hrun
        exact ⟨_, some (.deliver i cl p'), fun e he => by cases he; trivial,
          .deliver y i cl p' c l 0 n c' q s' v' hidle hcl hmark hfd hl hup hn hserve hrun'⟩

/-- What brings the ring of whole packets further brings this one further, or there is
something to read first. -/
theorem works_of_useful [Stack] (h : RingState.Reachable net (y.ring.whole part))
    (hold : Holding y.record part y.ring.conns)
    (hreq : ∀ c r, .invoke c r ∈ y.ring.history → r.Receivable)
    (huseful : RingState.Useful (y.ring.whole part) e)
    (hs : RingState.Step net (y.ring.whole part) e x') : ∃ y', Works net y y' := by
  cases e with
  | invoke => exact huseful.elim
  | hangup => exact huseful.elim
  | deliver i cl p => exact deliver_works h hold hreq hs
  | accept i c fd =>
    cases hs with
    | accept i c fd l s' w' hidle hc htarget hnew hfd hrun =>
      obtain ⟨l, hl, rfl⟩ := Option.map_eq_some_iff.mp hc
      have hlinks := acceptLinks_whole part y.ring i c l fd
      obtain ⟨v', hrun', -⟩ := Prog.exec_simulates (S := fun v w => WholeLinks _ part w v)
        wholeLinks_of_call ⟨hlinks.symm, hold.accept hl hnew fd⟩ hrun
      exact ⟨_, some (.accept i c fd), fun e he => by cases he; trivial,
        .accept y i c fd _ (.accept y.ring i c fd l s' v' hidle hl htarget hnew hfd hrun')⟩
  | resume i =>
    cases hs with
    | resume i p q s' w' hwait hrun =>
      obtain ⟨v', hrun', -⟩ := Prog.resumes_simulates (S := fun v w => WholeLinks _ part w v)
        (w := (y.ring.whole part).links i) (v := y.ring.links i) wholeLinks_of_call ⟨rfl, hold⟩ hrun
      exact ⟨_, some (.resume i), fun e he => by cases he; trivial,
        .plain y (.resume i) _ trivial (.resume y.ring i p q s' v' hwait hrun')⟩
  | sweep i =>
    cases hs with
    | sweep i s' w' hidle hrun => exact sweep_works hidle huseful
  | respond c =>
    cases hs with
    | respond c l hc hsource hopen hdone =>
      obtain ⟨l, hl, rfl⟩ := Option.map_eq_some_iff.mp hc
      exact ⟨_, some (.respond c), fun e he => by cases he; trivial,
        .plain y (.respond c) _ trivial (.respond y.ring c l hl hsource hopen hdone)⟩

omit [Fintype ι] [DecidableEq ι] in
theorem waits_whole (x : RingState ι) (part : ℕ → Bytes) : (x.whole part).Waits = x.Waits := by
  have hunanswered : ∀ i fd j, ((x.whole part).links i).Unanswered fd j ↔
      (x.links i).Unanswered fd j := by
    intro i fd j
    constructor
    · rintro ⟨c, l, hfd, hl, ht, hopen⟩
      obtain ⟨l', hl', rfl⟩ := Option.map_eq_some_iff.mp hl
      exact ⟨c, l', hfd, hl', ht, hopen⟩
    · rintro ⟨c, l, hfd, hl, ht, hopen⟩
      exact ⟨c, _, hfd, wholeConns_some hl, ht, hopen⟩
  funext i j
  refine propext (exists_congr fun q => and_congr_right fun _ => ?_)
  unfold WaitsFor
  split
  · exact hunanswered i _ j
  · exact Iff.rfl

end ByteRing

/-- If some peer claims the hash of every key the clients have asked for and their
requests can be received, the ring comes to rest however it is run, and then every
client has its answer unless peers wait for one another in a cycle. -/
theorem byteRing_comesToRest [Stack] (h : ByteRing.Reachable net y)
    (hreq : ∀ c r, .invoke c r ∈ y.ring.history → r.Receivable)
    (hcovered : ∀ c r, .invoke c r ∈ y.ring.history → R.CoveredOnce (keyHash r.key)) :
    (∃ z, ReflTransGen (ByteRing.Works net) y z ∧ z.AtRest net) ∧
    (∀ f : ℕ → ByteRing ι, f 0 = y → ∃ n, ¬ ByteRing.Works net (f n) (f (n + 1))) ∧
    ∀ z, ReflTransGen (ByteRing.Works net) y z → z.AtRest net → Acyclic z.ring.Waits →
      ∀ c r, .invoke c r ∈ z.ring.history → ∃ ret, .respond c ret ∈ z.ring.history := by
  obtain ⟨part, hreach, hold⟩ := ByteRing.reachable_whole h hreq
  have hleft : ByteRing.Left net y (toLex ((y.ring.whole part).work R, y.unread)) :=
    ⟨hreq, hcovered, part, hreach, hold, rfl⟩
  have hacc : Acc (fun y' y => ByteRing.Works net y y') y :=
    acc_of_less (P := ByteRing.Left net) (fun _ _ _ hx hs => hx.step hs) hleft
  refine ⟨exists_end hacc, fun f hf => no_infinite_run hacc hf, ?_⟩
  intro z hrun hrest hacyclic c r hask
  obtain ⟨m, hreq, -, part, hreach, hold, -⟩ := hleft.run hrun
  rw [← ByteRing.waits_whole z.ring part] at hacyclic
  by_contra hnone
  obtain ⟨e, x', huseful, hs⟩ :=
    RingState.asked_goesOn hreach hacyclic hask fun ret hret => hnone ⟨ret, hret⟩
  obtain ⟨z', hz'⟩ := ByteRing.works_of_useful hreach hold hreq huseful hs
  exact hrest z' hz'

theorem headerBegun_asked {c : ℕ} {r : ClientRequest} (h : .invoke c r ∈ headerBegun.ring.history) :
    r = getOf 15 := by
  have hhistory : headerBegun.ring.history = [.invoke 0 (getOf 15)] := rfl
  rw [hhistory, List.mem_singleton, CallEvent.invoke.injEq] at h
  exact h.2

theorem getOf_covered : pairLinked.CoveredOnce (keyHash (getOf 15).key) := by
  rw [pairLinked.coveredOnce_iff]
  decide

/-- A client's request of which four bytes have been read. -/
theorem byteRing_comesToRest_headerBegun :
    (∃ z, ReflTransGen (ByteRing.Works pairNet) headerBegun z ∧ z.AtRest pairNet) ∧
    (∀ f : ℕ → ByteRing Bool, f 0 = headerBegun →
      ∃ n, ¬ ByteRing.Works pairNet (f n) (f (n + 1))) ∧
    ∀ z, ReflTransGen (ByteRing.Works pairNet) headerBegun z → z.AtRest pairNet →
      Acyclic z.ring.Waits →
      ∀ c r, .invoke c r ∈ z.ring.history → ∃ ret, .respond c ret ∈ z.ring.history := by
  refine byteRing_comesToRest headerBegun_reachable (fun c r hr => ?_) fun c r hr => ?_
  · rw [headerBegun_asked hr]
    exact ⟨by decide, by decide, by decide⟩
  · rw [headerBegun_asked hr]
    exact getOf_covered

end RN2223.Praxis2

import RN2223.Praxis2.RingEnabled
import RN2223.Praxis2.RingSettles

/-!
# A ring that goes on

In every state a run reaches no peer has forgotten anything.
-/

namespace RN2223.Praxis2
open CMemory Relation

variable {ι : Type} [Fintype ι] {R : LinkedRing ι} {net : RingNet R} {i j : ι} {w w' : Links ι}
  {conns conns' : ℕ → Option (Link ι)} {queue : UInt16 → List Request} {hand : Option Int}
  {skip : Option UInt16} {csocket : Int}
  {s s' : PeerState} {W : Paths ι} {q : PeerM Unit} {n : Peer}

/-! ### The ring -/

theorem Paths.Ok.unread (h : W.Ok net) {c : ℕ} {l : Link ι} (hl : W.conns c = some l)
    (hnew : l.accepted = false) : l.up ≠ [] := by
  obtain ⟨rl, -, hfit⟩ := h.role hl
  have hold : l.accepted = true → l.up ≠ [] := fun ha => by cases hnew.symm.trans ha
  cases rl with
  | asked r => exact fun he => wire_ne_nil _ (hfit.2.1.symm.trans he)
  | proxied r k => exact fun he => wire_ne_nil _ (hfit.2.1.symm.trans he)
  | control p => exact fun he => wire_ne_nil _ (hfit.2.1.symm.trans he)
  | held r => exact hold hfit.2.2.1
  | relayed r d => exact hold hfit.2.2.1
  | answered r b => exact hold hfit.2.2.1
  | served r k b => exact hold hfit.2.2.1
  | spent => exact hold hfit.2.2

/-- What has not been read is a packet, and its connection is open. -/
theorem Paths.Ok.decodes (h : W.Ok net) {c : ℕ} {l : Link ι} (hl : W.conns c = some l)
    (hup : l.up ≠ []) :
    ∃ p, packetDecode l.up l.up.length = .ok (some p) ∧ l.downClosed = false := by
  obtain ⟨rl, -, hfit⟩ := h.role hl
  cases rl with
  | asked r => exact ⟨r.packet, by rw [hfit.2.1, r.decode], hfit.2.2.1.downClosed⟩
  | proxied r k => exact ⟨r.packet, by rw [hfit.2.1, r.decode], hfit.2.2.1.downClosed⟩
  | control p => exact ⟨p, by rw [hfit.2.1, hfit.2.2.2.decode], hfit.2.2.1⟩
  | held r => exact absurd hfit.2.1 hup
  | relayed r d => exact absurd hfit.2.1 hup
  | answered r b => exact absurd hfit.2.1 hup
  | served r k b => exact absurd hfit.2.1 hup
  | spent => exact absurd hfit.2.1 hup

/-- What a waiting peer waits for has been sent off as a request. -/
theorem At.awaits {fds : Int → Option LinkEnd} {c : ℕ} {f : Int × Peer → PeerM Unit}
    (h : At net i s fds W (relay csocket n >>= f) queue) (hok : W.Ok net)
    (hup : fds n.socket = some (.up c)) :
    ∃ r k, W.role c = some (.proxied r k) ∨ ∃ b, W.role c = some (.served r k b) := by
  obtain ⟨c', k, r, hup', hrole⟩ := h.reads (relay_bind csocket n f)
  obtain rfl : c' = c := by
    rw [hup', Option.some.injEq, LinkEnd.up.injEq] at hup
    exact hup
  obtain ⟨l, -, -, -, -, -, hpartner⟩ := hok.link hrole
  exact ⟨r, k, hpartner⟩

/-- What another peer is at concerns the connections only in the one it waits for. -/
theorem Doing.frame {p : PeerM Unit} (h : Doing net s w p queue hand skip)
    (hat : ∃ queue, At net i s w.fds W p queue) (hok : W.Ok net)
    (hfds : w'.fds = w.fds) (hans : ∀ c m, (∃ r k, W.role c = some (.proxied r k) ∨
      ∃ b, W.role c = some (.served r k b)) → Answering w.conns c m → Answering w'.conns c m) :
    Doing net s w' p queue hand skip := by
  obtain ⟨queue', hat⟩ := hat
  cases h with
  | idle => exact .idle
  | proxying hup hdown hck hlink =>
    exact .proxying (hfds ▸ hup) (hfds ▸ hdown) hck (hans _ _ (hat.awaits hok hup) hlink)
  | replying hup hdown hck hlink hres hctl hrest =>
    refine .replying (hfds ▸ hup) (hfds ▸ hdown) hck (hans _ _ (hat.awaits hok hup) hlink) hres
      (hfds ▸ hctl) fun req hreq => ?_
    obtain ⟨k, hk, hr⟩ := hrest req hreq
    exact ⟨k, hfds ▸ hk, hr⟩

namespace RingState
variable [DecidableEq ι] {x x' : RingState ι}

/-- No peer has forgotten anything. -/
def Minds (net : RingNet R) (x : RingState ι) : Prop :=
  ∀ i, ∃ q queue hand skip, x.running i = q.unfinished ∧
    Doing net (x.peer i) (x.links i) q queue hand skip ∧
    Live net i queue hand skip (x.peer i) (x.links i)

omit [DecidableEq ι] in
theorem Minds.idle (h : Minds net x) (hidle : x.running i = none) :
    Live net i (getRequests (x.peer i).rt) none none (x.peer i) (x.links i) := by
  obtain ⟨q, queue, hand, skip, hq, hdoing, hlive⟩ := h i
  rw [hidle] at hq
  cases hdoing with
  | idle => exact hlive
  | proxying => cases hq
  | replying => cases hq

omit [DecidableEq ι] in
theorem Minds.waiting {p : PeerM Unit} (h : Minds net x) (hwait : x.running i = some p) :
    ∃ queue hand skip, Doing net (x.peer i) (x.links i) p queue hand skip ∧
      Live net i queue hand skip (x.peer i) (x.links i) := by
  obtain ⟨q, queue, hand, skip, hq, hdoing, hlive⟩ := h i
  obtain rfl : q = p := by
    rw [hwait] at hq
    cases q <;> cases hq
    all_goals rfl
  exact ⟨queue, hand, skip, hdoing, hlive⟩

theorem Minds.after {e : Option ℕ} (executed : List Packet) (h : Minds net x)
    (hinv : Inv net x W) (hsettles : Settles net i e x.conns q s' w')
    (hread : ∀ c, e = some c → ∃ l, x.conns c = some l ∧ l.target = i ∧ l.up ≠ [] ∧
      ReadOut net i c l W w'.conns) :
    Minds net { x.after i q s' w' with executed := executed } := by
  intro j
  by_cases hji : j = i
  · subst hji
    obtain ⟨queue, hand, skip, hdoing, hlive⟩ := hsettles.live
    refine ⟨q, queue, hand, skip, Function.update_self .., ?_, ?_⟩
    · simpa [RingState.after, links] using hdoing
    · simpa [RingState.after, links] using hlive
  · obtain ⟨q0, queue, hand, skip, hq, hdoing, hlive⟩ := h j
    obtain ⟨q1, queue', hq', hat, -⟩ := hinv.peers j
    have hsame : q1 = q0 := Prog.unfinished_injective (hq'.symm.trans hq)
    have hdoing' : Doing net (x.peer j) ⟨x.fds j, w'.conns⟩ q0 queue hand skip := by
      refine hdoing.frame ⟨queue', hsame ▸ hat⟩ hinv.ok rfl fun c m hrole hans => ?_
      refine hsettles.passes.answering hans fun l hc hl ht => ?_
      obtain ⟨l0, hl0, ht0, hup, hout⟩ := hread c hc
      obtain rfl : l0 = l := Option.some.inj (hl0.symm.trans hl)
      obtain ⟨r, k, hproxied | ⟨b, hserved⟩⟩ := hrole
      · exact (ht0.symm.trans ht) ▸ hout.answering r k hproxied
      · obtain ⟨-, hempty, -⟩ := hinv.ok.fit hserved ((congrFun hinv.conns c).trans hl)
        exact absurd hempty hup
    have hlive' : Live net j queue hand skip (x.peer j) ⟨x.fds j, w'.conns⟩ := by
      refine ⟨hsettles.passes.tends hji hlive.tends, ?_⟩
      refine hsettles.passes.sought hlive.sought fun hashId c l hc hl hcarries _ => ?_
      obtain ⟨l0, hl0, -, -, hout⟩ := hread c hc
      obtain rfl : l0 = l := Option.some.inj (hl0.symm.trans hl)
      exact hout.underway j hashId hji hcarries
    refine ⟨q0, queue, hand, skip, (Function.update_of_ne hji ..).trans hq, ?_, ?_⟩
    · simpa [RingState.after, links, hji] using hdoing'
    · simpa [RingState.after, links, hji] using hlive'

omit [DecidableEq ι] in
theorem Minds.client {history : List (CallEvent ℕ ClientRequest Bytes)} (h : Minds net x)
    (hpasses : ∀ i, Passes i none x.conns conns) :
    Minds net { x with conns := conns, history := history } := by
  intro j
  obtain ⟨q, queue, hand, skip, hq, hdoing, hlive⟩ := h j
  have hp := hpasses (R.succ j)
  refine ⟨q, queue, hand, skip, hq, ?_, hp.tends (R.succ_ne j).symm hlive.tends,
    hp.sought_same hlive.sought⟩
  have hans : ∀ c m, Answering x.conns c m → Answering conns c m :=
    fun c m ha => hp.answering ha fun _ he => by cases he
  cases hdoing with
  | idle => exact .idle
  | proxying hup hdown hck hlink => exact .proxying hup hdown hck (hans _ _ hlink)
  | replying hup hdown hck hlink hres hctl hrest =>
    exact .replying hup hdown hck (hans _ _ hlink) hres hctl hrest

omit [DecidableEq ι] in
theorem start_minds (net : RingNet R) : Minds net (start R) := by
  refine fun i => ⟨.ret (), _, none, none, rfl, .idle, fun c l hl => ?_, fun hashId hq => ?_⟩
  · cases hl
  · exact absurd rfl hq

omit [Fintype ι] [DecidableEq ι] in
theorem not_waits_of_idle (hidle : x.running i = none) : ¬ x.Waits i j := by
  rintro ⟨q, hq, -⟩
  cases hidle.symm.trans hq

omit [DecidableEq ι] in
/-- Who goes on has its answer. -/
theorem not_waits_of_resumes {p : PeerM Unit} (hwait : x.running i = some p)
    (hrun : p.Resumes SysOp.Waits (linkCall net i) s (x.links i) q s' w') : ¬ x.Waits i j := by
  rintro ⟨p', hp', hwaits⟩
  obtain rfl := Option.some.inj (hwait.symm.trans hp')
  match p, hwaits, hrun with
  | .call (.recv fd) f, ⟨c, l, hfd, hl, _, hopen⟩, ⟨b, w1, ⟨_, c', l', hfd', hl', hdone, _⟩, _⟩ =>
    obtain rfl : c' = c := by
      rw [hfd, Option.some.injEq, LinkEnd.up.injEq] at hfd'
      exact hfd'.symm
    obtain rfl := Option.some.inj (hl.symm.trans hl')
    cases hopen.symm.trans hdone

/-- A step is one of a peer that does not wait, or one of a client. -/
theorem Minds.step_cases {e : RingEvent ι} (h : Minds net x) (hinv : Inv net x W)
    (hs : Step net x e x') :
    (∃ i q s' w' executed e0, x' = { x.after i q s' w' with executed := executed } ∧
      Settles net i e0 x.conns q s' w' ∧ (∀ j, ¬ x.Waits i j) ∧
      ∀ c, e0 = some c → ∃ l, x.conns c = some l ∧ l.target = i ∧ l.up ≠ [] ∧
        ReadOut net i c l W w'.conns) ∨
    (∃ conns history, x' = { x with conns := conns, history := history } ∧
      ∀ i, Passes i none x.conns conns) := by
  have hquiet : ∀ {i : ι} {q : PeerM Unit} {s' : PeerState} {w' : Links ι},
      Settles net i none x.conns q s' w' → (∀ j, ¬ x.Waits i j) →
      ∃ i1 q1 s1 w1 executed e0, x.after i q s' w' =
        { x.after i1 q1 s1 w1 with executed := executed } ∧
        Settles net i1 e0 x.conns q1 s1 w1 ∧ (∀ j, ¬ x.Waits i1 j) ∧
        ∀ c, e0 = some c → ∃ l, x.conns c = some l ∧ l.target = i1 ∧ l.up ≠ [] ∧
          ReadOut net i1 c l W w1.conns :=
    fun hsettles hno => ⟨_, _, _, _, x.executed, none, rfl, hsettles, hno, fun _ he => by cases he⟩
  have hlink : ∀ {i : ι} {fd : Int} {c : ℕ} {l : Link ι}, x.running i = none →
      x.fds i fd = some (.down c) → x.conns c = some l → l.target = i := by
    intro i fd c l hidle hfd hl
    obtain ⟨l', hl', ht, -⟩ := (hinv.idle hidle).serves.owned fd c hfd
    obtain rfl : l' = l := Option.some.inj (hl'.symm.trans ((congrFun hinv.conns c).trans hl))
    exact ht
  cases hs with
  | invoke c r entry hc => exact Or.inr ⟨_, _, rfl, fun i => .new hc rfl⟩
  | accept i c fd l s' w' hidle hc ht hnew hfd hrun =>
    have hup := hinv.ok.unread ((congrFun hinv.conns c).trans hc) hnew
    exact Or.inl (hquiet (accept_settles (h.idle hidle) hc ht hup hfd.2 hrun)
      fun j => not_waits_of_idle hidle)
  | deliver i cl p c l q s' w' hidle hcl hfd hc hp hrun =>
    obtain ⟨hsettles, hout⟩ :=
      deliver_settles (hinv.idle hidle) (h.idle hidle) hcl hfd hc hp hrun
    refine Or.inl ⟨i, q, s', w', _, some c, rfl, hsettles, fun j => not_waits_of_idle hidle,
      fun d hd => ?_⟩
    cases hd
    refine ⟨l, hc, hlink hidle hfd hc, fun he => ?_, hout⟩
    rw [he] at hp
    cases hp
  | resume i p q s' w' hwait hrun =>
    obtain ⟨queue, hand, skip, hdoing, hlive⟩ := h.waiting hwait
    obtain ⟨queue', -, hcurrent⟩ := hinv.waiting hwait
    refine Or.inl (hquiet (resume_settles hdoing hlive hcurrent.knows.unique (fun fd c hfd => ?_)
      hrun) fun j => not_waits_of_resumes hwait hrun)
    obtain ⟨l, hl, ht, -⟩ := hcurrent.serves.owned fd c hfd
    exact ⟨l, hcurrent.conns ▸ hl, ht⟩
  | sweep i s' w' hidle hrun =>
    exact Or.inl (hquiet (sweep_settles (h.idle hidle) (hinv.idle hidle) hrun)
      fun j => not_waits_of_idle hidle)
  | hangup i cl c l s' w' hidle hcl hfd hc hup hclosed hrun =>
    exact Or.inl (hquiet (hangup_settles (h.idle hidle) hfd hc (hlink hidle hfd hc) hrun)
      fun j => not_waits_of_idle hidle)
  | respond c l hc hsource hopen hdone =>
    exact Or.inr ⟨_, _, rfl, fun i => .relink hc rfl rfl id (Or.inr ⟨rfl, rfl, rfl, rfl, rfl⟩)⟩

theorem Minds.step {e : RingEvent ι} (h : Minds net x) (hinv : Inv net x W)
    (hs : Step net x e x') : Minds net x' := by
  obtain ⟨i, q, s', w', executed, e0, rfl, hsettles, -, hread⟩ | ⟨conns, history, rfl, hpasses⟩ :=
    h.step_cases hinv hs
  · exact h.after executed hinv hsettles hread
  · exact h.client hpasses

theorem reachable_minds (h : Reachable net x) : Minds net x := by
  induction h with
  | start => exact start_minds net
  | step e hprev hs ih =>
    obtain ⟨W, hinv⟩ := reachable_inv hprev
    exact ih.step hinv hs

/-! ### Something goes on -/

/-- A peer accepts, reads, goes on or removes a marked client, or a client takes its
answer. -/
def Useful (x : RingState ι) : RingEvent ι → Prop
  | .accept .. => True
  | .deliver .. => True
  | .resume _ => True
  | .sweep i => ∃ cl ∈ (x.peer i).srv.clients, cl.state = .remove
  | .respond _ => True
  | _ => False

def GoesOn (net : RingNet R) (x : RingState ι) : Prop :=
  ∃ e x', Useful x e ∧ Step net x e x'

/-- What there is to do for an idle peer. -/
def HasWork (x : RingState ι) (i : ι) : Prop :=
  (∃ c l, x.conns c = some l ∧ l.target = i ∧ l.up ≠ []) ∨
  ∃ cl ∈ (x.peer i).srv.clients, cl.state = .remove

theorem idle_goesOn (hinv : Inv net x W) (hminds : Minds net x) (hopens : Opens x)
    (hidle : x.running i = none) (hwork : x.HasWork i) : GoesOn net x := by
  obtain ⟨c, l, hc, ht, hup⟩ | hmarked := hwork
  · have hlW : W.conns c = some l := (congrFun hinv.conns c).trans hc
    obtain ⟨p, hp, hdown⟩ := hinv.ok.decodes hlW hup
    cases haccepted : l.accepted with
    | false =>
      obtain ⟨⟨fd, hpos, hfree⟩, -⟩ := (hopens.limited i).room
      exact ⟨.accept i c fd, _, trivial, .accept x i c fd l _ _ hidle hc ht haccepted ⟨hpos, hfree⟩
        (Prog.exec_modify.mpr ⟨rfl, rfl⟩)⟩
    | true =>
      obtain ⟨cl, hcl, hfd, -⟩ :=
        (hminds.idle hidle).tends c l hc ⟨ht, haccepted, hdown, Or.inl hup⟩
      obtain ⟨q, s', w', hrun⟩ :=
        starts_deliver (hinv.idle hidle) hc hp (hopens.limited i) cl.socket
      exact ⟨.deliver i cl p, _, trivial, .deliver x i cl p c l q s' w' hidle hcl hfd hc hp hrun⟩
  · obtain ⟨a, s', w', he⟩ := runs_serverSweep net i (x.peer i) (x.links i)
    exact ⟨.sweep i, _, hmarked, .sweep x i s' w' hidle he⟩

/-- A peer that waits goes on when its answer is complete; else its request waits to
be read. -/
theorem waiting_goesOn (hminds : Minds net x) (hopens : Opens x) (hwait : x.running i ≠ none) :
    GoesOn net x ∨ ∃ j, x.Waits i j ∧ x.HasWork j := by
  obtain ⟨q, queue, hand, skip, hq, hdoing, -⟩ := hminds i
  have hcase : ∀ {csocket : Int} {n : Peer} {c : ℕ} {m : ι} {f : Int × Peer → PeerM Unit},
      x.running i = some (relay csocket n >>= f) → x.fds i n.socket = some (.up c) →
      Answering x.conns c m → (∀ w', (x.links i).Extends w' →
        Starts net i (f (cbRemoveClient, n.closed)) (x.peer i) w') →
      GoesOn net x ∨ ∃ j, x.Waits i j ∧ x.HasWork j := by
    intro csocket n c m f hrunning hup ⟨l, hl, ht, hans⟩ hf
    cases hdone : l.downClosed with
    | true =>
      obtain ⟨q', s', w', hrun⟩ := relay_goesOn csocket hup hl hdone hf
      exact Or.inl ⟨.resume i, _, trivial, .resume x i _ q' s' w' hrunning hrun⟩
    | false =>
      have hunread : l.up ≠ [] := hans.resolve_right fun hd => by cases hdone.symm.trans hd
      exact Or.inr ⟨m, ⟨_, hrunning, c, l, hup, hl, ht, hdone⟩, Or.inl ⟨c, l, hl, ht, hunread⟩⟩
  cases hdoing with
  | idle => exact absurd hq hwait
  | @proxying csocket n c k m hup hdown hck hlink =>
    refine hcase hq hup hlink fun w' _ => ?_
    exact starts_finish csocket cbRemoveClient { x.peer i with succ := n.closed } w'
  | @replying csocket hashId req rest n c k e m hup hdown hck hlink hres hctl hrest =>
    refine hcase hq hup hlink fun w' hw' => ?_
    exact starts_replyLoop (n := n.closed) csocket hashId (fun req' hreq' => (hrest req' hreq').choose_spec.2)
      hres (hw'.limited (hopens.limited i))
      { x.peer i with srv := serverCloseSocket (x.peer i).srv req.socket }

/-- Whoever waits, waits in the end for a peer that can go on. -/
theorem goesOn_of_work (hinv : Inv net x W) (hminds : Minds net x) (hopens : Opens x)
    (hacyclic : Acyclic x.Waits) (i : ι) (hwork : x.running i ≠ none ∨ x.HasWork i) :
    GoesOn net x := by
  revert hwork
  induction i using hacyclic.induction with
  | hP i ih =>
    intro hwork
    by_cases hidle : x.running i = none
    · exact idle_goesOn hinv hminds hopens hidle (hwork.resolve_left fun hne => hne hidle)
    · obtain hgoes | ⟨j, hwaits, hnext⟩ := waiting_goesOn hminds hopens hidle
      · exact hgoes
      · exact ih j hwaits (Or.inr hnext)

/-- The connection of a client that has no answer yet. -/
theorem client_goesOn (hinv : Inv net x W) (hminds : Minds net x) (hopens : Opens x)
    (hacyclic : Acyclic x.Waits) {c : ℕ} {l : Link ι} (hc : x.conns c = some l)
    (hsource : l.source = none) (hopen : l.upClosed = false) : GoesOn net x := by
  have hwork := goesOn_of_work hinv hminds hopens hacyclic
  cases hdone : l.downClosed with
  | true => exact ⟨.respond c, _, trivial, .respond x c l hc hsource hopen hdone⟩
  | false =>
    by_cases hup : l.up = []
    swap
    · exact hwork l.target (Or.inr (Or.inl ⟨c, l, hc, rfl, hup⟩))
    cases haccepted : l.accepted with
    | false => exact absurd hup (hinv.ok.unread ((congrFun hinv.conns c).trans hc) haccepted)
    | true =>
      by_cases hidle : x.running l.target = none
      swap
      · exact hwork l.target (Or.inl hidle)
      have hlive := hminds.idle hidle
      obtain ⟨cl, hcl, -, hkept⟩ := hlive.tends c l hc ⟨rfl, haccepted, hdone, Or.inr hsource⟩
      cases hkept with
      | unread h => exact absurd hup h
      | inHand h => cases h
      | marked h => exact hwork l.target (Or.inr (Or.inr ⟨cl, hcl, h⟩))
      | queued hashId req hreq h =>
        obtain ⟨d, ld, hd, hcarries⟩ :=
          hlive.sought hashId (List.ne_nil_of_mem hreq) fun he => by cases he
        refine hwork ld.target (Or.inr (Or.inl ⟨d, ld, hd, rfl, fun he => ?_⟩))
        obtain hwire | ⟨-, m, hwire⟩ := hcarries
        · exact wire_ne_nil _ (hwire.symm.trans he)
        · exact wire_ne_nil _ (hwire.symm.trans he)

/-- As long as peers do not wait for one another in a cycle, a client without an answer
means that some peer, or a client, has something to do and can do it. -/
theorem asked_goesOn (h : Reachable net x) (hacyclic : Acyclic x.Waits) {c : ℕ}
    {r : ClientRequest} (hask : .invoke c r ∈ x.history) (hopen : ∀ ret, .respond c ret ∉ x.history) :
    GoesOn net x := by
  obtain ⟨W, hinv⟩ := reachable_inv h
  have hopens := reachable_opens h
  obtain ⟨l, hc, hsource⟩ := hopens.clients c r hask
  refine client_goesOn hinv (reachable_minds h) hopens hacyclic hc hsource ?_
  obtain ⟨rl, -, hfit⟩ := hinv.ok.role ((congrFun hinv.conns c).trans hc)
  cases rl with
  | asked r => exact hfit.2.2.1.upClosed
  | held r => exact hfit.2.2.2.1.upClosed
  | relayed r d => exact hfit.2.2.2.1.upClosed
  | answered r b =>
    cases hclosed : l.upClosed with
    | false => rfl
    | true =>
      have hphase := hfit.2.2.2.2
      rw [hclosed, if_pos rfl] at hphase
      exact absurd (hinv.history ▸ AtomicObject.reachable_responded hinv.ok.obj hphase) (hopen b)
  | proxied r k => exact absurd hsource hfit.1
  | served r k b => exact absurd hsource hfit.1
  | control p => exact absurd hsource hfit.1
  | spent => exact absurd hsource hfit.1

end RingState

end RN2223.Praxis2

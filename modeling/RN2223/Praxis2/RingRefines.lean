import RN2223.Praxis2.RingBytes
import RN2223.Praxis2.RingRest

/-!
# Reading in pieces

With what the records hold put back in front of what the connections still have, a ring
that reads in pieces is one that takes whole packets: a `recv` that completes none is no
step of it, and the others are its steps.
-/

namespace RN2223.Praxis2
open CMemory

variable {ι : Type}

/-! ### What has been received -/

def Link.whole (b : Bytes) (l : Link ι) : Link ι := { l with up := b ++ l.up }

def wholeConns (part : ℕ → Bytes) (conns : ℕ → Option (Link ι)) : ℕ → Option (Link ι) :=
  fun c => (conns c).map (Link.whole (part c))

def Links.whole (part : ℕ → Bytes) (w : Links ι) : Links ι :=
  { w with conns := wholeConns part w.conns }

def RingState.whole (part : ℕ → Bytes) (x : RingState ι) : RingState ι :=
  { x with conns := wholeConns part x.conns }

/-- `part c` is what the record of connection `c` holds of a packet that has not come
to its end. -/
structure Holding (record : ℕ → Client) (part : ℕ → Bytes) (conns : ℕ → Option (Link ι)) :
    Prop where
  absent : ∀ c, conns c = none → part c = []
  fresh : ∀ c l, conns c = some l → l.accepted = false → part c = []
  more : ∀ c l, conns c = some l → l.up = [] → part c = []
  holds : ∀ c l, conns c = some l → l.accepted = true → Holds (record c) (part c)

section
variable {record : ℕ → Client} {part : ℕ → Bytes} {conns : ℕ → Option (Link ι)} {w w' : Links ι}
  {c : ℕ} {l : Link ι}

theorem wholeConns_some (hl : conns c = some l) :
    wholeConns part conns c = some (l.whole (part c)) := congrArg (Option.map _) hl

theorem wholeConns_none (hc : conns c = none) : wholeConns part conns c = none :=
  congrArg (Option.map _) hc

theorem wholeConns_update (part : ℕ → Bytes) (conns : ℕ → Option (Link ι)) (c : ℕ) (l : Link ι) :
    wholeConns part (Function.update conns c (some l)) =
      Function.update (wholeConns part conns) c (some (l.whole (part c))) := by
  funext d
  by_cases hdc : d = c
  · subst hdc
    rw [Function.update_self, wholeConns, Function.update_self]
    rfl
  · rw [Function.update_of_ne hdc, wholeConns, Function.update_of_ne hdc]
    rfl

theorem whole_setConn (w : Links ι) (c : ℕ) (l : Link ι) :
    (w.setConn c l).whole part = (w.whole part).setConn c (l.whole (part c)) :=
  congrArg (Links.mk w.fds) (wholeConns_update part w.conns c l)

theorem whole_modify (w : Links ι) (c : ℕ) {f : Link ι → Link ι}
    (hf : ∀ b l, (f l).whole b = f (l.whole b)) :
    (w.modify c f).whole part = (w.whole part).modify c f := by
  refine congrArg (Links.mk w.fds) (funext fun d => ?_)
  by_cases hdc : d = c
  · subst hdc
    simp only [wholeConns, Links.modify, Links.whole, Function.update_self, Option.map_map]
    exact congrArg (fun g => Option.map g (w.conns d)) (funext fun l => hf (part d) l)
  · simp only [wholeConns, Links.modify, Links.whole, Function.update_of_ne hdc]

/-- Connection `c` gets another record, or none of its bytes are held any more. -/
theorem Holding.update (h : Holding record part conns) (c : ℕ) {client : Client} {b : Bytes}
    (hfresh : l.accepted = false → b = []) (hmore : l.up = [] → b = [])
    (hholds : l.accepted = true → Holds client b) :
    Holding (Function.update record c client) (Function.update part c b)
      (Function.update conns c (some l)) where
  absent d hd := by
    by_cases hdc : d = c
    · subst hdc
      rw [Function.update_self] at hd
      cases hd
    · rw [Function.update_of_ne hdc] at hd ⊢
      exact h.absent d hd
  fresh d l' hl' ha := by
    by_cases hdc : d = c
    · subst hdc
      rw [Function.update_self] at hl' ⊢
      obtain rfl := Option.some.inj hl'
      exact hfresh ha
    · rw [Function.update_of_ne hdc] at hl' ⊢
      exact h.fresh d l' hl' ha
  more d l' hl' he := by
    by_cases hdc : d = c
    · subst hdc
      rw [Function.update_self] at hl' ⊢
      obtain rfl := Option.some.inj hl'
      exact hmore he
    · rw [Function.update_of_ne hdc] at hl' ⊢
      exact h.more d l' hl' he
  holds d l' hl' ha := by
    by_cases hdc : d = c
    · subst hdc
      rw [Function.update_self] at hl' ⊢
      obtain rfl := Option.some.inj hl'
      rw [Function.update_self]
      exact hholds ha
    · rw [Function.update_of_ne hdc] at hl' ⊢
      rw [Function.update_of_ne hdc]
      exact h.holds d l' hl' ha

/-- The record and its bytes stay, the connection is another. -/
theorem Holding.setConn (h : Holding record part conns) (c : ℕ)
    (hfresh : l.accepted = false → part c = []) (hmore : l.up = [] → part c = [])
    (hholds : l.accepted = true → Holds (record c) (part c)) :
    Holding record part (Function.update conns c (some l)) := by
  have hupdate := h.update c hfresh hmore hholds
  rwa [Function.update_eq_self, Function.update_eq_self] at hupdate

theorem Holding.modify (h : Holding record part w.conns) (c : ℕ) {f : Link ι → Link ι}
    (haccepted : ∀ l, (f l).accepted = l.accepted) (hup : ∀ l, (f l).up = [] → l.up = []) :
    Holding record part (w.modify c f).conns := by
  show Holding record part (Function.update w.conns c ((w.conns c).map f))
  cases hc : w.conns c with
  | none =>
    have hsame : Function.update w.conns c (Option.map f none) = w.conns := by
      rw [Option.map_none, ← hc, Function.update_eq_self]
    rw [hsame]
    exact h
  | some l =>
    exact h.setConn c (fun ha => h.fresh c l hc ((haccepted l).symm.trans ha))
      (fun he => h.more c l hc (hup l he)) fun ha => h.holds c l hc ((haccepted l).symm.trans ha)

end

/-! ### The calls of a peer -/

section
variable [Fintype ι] {R : LinkedRing ι} {net : RingNet R} {record : ℕ → Client} {part : ℕ → Bytes}
  {w w' : Links ι} {i : ι}

omit [Fintype ι] in
theorem write_whole (h : Holding record part w.conns) (fd : Int) (buffer : Bytes) :
    (w.write fd buffer).whole part = (w.whole part).write fd buffer ∧
      Holding record part (w.write fd buffer).conns := by
  have hfds : (w.whole part).fds fd = w.fds fd := rfl
  unfold Links.write
  rw [hfds]
  cases w.fds fd with
  | none => exact ⟨rfl, h⟩
  | some e =>
    cases e with
    | up c =>
      refine ⟨whole_modify w c fun b l => ?_, h.modify c (fun l => rfl) fun l hl => ?_⟩
      · exact congrArg (fun up => { l with up := up }) (List.append_assoc ..).symm
      · exact (List.append_eq_nil_iff.mp hl).1
    | down c => exact ⟨whole_modify w c fun b l => rfl, h.modify c (fun l => rfl) fun l hl => hl⟩
    | _ => exact ⟨rfl, h⟩

omit [Fintype ι] in
theorem close_whole (h : Holding record part w.conns) (fd : Int) :
    (w.close fd).whole part = (w.whole part).close fd ∧
      Holding record part (w.close fd).conns := by
  have hfds : (w.whole part).fds fd = w.fds fd := rfl
  unfold Links.close
  rw [hfds]
  cases w.fds fd with
  | none => exact ⟨rfl, h⟩
  | some e =>
    cases e with
    | up c =>
      refine ⟨?_, h.modify c (fun l => rfl) fun l hl => hl⟩
      exact congrArg (Links.setFd · fd none) (whole_modify w c fun b l => rfl)
    | down c =>
      refine ⟨?_, h.modify c (fun l => rfl) fun l hl => hl⟩
      exact congrArg (Links.setFd · fd none) (whole_modify w c fun b l => rfl)
    | _ => exact ⟨rfl, h⟩

omit [Fintype ι] in
theorem setFresh_whole {c : ℕ} (hpart : part c = []) (w : Links ι) (i j : ι) (fd : Int) :
    ((w.setConn c (.fresh (some i) j)).setFd fd (some (.up c))).whole part =
      ((w.whole part).setConn c (.fresh (some i) j)).setFd fd (some (.up c)) := by
  have hsame : (Link.fresh (some i) j).whole (part c) = .fresh (some i) j := by
    rw [hpart]
    rfl
  show ((w.setConn c _).whole part).setFd fd _ = _
  rw [whole_setConn, hsame]

/-- A peer's calls leave alone what has been received. -/
theorem linkCall_whole (h : Holding record part w.conns) {o : SysOp} {r : SysRes o}
    (hcall : linkCall net i w o r w') :
    linkCall net i (w.whole part) o r (w'.whole part) ∧ Holding record part w'.conns := by
  cases o with
  | getaddrinfo hostname port =>
    obtain ⟨hr, rfl⟩ := hcall
    exact ⟨⟨hr, rfl⟩, h⟩
  | socket =>
    obtain ⟨hr, rfl⟩ := hcall
    exact ⟨⟨hr, rfl⟩, h⟩
  | connect fd addr =>
    obtain ⟨hr, hfd, j, c, hj, hc, rfl⟩ := hcall
    have hpart := h.absent c hc
    exact ⟨⟨hr, hfd, j, c, hj, wholeConns_none hc, setFresh_whole hpart w i j fd⟩,
      h.setConn c (fun _ => hpart) (fun _ => hpart) fun ha => (nomatch ha)⟩
  | send fd buffer =>
    obtain ⟨hr, rfl⟩ := hcall
    obtain ⟨hsame, hholding⟩ := write_whole h fd buffer
    exact ⟨⟨hr, hsame⟩, hholding⟩
  | recv fd =>
    obtain ⟨rfl, c, l, hfd, hl, hclosed, hr⟩ := hcall
    exact ⟨⟨rfl, c, l.whole (part c), hfd, wholeConns_some hl, hclosed, hr⟩, h⟩
  | close fd =>
    obtain rfl : w' = w.close fd := hcall
    exact close_whole h fd
  | crash f => exact hcall.elim

/-- And what it can call with whole packets, it can call. -/
theorem linkCall_of_whole (h : Holding record part w.conns) {o : SysOp} {r : SysRes o}
    {v' : Links ι} (hcall : linkCall net i (w.whole part) o r v') :
    ∃ w', linkCall net i w o r w' ∧ v' = w'.whole part := by
  cases o with
  | getaddrinfo hostname port => exact ⟨w, ⟨hcall.1, rfl⟩, hcall.2⟩
  | socket => exact ⟨_, ⟨hcall.1, rfl⟩, hcall.2⟩
  | connect fd addr =>
    obtain ⟨hr, hfd, j, c, hj, hc, rfl⟩ := hcall
    have hnone : w.conns c = none := Option.map_eq_none_iff.mp hc
    exact ⟨_, ⟨hr, hfd, j, c, hj, hnone, rfl⟩, (setFresh_whole (h.absent c hnone) w i j fd).symm⟩
  | send fd buffer => exact ⟨_, ⟨hcall.1, rfl⟩, hcall.2.trans (write_whole h fd buffer).1.symm⟩
  | recv fd =>
    obtain ⟨rfl, c, l, hfd, hl, hclosed, hr⟩ := hcall
    obtain ⟨l', hl', rfl⟩ := Option.map_eq_some_iff.mp hl
    exact ⟨w, ⟨rfl, c, l', hfd, hl', hclosed, hr⟩, rfl⟩
  | close fd =>
    obtain rfl : v' = (w.whole part).close fd := hcall
    exact ⟨w.close fd, rfl, (close_whole h fd).1.symm⟩
  | crash f => exact hcall.elim

end

/-! ### What is on its way -/

/-- The body is not empty, has less than `2^31` bytes and room twice on the stack. -/
def ClientRequest.Receivable [Stack] (r : ClientRequest) : Prop :=
  pktHeaderLen < r.packet.wire.length ∧ r.packet.wire.length < 2^31 + pktHeaderLen ∧
  2 * (r.packet.wire.length - pktHeaderLen) ≤ Stack.room

section
variable {ι : Type} [Fintype ι] [DecidableEq ι] {R : LinkedRing ι} {net : RingNet R} {i : ι}
  {x x' : RingState ι} {c : ℕ} {l : Link ι}

theorem ctrl_wirePacket [Stack] {p : Packet} (hp : flagSet p.flags pktFlagCtrl = true) :
    ∃ w : WirePacket, w.bytes = p.wire ∧ w.Receivable := by
  have hlen : p.wire.length = 11 := by simp [Packet.wire, hp, packetSerializeCtrl]
  have hwire : OnePacket p.wire := onePacket_wire fun hdata => by
    rw [hp] at hdata
    cases hdata
  have hsmall : 2 * 7 ≤ Stack.room := Stack.small
  refine ⟨⟨p.wire, hwire, by omega⟩, rfl, ?_, ?_, ?_⟩
  all_goals
    dsimp only
    rw [hlen, pktHeaderLen]
    omega

theorem request_wirePacket [Stack] {r : ClientRequest} (hr : r.Receivable) :
    ∃ w : WirePacket, w.bytes = r.packet.wire ∧ w.Receivable := by
  have hshort : r.packet.wire.length < 2^31 + 7 := hr.2.1
  exact ⟨⟨r.packet.wire, onePacket_wire fun _ => r.exact, by omega⟩, rfl, hr⟩

/-- What is on its way to a peer is one packet, which the peer can receive. -/
theorem RingState.reachable_wirePacket [Stack] (h : RingState.Reachable net x)
    (hreq : ∀ c r, .invoke c r ∈ x.history → r.Receivable) (hl : x.conns c = some l)
    (hup : l.up ≠ []) : ∃ w : WirePacket, w.bytes = l.up ∧ w.Receivable := by
  obtain ⟨W, hinv⟩ := RingState.reachable_inv h
  have hasked : ∀ k r, W.obj.phase k = some (.pending r) → r.Receivable := by
    intro k r hk
    refine hreq k r ?_
    rw [← hinv.history]
    exact ((AtomicObject.reachable_ok hinv.ok.obj).pending k r hk).1
  have hfits := hinv.ok.fits c
  rw [hinv.conns, hl] at hfits
  cases hrole : W.role c with
  | none =>
    rw [hrole] at hfits
    exact hfits.elim
  | some rl =>
    rw [hrole] at hfits
    cases rl with
    | asked r =>
      obtain ⟨-, hwire, -, hphase⟩ := hfits
      rw [hwire]
      exact request_wirePacket (hasked c r hphase)
    | proxied r k =>
      obtain ⟨-, hwire, -, -, -, hphase⟩ := hfits
      rw [hwire]
      exact request_wirePacket (hasked k r hphase)
    | control p =>
      obtain ⟨-, hwire, -, hctl⟩ := hfits
      rw [hwire]
      cases hctl with
      | lookup o hashId => exact ctrl_wirePacket (net.lookup_ctrl o hashId)
      | reply m hashId hm => exact ctrl_wirePacket (net.reply_ctrl m hashId)
    | held r => exact absurd hfits.2.1 hup
    | relayed r d => exact absurd hfits.2.1 hup
    | answered r b => exact absurd hfits.2.1 hup
    | served r k b => exact absurd hfits.2.1 hup
    | spent => exact absurd hfits.2.1 hup

theorem RingState.reachable_accepted (h : RingState.Reachable net x) (hidle : x.running i = none)
    {fd : Int} (hfd : x.fds i fd = some (.down c)) (hl : x.conns c = some l) :
    l.accepted = true := by
  obtain ⟨W, hinv⟩ := RingState.reachable_inv h
  obtain ⟨l', hl', -, ha⟩ := (hinv.idle hidle).serves.owned fd c hfd
  rw [hinv.conns, hl] at hl'
  rw [Option.some.inj hl']
  exact ha

end

/-! ### The steps -/

section
variable {ι : Type} [Fintype ι] [DecidableEq ι] {R : LinkedRing ι} {net : RingNet R} {i : ι}
  {record : ℕ → Client} {part : ℕ → Bytes} {x x' : RingState ι} {c : ℕ} {l : Link ι}
  {y y' : ByteRing ι}

/-- The connections of a ring that reads in pieces, and those of one that takes whole
packets. -/
def WholeLinks (record : ℕ → Client) (part : ℕ → Bytes) (w v : Links ι) : Prop :=
  v = w.whole part ∧ Holding record part w.conns

omit [DecidableEq ι] in
theorem wholeLinks_call (w v : Links ι) (o : SysOp) (r : SysRes o) (w' : Links ι)
    (h : WholeLinks record part w v) (hcall : linkCall net i w o r w') :
    ∃ v', linkCall net i v o r v' ∧ WholeLinks record part w' v' := by
  obtain ⟨rfl, hold⟩ := h
  obtain ⟨hcall', hold'⟩ := linkCall_whole hold hcall
  exact ⟨_, hcall', rfl, hold'⟩

omit [DecidableEq ι] in
theorem wholeLinks_of_call (v w : Links ι) (o : SysOp) (r : SysRes o) (v' : Links ι)
    (h : WholeLinks record part w v) (hcall : linkCall net i v o r v') :
    ∃ w', linkCall net i w o r w' ∧ WholeLinks record part w' v' := by
  obtain ⟨rfl, hold⟩ := h
  obtain ⟨w', hcall', rfl⟩ := linkCall_of_whole hold hcall
  exact ⟨w', hcall', rfl, (linkCall_whole hold hcall').2⟩

omit [Fintype ι] [DecidableEq ι] in
theorem whole_eq_self (hc : part c = []) (l : Link ι) : l.whole (part c) = l := by
  rw [hc]
  rfl

theorem plain_whole (hold : Holding record part x.conns) {e : RingEvent ι} (he : e.Plain)
    (hs : RingState.Step net x e x') :
    RingState.Step net (x.whole part) e (x'.whole part) ∧ Holding record part x'.conns := by
  cases hs with
  | invoke c r entry hc =>
    have hpart := hold.absent c hc
    have hconns := wholeConns_update part x.conns c
      { Link.fresh none entry with up := r.packet.wire }
    rw [whole_eq_self hpart] at hconns
    refine ⟨?_, hold.setConn c (fun _ => hpart) (fun _ => hpart) fun ha => (nomatch ha)⟩
    simp only [RingState.whole, hconns]
    exact .invoke (x.whole part) c r entry (wholeConns_none hc)
  | resume i p q s' w' hwait hrun =>
    obtain ⟨v', hrun', rfl, hold'⟩ := Prog.resumes_simulates wholeLinks_call
      (⟨rfl, hold⟩ : WholeLinks record part (x.links i) _) hrun
    exact ⟨.resume (x.whole part) i p q s' _ hwait hrun', hold'⟩
  | sweep i s' w' hidle hrun =>
    obtain ⟨v', hrun', rfl, hold'⟩ := Prog.exec_simulates wholeLinks_call
      (⟨rfl, hold⟩ : WholeLinks record part (x.links i) _) hrun
    exact ⟨.sweep (x.whole part) i s' _ hidle hrun', hold'⟩
  | respond c l hc hsource hopen hdone =>
    have hconns := wholeConns_update part x.conns c { l with upClosed := true }
    refine ⟨?_, hold.setConn c (hold.fresh c l hc) (hold.more c l hc) (hold.holds c l hc)⟩
    simp only [RingState.whole, hconns]
    exact .respond (x.whole part) c (l.whole (part c)) (wholeConns_some hc) hsource hopen hdone
  | accept => exact he.elim
  | deliver => exact he.elim
  | hangup => exact he.elim

omit [Fintype ι] [DecidableEq ι] in
theorem Holding.accept (hold : Holding record part x.conns) (hc : x.conns c = some l)
    (hnew : l.accepted = false) (fd : Int) : Holding (Function.update record c (newClient fd)) part
      (Function.update x.conns c (some { l with accepted := true })) := by
  have hupdate := hold.update (l := { l with accepted := true }) (b := []) c
    (fun _ => rfl) (fun _ => rfl) fun _ => newClient_holds fd
  rwa [← hold.fresh c l hc hnew, Function.update_eq_self] at hupdate

omit [Fintype ι] [DecidableEq ι] in
theorem acceptLinks_whole (part : ℕ → Bytes) (x : RingState ι) (i : ι) (c : ℕ) (l : Link ι)
    (fd : Int) :
    (((x.links i).setConn c { l with accepted := true }).setFd fd (some (.down c))).whole part =
      (((x.whole part).links i).setConn c { l.whole (part c) with accepted := true }).setFd fd
        (some (.down c)) :=
  congrArg (Links.setFd · fd (some (.down c))) (whole_setConn (x.links i) c _)

theorem accept_whole (hold : Holding record part x.conns) {fd : Int}
    (hs : RingState.Step net x (.accept i c fd) x') :
    RingState.Step net (x.whole part) (.accept i c fd) (x'.whole part) ∧
      Holding (Function.update record c (newClient fd)) part x'.conns := by
  cases hs with
  | accept i c fd l s' w' hidle hc htarget hnew hfd hrun =>
    have hnext := hold.accept hc hnew fd
    obtain ⟨v', hrun', rfl, hold'⟩ := Prog.exec_simulates wholeLinks_call
      (⟨rfl, hnext⟩ : WholeLinks _ part (((x.links i).setConn c { l with accepted := true }).setFd fd
        (some (.down c))) _) hrun
    rw [acceptLinks_whole] at hrun'
    exact ⟨.accept (x.whole part) i c fd (l.whole (part c)) s' _ hidle (wholeConns_some hc) htarget
      hnew hfd hrun', hold'⟩

/-- At the end of a stream a record holds nothing. -/
theorem hangup_whole (hold : Holding record part x.conns) {cl : Client}
    (hs : RingState.Step net x (.hangup i cl) x') :
    RingState.Step net (x.whole part) (.hangup i cl) (x'.whole part) ∧
      Holding record part x'.conns := by
  cases hs with
  | hangup i cl c l s' w' hidle hcl hfd hc hup hclosed hrun =>
    have hup' : (l.whole (part c)).up = [] := by
      rw [whole_eq_self (hold.more c l hc hup)]
      exact hup
    obtain ⟨v', hrun', rfl, hold'⟩ := Prog.exec_simulates wholeLinks_call
      (⟨rfl, hold⟩ : WholeLinks record part (x.links i) _) hrun
    exact ⟨.hangup (x.whole part) i cl c (l.whole (part c)) s' _ hidle hcl hfd (wholeConns_some hc)
      hup' hclosed hrun', hold'⟩

omit [Fintype ι] [DecidableEq ι] in
/-- Some of the bytes go from the connection into the record. -/
theorem whole_take (l : Link ι) (b : Bytes) (m : ℕ) :
    ({ l with up := l.up.drop m } : Link ι).whole (b ++ l.up.take m) = l.whole b := by
  rw [Link.whole, Link.whole, List.append_assoc, List.take_append_drop]

omit [Fintype ι] [DecidableEq ι] in
theorem wholeConns_move {conns : ℕ → Option (Link ι)} (hc : conns c = some l) {l' : Link ι}
    {b : Bytes} (h : l'.whole b = l.whole (part c)) :
    wholeConns (Function.update part c b) (Function.update conns c (some l')) =
      wholeConns part conns := by
  funext d
  by_cases hdc : d = c
  · subst hdc
    rw [wholeConns, Function.update_self, Function.update_self, wholeConns_some hc, ← h]
    rfl
  · rw [wholeConns, Function.update_of_ne hdc, Function.update_of_ne hdc]
    rfl

omit [Fintype ι] [DecidableEq ι] in
theorem whole_emptied (w : Links ι) (hup : l.up = []) (b : Bytes) :
    (w.setConn c l).whole (Function.update part c []) =
      (w.whole part).setConn c { l.whole b with up := [] } := by
  refine congrArg (Links.mk w.fds) (funext fun d => ?_)
  by_cases hdc : d = c
  · subst hdc
    have hsame : l.whole [] = { l.whole b with up := [] } := by
      rw [Link.whole, Link.whole, List.nil_append, hup]
    simp only [wholeConns, Links.setConn, Function.update_self, Option.map_some, hsame]
  · simp only [wholeConns, Links.setConn, Links.whole, Function.update_of_ne hdc]

/-- Whatever `recv` returns to an idle peer, it takes the bytes of the packet that is on
its way. -/
theorem ByteRing.serves [Stack] (h : RingState.Reachable net (y.ring.whole part))
    (hold : Holding y.record part y.ring.conns)
    (hreq : ∀ c r, .invoke c r ∈ y.ring.history → r.Receivable) (hidle : y.ring.running i = none)
    {fd : Int} (hfd : y.ring.fds i fd = some (.down c)) (hc : y.ring.conns c = some l)
    (hup : l.up ≠ []) (k : ℕ) : l.accepted = true ∧
    ∃ n, bytesNeeded (y.record c) = .ok n ∧ n ≠ 0 ∧
      ((∃ c', serveClient (y.record c) (recvChunk l.up k) = .ok (.kept c') ∧
          l.up.drop (min (k + 1) n) ≠ [] ∧ Holds c' (part c ++ l.up.take (min (k + 1) n))) ∨
        ∃ c' p, serveClient (y.record c) (recvChunk l.up k) = .ok (.deliver c' (some p)) ∧
          l.up.drop (min (k + 1) n) = [] ∧ Holds c' [] ∧
          packetDecode (part c ++ l.up) (part c ++ l.up).length = .ok (some p)) := by
  have haccepted : l.accepted = true :=
    RingState.reachable_accepted (l := l.whole (part c)) h hidle hfd (wholeConns_some hc)
  obtain ⟨w, hbytes, hw⟩ := RingState.reachable_wirePacket h hreq (wholeConns_some hc)
    (List.append_ne_nil_of_right_ne_nil (part c) hup)
  have hserves := serveClient_packet hw (hold.holds c l hc haccepted) hbytes.symm hup k
  rw [hbytes] at hserves
  exact ⟨haccepted, hserves⟩

omit [Fintype ι] [DecidableEq ι] in
theorem Holding.receive (hold : Holding record part x.conns) (haccepted : l.accepted = true)
    {client : Client} {m : ℕ} (hmore : l.up.drop m ≠ []) (hholds : Holds client (part c ++ l.up.take m)) :
    Holding (Function.update record c client) (Function.update part c (part c ++ l.up.take m))
      (Function.update x.conns c (some { l with up := l.up.drop m })) := by
  refine hold.update c (fun ha => ?_) (fun he => absurd he hmore) fun _ => hholds
  rw [show l.accepted = true from haccepted] at ha
  cases ha

/-- The event happens, or nothing does. -/
def RingState.Steps (net : RingNet R) (x : RingState ι) : Option (RingEvent ι) → RingState ι → Prop
  | none, x' => x' = x
  | some e, x' => Step net x e x'

/-- Each step of a ring that reads in pieces is one of a ring that takes whole packets,
or brings it no further. -/
theorem ByteRing.step_refines [Stack] (h : RingState.Reachable net (y.ring.whole part))
    (hold : Holding y.record part y.ring.conns)
    (hreq : ∀ c r, .invoke c r ∈ y.ring.history → r.Receivable) {e : Option (RingEvent ι)}
    (hs : ByteRing.Step net y e y') : ∃ part', Holding y'.record part' y'.ring.conns ∧
      (y.ring.whole part).Steps net e (y'.ring.whole part') := by
  cases hs with
  | plain e x' he hs =>
    obtain ⟨hs', hold'⟩ := plain_whole hold he hs
    exact ⟨part, hold', hs'⟩
  | accept i c fd x' hs =>
    obtain ⟨hs', hold'⟩ := accept_whole hold hs
    exact ⟨part, hold', hs'⟩
  | hangup i cl c x' hfd hmark hserve hs =>
    obtain ⟨hs', hold'⟩ := hangup_whole hold hs
    exact ⟨part, hold', hs'⟩
  | receive i cl c l k n client hidle hcl hmark hfd hc hup hn hserve =>
    obtain ⟨haccepted, n', hn', -, ⟨c', hserve', hmore, hholds⟩ | ⟨c', p, hserve', -⟩⟩ :=
      ByteRing.serves h hold hreq hidle hfd hc hup k
    · obtain rfl : n' = n := Except.ok.inj (hn'.symm.trans hn)
      obtain rfl : c' = client := Served.kept.inj (Except.ok.inj (hserve'.symm.trans hserve))
      refine ⟨_, hold.receive haccepted hmore hholds, ?_⟩
      exact congrArg (fun conns => { y.ring with conns := conns })
        (wholeConns_move hc (whole_take l (part c) _))
    · rw [hserve] at hserve'
      cases hserve'
  | deliver i cl p c l k n client q s' w' hidle hcl hmark hfd hc hup hn hserve hrun =>
    obtain ⟨-, n', hn', -, ⟨c', hserve', -⟩ | ⟨c', p', hserve', hlast, hholds, hdecode⟩⟩ :=
      ByteRing.serves h hold hreq hidle hfd hc hup k
    · rw [hserve] at hserve'
      cases hserve'
    · obtain rfl : n' = n := Except.ok.inj (hn'.symm.trans hn)
      obtain ⟨rfl, hp⟩ := Served.deliver.inj (Except.ok.inj (hserve'.symm.trans hserve))
      obtain rfl := Option.some.inj hp
      have hnext : Holding (Function.update y.record c c') (Function.update part c [])
          (Function.update y.ring.conns c (some { l with up := l.up.drop (min (k + 1) n') })) :=
        hold.update c (fun _ => rfl) (fun _ => rfl) fun _ => hholds
      obtain ⟨v', hrun', rfl, hold'⟩ := Prog.until_simulates wholeLinks_call
        (⟨rfl, hnext⟩ : WholeLinks _ (Function.update part c [])
          ((y.ring.links i).setConn c { l with up := l.up.drop (min (k + 1) n') }) _) hrun
      rw [whole_emptied _ hlast (part c)] at hrun'
      exact ⟨_, hold', .deliver (y.ring.whole part) i cl p' c (l.whole (part c)) q s' _
        hidle hcl hfd (wholeConns_some hc) hdecode hrun'⟩

end

/-! ### The runs -/

section
variable {ι : Type} [Fintype ι] [DecidableEq ι] {R : LinkedRing ι} {net : RingNet R} {i : ι}
  {y y' : ByteRing ι}

theorem ByteRing.step_asked [Stack] {e : Option (RingEvent ι)} (hs : ByteRing.Step net y e y')
    {c : ℕ} {r : ClientRequest}
    (h : .invoke c r ∈ y.ring.history) : .invoke c r ∈ y'.ring.history := by
  cases hs with
  | plain e x' he hs => exact (RingState.step_asked hs).mpr (Or.inl h)
  | accept i c fd x' hs => exact (RingState.step_asked hs).mpr (Or.inl h)
  | hangup i cl c x' hfd hmark hserve hs => exact (RingState.step_asked hs).mpr (Or.inl h)
  | receive => exact h
  | deliver => exact h

theorem ByteRing.reachable_whole [Stack] (h : ByteRing.Reachable net y)
    (hreq : ∀ c r, .invoke c r ∈ y.ring.history → r.Receivable) :
    ∃ part, RingState.Reachable net (y.ring.whole part) ∧
      Holding y.record part y.ring.conns := by
  induction h with
  | start record =>
    refine ⟨fun _ => [], .start, fun _ _ => rfl, fun _ _ _ _ => rfl, fun _ _ _ _ => rfl, ?_⟩
    intro c l hl
    cases hl
  | step e hy hs ih =>
    have hasked := fun c r hr => hreq c r (ByteRing.step_asked hs hr)
    obtain ⟨part, hreach, hold⟩ := ih hasked
    obtain ⟨part', hold', hstep⟩ := ByteRing.step_refines hreach hold hasked hs
    cases e with
    | none => exact ⟨part', (hstep : _ = _) ▸ hreach, hold'⟩
    | some e => exact ⟨part', .step e hreach hstep, hold'⟩

theorem Holds.header {c : Client} (h : Holds c []) : HoldsHeader c [] := by
  obtain hh | ⟨p, b, hb⟩ := h
  · exact hh
  · exact absurd hb.long (by decide)

theorem serveClient_closed [Stack] {c : Client} (h : Holds c []) :
    serveClient c (fun _ => .closed) = .ok .closed := by
  have hneed := bytesNeeded_header h.header
  rw [bytesNeeded, if_pos h.header.state] at hneed
  rw [serveClient, if_pos h.header.state, serveIdle, hneed]
  rfl

/-- With requests that can be received, reading in pieces is reading whole packets: peers,
stores, sockets and the clients' history are those of a run that does, and what a record
holds and what its connection still has are what the connection has there. No client
record fails in between, and none is left with bytes when its stream ends. -/
theorem byteRing_refines [Stack] (h : ByteRing.Reachable net y)
    (hreq : ∀ c r, .invoke c r ∈ y.ring.history → r.Receivable) :
    (∃ part, RingState.Reachable net (y.ring.whole part) ∧
      Holding y.record part y.ring.conns) ∧
    ∀ i fd c l, y.ring.running i = none → y.ring.fds i fd = some (.down c) →
      y.ring.conns c = some l →
      (l.up = [] → serveClient (y.record c) (fun _ => .closed) = .ok .closed) ∧
      (l.up ≠ [] → ∀ k, (∃ c', serveClient (y.record c) (recvChunk l.up k) = .ok (.kept c')) ∨
        ∃ c' p, serveClient (y.record c) (recvChunk l.up k) = .ok (.deliver c' (some p))) := by
  obtain ⟨part, hreach, hold⟩ := ByteRing.reachable_whole h hreq
  refine ⟨⟨part, hreach, hold⟩, fun i fd c l hidle hfd hl => ?_⟩
  have haccepted : l.accepted = true :=
    RingState.reachable_accepted (l := l.whole (part c)) hreach hidle hfd (wholeConns_some hl)
  have hholds := hold.holds c l hl haccepted
  refine ⟨fun hup => ?_, fun hup k => ?_⟩
  · rw [hold.more c l hl hup] at hholds
    exact serveClient_closed hholds
  · obtain ⟨-, n, -, -, ⟨c', hserve, -⟩ | ⟨c', p, hserve, -⟩⟩ :=
      ByteRing.serves hreach hold hreq hidle hfd hl hup k
    · exact Or.inl ⟨c', hserve⟩
    · exact Or.inr ⟨c', p, hserve⟩

end

/-- The client of peer 10 that asks for hash 15, accepted and with nothing read. -/
def justAccepted : ByteRing Bool where
  ring := ((RingState.start pairLinked).asking 0 (getOf 15) false).accepting false 0
    (askedLink 15 false) 4
  record := Function.update (fun _ => newClient 0) 0 (newClient 4)

def afterFour : Client :=
  match serveClient (newClient 4) (recvChunk (getOf 15).packet.wire 3) with
  | .ok (.kept c) => c
  | _ => newClient 4

/-- Four bytes of its header are read. -/
def headerBegun : ByteRing Bool where
  ring := { justAccepted.ring with
    conns := Function.update justAccepted.ring.conns 0
      (some { askedLink 15 false with accepted := true, up := (getOf 15).packet.wire.drop 4 }) }
  record := Function.update justAccepted.record 0 afterFour

theorem justAccepted_reachable : ByteRing.Reachable pairNet justAccepted := by
  refine .step _ (.step _ (.start fun _ => newClient 0)
    (.plain _ (.invoke 0 (getOf 15) false) _ trivial (.invoke _ 0 (getOf 15) false rfl)))
    (.accept _ false 0 4 _ (RingState.step_accepting (c := 0) _ rfl rfl rfl rfl ?_))
  decide

theorem afterFour_served :
    serveClient (newClient 4) (recvChunk (getOf 15).packet.wire 3) = .ok (.kept afterFour) := by
  decide

theorem headerBegun_reachable : ByteRing.Reachable pairNet headerBegun := by
  refine .step _ justAccepted_reachable (.receive _ false (newClient 4) 0
    { askedLink 15 false with accepted := true } 3 7 afterFour rfl ?_ ?_ rfl rfl ?_ ?_
    afterFour_served)
  · exact List.mem_singleton_self _
  · decide
  · decide
  · exact bytesNeeded_header (newClient_holds 4).header

theorem byteRing_refines_headerBegun :
    (∃ part, RingState.Reachable pairNet (headerBegun.ring.whole part) ∧
      Holding headerBegun.record part headerBegun.ring.conns) ∧
    ∀ i fd c l, headerBegun.ring.running i = none →
      headerBegun.ring.fds i fd = some (.down c) → headerBegun.ring.conns c = some l →
      (l.up = [] → serveClient (headerBegun.record c) (fun _ => .closed) = .ok .closed) ∧
      (l.up ≠ [] → ∀ k,
        (∃ c', serveClient (headerBegun.record c) (recvChunk l.up k) = .ok (.kept c')) ∨
        ∃ c' p, serveClient (headerBegun.record c) (recvChunk l.up k) =
          .ok (.deliver c' (some p))) := by
  refine byteRing_refines headerBegun_reachable fun c r hr => ?_
  obtain ⟨rfl, rfl⟩ : c = 0 ∧ r = getOf 15 := by
    simpa [headerBegun, justAccepted, RingState.accepting, RingState.asking, RingState.after,
      RingState.start] using hr
  exact ⟨by decide, by decide, by decide⟩

end RN2223.Praxis2

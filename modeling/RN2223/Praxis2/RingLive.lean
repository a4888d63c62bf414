import RN2223.Praxis2.RingWaits

/-!
# What a ring never forgets

A connection that a peer has accepted and not closed belongs to a client in its
list, and there is a reason for the peer to keep it; whoever waits for an answer
has a request on its way or its answer, and a LOOKUP or REPLY goes on being under
way for every open request. No step loses any of these.
-/

namespace RN2223.Praxis2
open CMemory

variable {ι : Type} {i j : ι} {w w' : Links ι} {conns conns' conns'' : ℕ → Option (Link ι)}
  {clients : List Client} {queue queue' : UInt16 → List Request} {hand hand' : Option Int}
  {skip : Option UInt16} {csocket : Int}

/-! ### Clients and connections -/

theorem markSocket_mem_of_ne {cl : Client} {cs : List Client} (hcl : cl ∈ cs)
    (hne : cl.socket ≠ csocket) : cl ∈ markSocket cs csocket := by
  induction cs with
  | nil => cases hcl
  | cons x xs ih =>
    rw [markSocket]
    obtain rfl | hcl := List.mem_cons.mp hcl
    · rw [if_neg hne]
      exact List.mem_cons_self
    · split
      · exact List.mem_cons_of_mem _ hcl
      · exact List.mem_cons_of_mem _ (ih hcl)

theorem markSocket_mem_self {cl : Client} {cs : List Client} (hcl : cl ∈ cs)
    (hs : cl.socket = csocket) :
    ∃ cl' ∈ markSocket cs csocket, cl'.socket = csocket ∧ cl'.state = .remove := by
  induction cs with
  | nil => cases hcl
  | cons x xs ih =>
    rw [markSocket]
    split
    · next hx => exact ⟨_, List.mem_cons_self, hx, rfl⟩
    · next hx =>
      obtain rfl | hcl := List.mem_cons.mp hcl
      · exact absurd hs hx
      · obtain ⟨cl', hcl', hmark⟩ := ih hcl
        exact ⟨cl', List.mem_cons_of_mem _ hcl', hmark⟩

/-- Why a peer keeps a client: there is something to read, the peer works for it at
this moment, its request is open, or it is marked. -/
inductive Kept (queue : UInt16 → List Request) (hand : Option Int) (l : Link ι) (cl : Client) :
    Prop where
  | unread (h : l.up ≠ [])
  | inHand (h : hand = some cl.socket)
  | queued (hashId : UInt16) (req : Request) (hreq : req ∈ queue hashId)
    (h : req.socket = cl.socket)
  | marked (h : cl.state = .remove)

def Links.Tended (w : Links ι) (clients : List Client) (queue : UInt16 → List Request)
    (hand : Option Int) (c : ℕ) (l : Link ι) : Prop :=
  ∃ cl ∈ clients, w.fds cl.socket = some (.down c) ∧ Kept queue hand l cl

/-- Open connections with something to read and those of clients. -/
structure Link.Pending (i : ι) (l : Link ι) : Prop where
  target : l.target = i
  accepted : l.accepted = true
  downClosed : l.downClosed = false
  wanted : l.up ≠ [] ∨ l.source = none

def Tends (i : ι) (w : Links ι) (clients : List Client) (queue : UInt16 → List Request)
    (hand : Option Int) : Prop :=
  ∀ c l, w.conns c = some l → l.Pending i → w.Tended clients queue hand c l

/-- What the peer at the other end of the connections of others leaves alone. -/
structure Link.Same (l l' : Link ι) : Prop where
  source : l'.source = l.source
  target : l'.target = l.target
  up : l'.up = l.up
  accepted : l'.accepted = l.accepted
  downClosed : l'.downClosed = l.downClosed

theorem Link.Same.pending {l l' : Link ι} (h : l.Same l') (hp : l'.Pending i) : l.Pending i :=
  ⟨h.target.symm.trans hp.target, h.accepted.symm.trans hp.accepted,
    h.downClosed.symm.trans hp.downClosed, by rw [← h.up, ← h.source]; exact hp.wanted⟩

theorem Link.Same.refl (l : Link ι) : l.Same l := ⟨rfl, rfl, rfl, rfl, rfl⟩

theorem Links.Tended.mono {c : ℕ} {l l' : Link ι} (h : w.Tended clients queue hand c l)
    (hup : l'.up = l.up)
    (hfds : ∀ fd, w.fds fd = some (.down c) → w'.fds fd = some (.down c)) :
    w'.Tended clients queue hand c l' := by
  obtain ⟨cl, hcl, hfd, hkept⟩ := h
  refine ⟨cl, hcl, hfds _ hfd, ?_⟩
  cases hkept with
  | unread h => exact .unread (hup ▸ h)
  | inHand h => exact .inHand h
  | queued hashId req hreq h => exact .queued hashId req hreq h
  | marked h => exact .marked h

theorem Links.Tended.why {c : ℕ} {l : Link ι} (h : w.Tended clients queue hand c l)
    (hkept : ∀ cl ∈ clients, w.fds cl.socket = some (.down c) → Kept queue hand l cl →
      Kept queue' hand' l cl) : w.Tended clients queue' hand' c l := by
  obtain ⟨cl, hcl, hfd, hold⟩ := h
  exact ⟨cl, hcl, hfd, hkept cl hcl hfd hold⟩

namespace Tends

/-- Connections that were not there before are not accepted yet. -/
theorem mono (h : Tends i w clients queue hand)
    (hback : ∀ c l', w'.conns c = some l' → l'.Pending i → ∃ l, w.conns c = some l ∧ l.Same l')
    (hfds : ∀ fd c, w.fds fd = some (.down c) → w'.fds fd = some (.down c)) :
    Tends i w' clients queue hand := by
  intro c l' hl' hp
  obtain ⟨l, hl, hsame⟩ := hback c l' hl' hp
  exact (h c l hl (hsame.pending hp)).mono hsame.up fun fd => hfds fd c

theorem new (h : Tends i w clients queue hand) {c : ℕ} {l : Link ι} (hnew : l.accepted = false) :
    Tends i (w.setConn c l) clients queue hand := by
  refine h.mono (fun d l' hl' hp => ?_) fun x d hx => hx
  by_cases hd : d = c
  · rw [hd, Links.setConn_conns, Function.update_self, Option.some.injEq] at hl'
    cases hnew.symm.trans ((congrArg Link.accepted hl').trans hp.accepted)
  · rw [Links.setConn_conns, Function.update_of_ne hd] at hl'
    exact ⟨l', hl', .refl l'⟩

/-- Numbers change that belong to no accepted connection. -/
theorem setFd (h : Tends i w clients queue hand) {fd : Int} {e : Option LinkEnd}
    (hfd : ∀ c, w.fds fd ≠ some (.down c)) : Tends i (w.setFd fd e) clients queue hand := by
  refine h.mono (fun c l hl _ => ⟨l, hl, .refl l⟩) fun x c hx => ?_
  have hne : x ≠ fd := fun he => hfd c (he ▸ hx)
  rw [Links.setFd_fds, Function.update_of_ne hne, hx]

theorem relink (h : Tends i w clients queue hand) {c : ℕ} {l l1 : Link ι}
    (hl : w.conns c = some l) (hsame : l.Same l1) : Tends i (w.setConn c l1) clients queue hand := by
  refine h.mono (fun d l' hl' _ => ?_) fun x d hx => hx
  by_cases hd : d = c
  · rw [hd, Links.setConn_conns, Function.update_self, Option.some.injEq] at hl'
    exact ⟨l, hd ▸ hl, hl' ▸ hsame⟩
  · rw [Links.setConn_conns, Function.update_of_ne hd] at hl'
    exact ⟨l', hl', .refl l'⟩

/-- The peer takes what its client `cl` sent. -/
theorem read (h : Tends i w clients queue none) {cl : Client} (hcl : cl ∈ clients) {c : ℕ}
    (hfd : w.fds cl.socket = some (.down c)) (l : Link ι) :
    Tends i (w.setConn c l) clients queue (some cl.socket) := by
  intro d l' hl' hp
  by_cases hd : d = c
  · exact ⟨cl, hcl, hd ▸ hfd, .inHand rfl⟩
  · rw [Links.setConn_conns, Function.update_of_ne hd] at hl'
    refine (h d l' hl' hp).why fun cl' _ _ hkept => ?_
    cases hkept with
    | unread h => exact .unread h
    | inHand h => cases h
    | queued hashId req hreq h => exact .queued hashId req hreq h
    | marked h => exact .marked h

theorem drop (h : Tends i w clients queue hand) {c : ℕ} {l : Link ι} (hl : ¬ l.Pending i) :
    Tends i (w.setConn c l) clients queue hand := by
  intro d l' hl' hp
  by_cases hd : d = c
  · rw [hd, Links.setConn_conns, Function.update_self, Option.some.injEq] at hl'
    exact absurd (hl' ▸ hp) hl
  · rw [Links.setConn_conns, Function.update_of_ne hd] at hl'
    exact h d l' hl' hp

theorem hands (h : Tends i w clients queue hand)
    (hhand : ∀ cl ∈ clients, hand = some cl.socket → hand' = some cl.socket) :
    Tends i w clients queue hand' := by
  intro c l hl hp
  refine (h c l hl hp).why fun cl hcl _ hkept => ?_
  cases hkept with
  | unread h => exact .unread h
  | inHand h => exact .inHand (hhand cl hcl h)
  | queued hashId req hreq h => exact .queued hashId req hreq h
  | marked h => exact .marked h

/-- A client is removed and its connection closed, be it the one in hand. -/
theorem remove (h : Tends i w clients queue hand) {c : ℕ} {l : Link ι}
    (hfd : w.fds csocket = some (.down c)) (hclosed : l.downClosed = true)
    (hhand : ∀ fd, hand = some fd → fd ≠ csocket → hand' = some fd) :
    Tends i ((w.setConn c l).setFd csocket none) (clients.eraseP fun cl => cl.socket == csocket)
      queue hand' := by
  intro d l' hl' hp
  rw [Links.setFd_conns, Links.setConn_conns] at hl'
  by_cases hd : d = c
  · rw [hd, Function.update_self, Option.some.injEq] at hl'
    cases hclosed.symm.trans ((congrArg Link.downClosed hl').trans hp.downClosed)
  · rw [Function.update_of_ne hd] at hl'
    obtain ⟨cl, hcl, hcld, hkept⟩ := h d l' hl' hp
    have hne : cl.socket ≠ csocket := fun he => by
      rw [he, hfd, Option.some.injEq, LinkEnd.down.injEq] at hcld
      exact hd hcld.symm
    refine ⟨cl, (List.mem_eraseP_of_neg (by simpa using hne)).mpr hcl, ?_, ?_⟩
    · rw [Links.setFd_fds, Links.setConn_fds, Function.update_of_ne hne, hcld]
    · cases hkept with
      | unread h => exact .unread h
      | inHand h => exact .inHand (hhand _ h hne)
      | queued hashId req hreq h => exact .queued hashId req hreq h
      | marked h => exact .marked h

theorem accept (h : Tends i w clients queue hand) {fd : Int} (hfree : w.fds fd = none) {c : ℕ}
    {l : Link ι} (hup : l.up ≠ []) :
    Tends i ((w.setConn c l).setFd fd (some (.down c))) (newClient fd :: clients) queue hand := by
  intro d l' hl' hp
  rw [Links.setFd_conns, Links.setConn_conns] at hl'
  by_cases hd : d = c
  · rw [hd, Function.update_self, Option.some.injEq] at hl'
    refine ⟨newClient fd, List.mem_cons_self, ?_, .unread (hl' ▸ hup)⟩
    rw [hd]
    exact Function.update_self ..
  · rw [Function.update_of_ne hd] at hl'
    obtain ⟨cl, hcl, hcld, hkept⟩ := h d l' hl' hp
    have hne : cl.socket ≠ fd := fun he => by
      rw [he, hfree] at hcld
      cases hcld
    refine ⟨cl, List.mem_cons_of_mem _ hcl, ?_, hkept⟩
    rw [Links.setFd_fds, Links.setConn_fds, Function.update_of_ne hne, hcld]

/-- The client whose answer has been passed on is marked. -/
theorem mark (h : Tends i w clients queue (some csocket)) :
    Tends i w (markSocket clients csocket) queue none := by
  intro c l hl hp
  obtain ⟨cl, hcl, hfd, hkept⟩ := h c l hl hp
  by_cases hs : cl.socket = csocket
  · obtain ⟨cl', hcl', hsocket, hstate⟩ := markSocket_mem_self hcl hs
    exact ⟨cl', hcl', by rw [hsocket, ← hs, hfd], .marked hstate⟩
  · refine ⟨cl, markSocket_mem_of_ne hcl hs, hfd, ?_⟩
    cases hkept with
    | unread h => exact .unread h
    | inHand h => exact absurd (Option.some.inj h).symm hs
    | queued hashId req hreq h => exact .queued hashId req hreq h
    | marked h => exact .marked h

/-- The peer takes the first of the open requests in hand. -/
theorem dequeue (h : Tends i w clients queue none) {hashId : UInt16} {req : Request}
    {rest : List Request} (hq : queue hashId = req :: rest) :
    Tends i w clients (Function.update queue hashId rest) (some req.socket) := by
  intro c l hl hp
  refine (h c l hl hp).why fun cl _ _ hkept => ?_
  cases hkept with
  | unread h => exact .unread h
  | inHand h => cases h
  | marked h => exact .marked h
  | queued hashId' req' hreq' hs =>
    by_cases hh : hashId' = hashId
    · rw [hh, hq] at hreq'
      obtain rfl | hreq' := List.mem_cons.mp hreq'
      · exact .inHand (congrArg some hs)
      · exact .queued hashId req' (by rwa [Function.update_self]) hs
    · exact .queued hashId' req' (by rwa [Function.update_of_ne hh]) hs

/-- The request in hand is added to the open ones. -/
theorem enqueue (h : Tends i w clients queue (some csocket)) (hashId : UInt16) (req : Request)
    (hsocket : req.socket = csocket) (hnew : req ∈ queue' hashId)
    (hold : ∀ hashId, ∀ req ∈ queue hashId, req ∈ queue' hashId) :
    Tends i w clients queue' none := by
  intro c l hl hp
  refine (h c l hl hp).why fun cl _ _ hkept => ?_
  cases hkept with
  | unread h => exact .unread h
  | inHand h => exact .queued hashId req hnew (hsocket.trans (Option.some.inj h))
  | queued hashId req hreq h => exact .queued hashId req (hold hashId req hreq) h
  | marked h => exact .marked h

end Tends

/-! ### What the others find -/

/-- The request on connection `c` waits to be read by peer `m`, or is answered. -/
def Answering (conns : ℕ → Option (Link ι)) (c : ℕ) (m : ι) : Prop :=
  ∃ l, conns c = some l ∧ l.target = m ∧ (l.up ≠ [] ∨ l.downClosed = true)

/-- Of the connections to other peers, a move of peer `i` changes nothing they look
at; of all but `e` it reads nothing. -/
structure Passes (i : ι) (e : Option ℕ) (conns conns' : ℕ → Option (Link ι)) : Prop where
  back : ∀ c l', conns' c = some l' → l'.target ≠ i → l'.accepted = true →
    ∃ l, conns c = some l ∧ l.Same l'
  forth : ∀ c l, conns c = some l → e ≠ some c → ∃ l', conns' c = some l' ∧ l'.up = l.up ∧
    l'.target = l.target ∧ (l.downClosed = true → l'.downClosed = true)

namespace Passes
variable {e : Option ℕ} {c : ℕ} {l l1 : Link ι}

theorem refl (conns : ℕ → Option (Link ι)) : Passes i e conns conns where
  back _ l hl _ _ := ⟨l, hl, .refl l⟩
  forth _ l hl _ := ⟨l, hl, rfl, rfl, id⟩

theorem trans (h : Passes i e conns conns') (h' : Passes i none conns' conns'') :
    Passes i e conns conns'' where
  back c l'' hl'' ht ha := by
    obtain ⟨l', hl', hs'⟩ := h'.back c l'' hl'' ht ha
    obtain ⟨l, hl, hs⟩ := h.back c l' hl' (fun he => ht (hs'.target.trans he))
      (hs'.accepted.symm.trans ha)
    exact ⟨l, hl, hs'.source.trans hs.source, hs'.target.trans hs.target, hs'.up.trans hs.up,
      hs'.accepted.trans hs.accepted, hs'.downClosed.trans hs.downClosed⟩
  forth c l hl hc := by
    obtain ⟨l', hl', hup, ht, hd⟩ := h.forth c l hl hc
    obtain ⟨l'', hl'', hup', ht', hd'⟩ := h'.forth c l' hl' fun he => by cases he
    exact ⟨l'', hl'', hup'.trans hup, ht'.trans ht, fun h => hd' (hd h)⟩

theorem new (hc : conns c = none) (hnew : l.accepted = false) :
    Passes i e conns (Function.update conns c (some l)) where
  back d l' hl' _ ha := by
    by_cases hd : d = c
    · rw [hd, Function.update_self, Option.some.injEq] at hl'
      cases hnew.symm.trans ((congrArg Link.accepted hl').trans ha)
    · rw [Function.update_of_ne hd] at hl'
      exact ⟨l', hl', .refl l'⟩
  forth d l' hl' _ := by
    have hd : d ≠ c := fun he => by
      rw [he, hc] at hl'
      cases hl'
    exact ⟨l', by rw [Function.update_of_ne hd, hl'], rfl, rfl, id⟩

/-- A connection that is not read: the peer's own one may be closed or accepted. -/
theorem relink (hl : conns c = some l) (hup : l1.up = l.up) (ht : l1.target = l.target)
    (hd : l.downClosed = true → l1.downClosed = true) (hown : l.target = i ∨ l.Same l1) :
    Passes i e conns (Function.update conns c (some l1)) where
  back d l' hl' hne _ := by
    by_cases hdc : d = c
    · rw [hdc, Function.update_self, Option.some.injEq] at hl'
      rw [← hl'] at hne
      rw [hdc, ← hl']
      exact ⟨l, hl, hown.resolve_left fun he => hne (ht.trans he)⟩
    · rw [Function.update_of_ne hdc] at hl'
      exact ⟨l', hl', .refl l'⟩
  forth d l' hl' _ := by
    by_cases hdc : d = c
    · rw [hdc, hl, Option.some.injEq] at hl'
      rw [hdc, ← hl']
      exact ⟨l1, Function.update_self .., hup, ht, hd⟩
    · exact ⟨l', by rw [Function.update_of_ne hdc, hl'], rfl, rfl, id⟩

theorem read (ht : l.target = i) : Passes i (some c) conns (Function.update conns c (some l)) where
  back d l' hl' hne _ := by
    by_cases hdc : d = c
    · rw [hdc, Function.update_self, Option.some.injEq] at hl'
      exact absurd (hl' ▸ ht) hne
    · rw [Function.update_of_ne hdc] at hl'
      exact ⟨l', hl', .refl l'⟩
  forth d l' hl' hdc := by
    have hne : d ≠ c := fun he => hdc (congrArg some he.symm)
    exact ⟨l', by rw [Function.update_of_ne hne, hl'], rfl, rfl, id⟩

theorem answering (h : Passes i e conns conns') {m : ι} (ha : Answering conns c m)
    (he : ∀ l, e = some c → conns c = some l → l.target = m → Answering conns' c m) :
    Answering conns' c m := by
  obtain ⟨l, hl, ht, hkept⟩ := ha
  by_cases hc : e = some c
  · exact he l hc hl ht
  · obtain ⟨l', hl', hup, ht', hd⟩ := h.forth c l hl hc
    refine ⟨l', hl', ht'.trans ht, ?_⟩
    rw [hup]
    exact hkept.imp_right hd

theorem tends {fds : Int → Option LinkEnd} (h : Passes j e conns conns') (hne : i ≠ j)
    (ht : Tends i ⟨fds, conns⟩ clients queue hand) : Tends i ⟨fds, conns'⟩ clients queue hand := by
  refine ht.mono (fun c l' hl' hp => ?_) fun fd c hfd => hfd
  exact h.back c l' hl' (fun he => hne (hp.target.symm.trans he)) hp.accepted

end Passes

section
variable [Fintype ι] {R : LinkedRing ι} (net : RingNet R)

/-- A LOOKUP of peer `o`, or a REPLY to it, that has not been read. -/
def Link.Carries (l : Link ι) (o : ι) (hashId : UInt16) : Prop :=
  l.up = (net.lookup o hashId).wire ∨ l.target = o ∧ ∃ m, l.up = (net.reply m hashId).wire

def Underway (conns : ℕ → Option (Link ι)) (o : ι) (hashId : UInt16) : Prop :=
  ∃ c l, conns c = some l ∧ l.Carries net o hashId

/-- For every hash with open requests, but for that of the REPLY the peer is at. -/
def Sought (conns : ℕ → Option (Link ι)) (i : ι) (queue : UInt16 → List Request)
    (skip : Option UInt16) : Prop :=
  ∀ hashId, queue hashId ≠ [] → skip ≠ some hashId → Underway net conns i hashId

variable {net}

theorem Passes.underway {e : Option ℕ} (h : Passes i e conns conns') {o : ι} {hashId : UInt16}
    (hu : Underway net conns o hashId)
    (he : ∀ c l, e = some c → conns c = some l → l.Carries net o hashId →
      Underway net conns' o hashId) : Underway net conns' o hashId := by
  obtain ⟨c, l, hl, hcarries⟩ := hu
  by_cases hc : e = some c
  · exact he c l hc hl hcarries
  · obtain ⟨l', hl', hup, ht, -⟩ := h.forth c l hl hc
    refine ⟨c, l', hl', ?_⟩
    rw [Link.Carries, hup, ht]
    exact hcarries

/-- What is read from a connection tells what it carried. -/
theorem Link.Carries.packet {l : Link ι} {o : ι} {hashId : UInt16} {p : Packet}
    (h : l.Carries net o hashId) (hp : packetDecode l.up l.up.length = .ok (some p)) :
    p = net.lookup o hashId ∨ l.target = o ∧ ∃ m, p = net.reply m hashId := by
  obtain hup | ⟨ht, m, hup⟩ := h
  · rw [hup, net.decode_lookup, Except.ok.injEq, Option.some.injEq] at hp
    exact Or.inl hp.symm
  · rw [hup, net.decode_reply, Except.ok.injEq, Option.some.injEq] at hp
    exact Or.inr ⟨ht, m, hp.symm⟩

theorem Link.Carries.ctrl {l : Link ι} {o : ι} {hashId : UInt16} {p : Packet}
    (h : l.Carries net o hashId) (hp : packetDecode l.up l.up.length = .ok (some p)) :
    flagSet p.flags pktFlagCtrl = true := by
  obtain rfl | ⟨-, m, rfl⟩ := h.packet hp
  · exact net.lookup_ctrl o hashId
  · exact net.reply_ctrl m hashId

end

end RN2223.Praxis2

import RN2223.Praxis2.RingLive

/-!
# What the steps of a peer leave behind

Whatever a peer does with a packet, an answer, its marked clients or a new
connection, it comes to a point at which none of its clients is forgotten, and
the others find what they look for.
-/

namespace RN2223.Praxis2
open CMemory

variable {ι : Type} [Fintype ι] {R : LinkedRing ι} {net : RingNet R} {i j : ι} {w w' : Links ι}
  {conns conns' : ℕ → Option (Link ι)} {queue : UInt16 → List Request} {hand : Option Int}
  {skip : Option UInt16} {csocket : Int}
  {s s' : PeerState} {W : Paths ι} {q : PeerM Unit} {n : Peer}

/-! ### What a peer is at -/

def Links.Holds (w : Links ι) (req : Request) : Prop :=
  ∃ k, w.fds req.socket = some (.down k) ∧ ∃ r : ClientRequest, req.packet = r.packet

/-- The program of a peer between two steps, with its live queues, the number of the
client it works for and the hash of the REPLY it is at. -/
inductive Doing (net : RingNet R) (s : PeerState) (w : Links ι) :
    PeerM Unit → (UInt16 → List Request) → Option Int → Option UInt16 → Prop where
  | idle : Doing net s w (.ret ()) (getRequests s.rt) none none
  | proxying {csocket : Int} {n : Peer} {c k : ℕ} {m : ι} (hup : w.fds n.socket = some (.up c))
    (hdown : w.fds csocket = some (.down k)) (hck : c ≠ k) (hlink : Answering w.conns c m) :
    Doing net s w (relay csocket n >>= afterProxy csocket) (getRequests s.rt) (some csocket) none
  | replying {csocket : Int} {hashId : UInt16} {req : Request} {rest : List Request} {n : Peer}
    {c k e : ℕ} {m : ι} (hup : w.fds n.socket = some (.up c))
    (hdown : w.fds req.socket = some (.down k)) (hck : c ≠ k) (hlink : Answering w.conns c m)
    (hres : net.resolve n.hostname n.port = [net.address m])
    (hctl : w.fds csocket = some (.down e)) (hrest : ∀ req ∈ rest, w.Holds req) :
    Doing net s w (relay req.socket n >>= afterReply csocket hashId req rest)
      (Function.update (getRequests s.rt) hashId rest) (some req.socket) (some hashId)

structure Live (net : RingNet R) (i : ι) (queue : UInt16 → List Request) (hand : Option Int)
    (skip : Option UInt16) (s : PeerState) (w : Links ι) : Prop where
  tends : Tends i w s.srv.clients queue hand
  sought : Sought net w.conns i queue skip

/-- The peer comes to a point at which nothing is forgotten. -/
structure Settles (net : RingNet R) (i : ι) (e : Option ℕ) (conns : ℕ → Option (Link ι))
    (q : PeerM Unit) (s' : PeerState) (w' : Links ι) : Prop where
  passes : Passes i e conns w'.conns
  live : ∃ queue hand skip, Doing net s' w' q queue hand skip ∧ Live net i queue hand skip s' w'

theorem Settles.after {e : Option ℕ} (h : Passes i e conns conns')
    (h' : Settles net i none conns' q s' w') : Settles net i e conns q s' w' :=
  ⟨h.trans h'.passes, h'.live⟩

theorem Passes.sought {e : Option ℕ} (h : Passes j e conns conns')
    (hs : Sought net conns i queue skip)
    (he : ∀ hashId c l, e = some c → conns c = some l → l.Carries net i hashId →
      skip ≠ some hashId → Underway net conns' i hashId) : Sought net conns' i queue skip :=
  fun hashId hq hskip => h.underway (hs hashId hq hskip)
    fun c l hc hl hcarries => he hashId c l hc hl hcarries hskip

theorem Passes.sought_same (h : Passes j none conns conns')
    (hs : Sought net conns i queue skip) : Sought net conns' i queue skip :=
  h.sought hs fun _ _ _ hc => by cases hc

/-! ### Clients that go -/

theorem serverRemoveClient_cases {c : ℕ} {l : Link ι} (hfd : w.fds csocket = some (.down c))
    (hc : w.conns c = some l) {a : Unit}
    (he : (serverRemoveClient csocket).Exec (linkCall net i) s w a s' w') :
    (s' = { s with srv := unlinkClient s.srv csocket } ∧
      w' = (w.setConn c { l with downClosed := true }).setFd csocket none) ∨
    ((∀ cl ∈ s.srv.clients, cl.socket ≠ csocket) ∧ s' = s ∧ w' = w) := by
  rw [serverRemoveClient, readState, Prog.read_bind, Prog.exec_get] at he
  split at he
  · left
    rw [Prog.exec_bind] at he
    obtain ⟨_, _, _, hm, hcl⟩ := he
    obtain ⟨rfl, rfl⟩ := Prog.exec_modify.mp hm
    obtain ⟨_, w1, rfl, -, rfl, rfl⟩ := hcl
    exact ⟨rfl, Links.close_down _ hfd hc⟩
  · next hnone =>
    right
    refine ⟨fun cl hcl hs => hnone ?_, he.2⟩
    exact List.any_eq_true.mpr ⟨cl, hcl, beq_iff_eq.mpr hs⟩

/-- What is left when client `csocket` on connection `c` is removed. -/
structure Removed (i : ι) (csocket : Int) (c : ℕ) (s s' : PeerState) (w w' : Links ι) : Prop where
  passes : Passes i none w.conns w'.conns
  rt : s'.rt = s.rt
  fds : ∀ fd, fd ≠ csocket → w'.fds fd = w.fds fd
  closed : (∃ cl ∈ s.srv.clients, cl.socket = csocket) →
    ∃ l, w'.conns c = some l ∧ l.target = i ∧ l.downClosed = true
  tends : ∀ queue hand hand', Tends i w s.srv.clients queue hand →
    (∀ fd, hand = some fd → fd ≠ csocket → hand' = some fd) →
    Tends i w' s'.srv.clients queue hand'

theorem remove_removed {c : ℕ} {l : Link ι} (hfd : w.fds csocket = some (.down c))
    (hc : w.conns c = some l) (ht : l.target = i) {a : Unit}
    (he : (serverRemoveClient csocket).Exec (linkCall net i) s w a s' w') :
    Removed i csocket c s s' w w' := by
  obtain ⟨rfl, rfl⟩ | ⟨hnone, rfl, rfl⟩ := serverRemoveClient_cases hfd hc he
  · exact {
      passes := .relink hc rfl rfl (fun _ => rfl) (Or.inl ht)
      rt := rfl
      fds := fun fd hne => Function.update_of_ne hne ..
      closed := fun _ => ⟨_, Function.update_self .., ht, rfl⟩
      tends := fun queue hand hand' htends hhand => htends.remove hfd rfl hhand }
  · exact {
      passes := .refl _
      rt := rfl
      fds := fun _ _ => rfl
      closed := fun ⟨cl, hcl, hs⟩ => absurd hs (hnone cl hcl)
      tends := fun queue hand hand' htends hhand =>
        htends.hands fun cl hcl hin => hhand _ hin (hnone cl hcl) }

theorem finish_settles {c : ℕ} {l : Link ι} (hfd : w.fds csocket = some (.down c))
    (hc : w.conns c = some l) (ht : l.target = i)
    (htends : Tends i w s.srv.clients (getRequests s.rt) hand)
    (hhand : ∀ fd, hand = some fd → fd = csocket)
    (hsought : Sought net w.conns i (getRequests s.rt) none)
    (hrun : (finish csocket cbRemoveClient).Until SysOp.Waits (linkCall net i) s w q s' w') :
    Settles net i none w.conns q s' w' ∧ ((∃ cl ∈ s.srv.clients, cl.socket = csocket) →
      ∃ l, w'.conns c = some l ∧ l.target = i ∧ l.downClosed = true) := by
  obtain ⟨a, rfl, he⟩ := (Prog.until_free (neverWaits_serverRemoveClient csocket)).mp hrun
  have hremoved := remove_removed hfd hc ht he
  refine ⟨⟨hremoved.passes, _, none, none, .idle, ?_, ?_⟩, hremoved.closed⟩
  · rw [hremoved.rt]
    exact hremoved.tends _ hand none htends fun fd hin hne => absurd (hhand fd hin) hne
  · rw [hremoved.rt]
    exact hremoved.passes.sought_same hsought

theorem removeMarked_settles {cs : List Client}
    (htends : Tends i w s.srv.clients (getRequests s.rt) none)
    (hsought : Sought net w.conns i (getRequests s.rt) none)
    (hcs : ∀ cl ∈ cs, ∃ c l, w.fds cl.socket = some (.down c) ∧ w.conns c = some l ∧ l.target = i)
    (hd : (cs.map Client.socket).Nodup)
    (he : (removeMarked cs).Exec (linkCall net i) s w () s' w') :
    Settles net i none w.conns (.ret ()) s' w' := by
  induction cs generalizing s w with
  | nil =>
    obtain ⟨-, rfl, rfl⟩ := he
    exact ⟨.refl _, _, none, none, .idle, htends, hsought⟩
  | cons cl next ih =>
    rw [List.map_cons, List.nodup_cons] at hd
    have hnext := fun cl' hcl' => hcs cl' (List.mem_cons_of_mem _ hcl')
    rw [removeMarked] at he
    split at he
    · obtain ⟨_, s1, w1, hremove, he⟩ := Prog.exec_bind.mp he
      obtain ⟨c, l, hfd, hl, ht⟩ := hcs cl List.mem_cons_self
      have hremoved := remove_removed hfd hl ht hremove
      refine .after hremoved.passes (ih ?_ ?_ (fun cl' hcl' => ?_) hd.2 he)
      · rw [hremoved.rt]
        exact hremoved.tends _ none none htends fun fd hin => by cases hin
      · rw [hremoved.rt]
        exact hremoved.passes.sought_same hsought
      · obtain ⟨c', l', hfd', hl', ht'⟩ := hnext cl' hcl'
        have hne : cl'.socket ≠ cl.socket := fun hs => hd.1 (hs ▸ List.mem_map_of_mem hcl')
        obtain ⟨l1, hl1, -, ht1, -⟩ := hremoved.passes.forth c' l' hl' fun he => by cases he
        exact ⟨c', l1, (hremoved.fds _ hne).trans hfd', hl1, ht1.trans ht'⟩
    · exact ih htends hsought hnext hd.2 he

/-! ### The open requests of a REPLY -/

theorem replyLoop_settles {hashId : UInt16} {rs : List Request} {m : ι} {e : ℕ} {l : Link ι}
    (hunique : s.rt.Unique) (hres : net.resolve n.hostname n.port = [net.address m])
    (hrs : ∀ req ∈ rs, w.Holds req)
    (howned : ∀ fd c, w.fds fd = some (.down c) → ∃ l, w.conns c = some l)
    (hctl : w.fds csocket = some (.down e)) (hl : w.conns e = some l) (ht : l.target = i)
    (htends : Tends i w s.srv.clients (Function.update (getRequests s.rt) hashId rs) none)
    (hsought : Sought net w.conns i (Function.update (getRequests s.rt) hashId rs) (some hashId))
    (hrun : (replyLoop csocket hashId rs n).Until SysOp.Waits (linkCall net i) s w q s' w') :
    Settles net i none w.conns q s' w' := by
  cases rs with
  | nil =>
    have hqueue : getRequests (clearRequests s.rt hashId) =
        Function.update (getRequests s.rt) hashId [] := by
      funext h'
      by_cases he : h' = hashId
      · rw [he, Function.update_self, getRequests_clear_self hunique]
      · rw [Function.update_of_ne he, getRequests_clear_ne s.rt he]
    refine (finish_settles (s := { s with rt := clearRequests s.rt hashId }) hctl hl ht ?_
      (fun fd (hin : (none : Option Int) = some fd) => by cases hin) ?_ hrun).1
    · show Tends i w s.srv.clients (getRequests (clearRequests s.rt hashId)) none
      rwa [hqueue]
    · show Sought net w.conns i (getRequests (clearRequests s.rt hashId)) none
      rw [hqueue]
      intro h' hne _
      refine hsought h' hne fun he => hne ?_
      rw [← Option.some.inj he, Function.update_self]
  | cons req rest =>
    obtain ⟨k, hk, r, hr⟩ := hrs req List.mem_cons_self
    rw [replyLoop_cons, hr] at hrun
    obtain ⟨fd, d, -, hfree, hd, rfl, rfl, rfl⟩ := relay_waits r.isData r.exact hres hrun
    have hpasses : Passes i none w.conns ((w.setConn d (.sent i m r.packet)).setFd fd
        (some (.up d))).conns := .new hd rfl
    have hq : Function.update (getRequests s'.rt) hashId (req :: rest) hashId = req :: rest :=
      Function.update_self ..
    have hdequeue := htends.dequeue hq
    rw [Function.update_idem] at hdequeue
    have hkd : d ≠ k := fun he => by
      obtain ⟨lk, hlk⟩ := howned _ k hk
      rw [← he, hd] at hlk
      cases hlk
    refine ⟨hpasses, _, _, _, .replying (k := k) (Function.update_self ..) (fds_new hfree hk _ d)
      hkd ⟨_, Function.update_self .., rfl, Or.inl (wire_ne_nil _)⟩ hres (fds_new hfree hctl _ d)
      fun req' hreq' => ?_, ?_, ?_⟩
    · obtain ⟨k', hk', hr'⟩ := hrs req' (List.mem_cons_of_mem _ hreq')
      exact ⟨k', fds_new hfree hk' _ d, hr'⟩
    · refine (hdequeue.new rfl).setFd fun c hc => ?_
      rw [Links.setConn_fds, hfree] at hc
      cases hc
    · intro h' hne hskip
      have hh : h' ≠ hashId := fun he => hskip (congrArg some he.symm)
      rw [Function.update_of_ne hh] at hne
      exact hpasses.sought_same hsought h' (by rwa [Function.update_of_ne hh]) hskip

/-! ### Packets -/

/-- The LOOKUP goes on or is answered to the peer it is from. -/
theorem handleLookup_sends (hs : R.Wired i s) (o : ι) (hashId : UInt16) {a : Int}
    (he : (handleLookup (net.lookup o hashId)).Exec (linkCall net i) s w a s' w') :
    a = cbRemoveClient ∧ s'.rt = s.rt ∧ s'.srv = s.srv ∧ ∃ d l, w.conns d = none ∧
      w' = w.setConn d l ∧ l.accepted = false ∧ l.Carries net o hashId := by
  rw [handleLookup, readState, Prog.read_bind, Prog.exec_get] at he
  split at he
  · obtain ⟨rfl, rfl, d, hd, rfl⟩ := answerLookup_links hs.self hashId he
    exact ⟨rfl, rfl, rfl, d, _, hd, rfl, rfl, Or.inr ⟨rfl, _, rfl⟩⟩
  · split at he
    · obtain ⟨rfl, rfl, d, hd, rfl⟩ := answerLookup_links hs.succ hashId he
      exact ⟨rfl, rfl, rfl, d, _, hd, rfl, rfl, Or.inr ⟨rfl, _, rfl⟩⟩
    · rw [Prog.exec_bind] at he
      obtain ⟨x, s1, w1, hfwd, he⟩ := he
      obtain ⟨rfl, rfl, d, hd, rfl⟩ :=
        forward_ctrl_links (net.lookup_ctrl o hashId) (net.resolve_names hs.succ) hfwd
      obtain ⟨rfl, rfl, rfl⟩ := he
      exact ⟨rfl, rfl, rfl, d, _, hd, rfl, rfl, Or.inl rfl⟩

section
variable {c : ℕ} {l : Link ι}

theorem own_settles {r : ClientRequest} {f : Bytes → Option Bytes} (hf : Represents s.ht f)
    (hfd : w.fds csocket = some (.down c)) (hl : w.conns c = some l) (ht : l.target = i)
    (htends : Tends i w s.srv.clients (getRequests s.rt) (some csocket))
    (hsought : Sought net w.conns i (getRequests s.rt) none)
    (hrun : (handleOwnRequest csocket r.packet >>= finish csocket).Until SysOp.Waits
      (linkCall net i) s w q s' w') :
    Settles net i none w.conns q s' w' ∧ ((∃ cl ∈ s.srv.clients, cl.socket = csocket) →
      ∃ l, w'.conns c = some l ∧ l.target = i ∧ l.downClosed = true) := by
  obtain ⟨a, s1, w1, he, hrun⟩ := (Prog.until_bind (neverWaits_handleOwnRequest _ _)).mp hrun
  obtain ⟨ht', -, rfl, rfl, rfl⟩ := handleOwnRequest_links hfd hl r.toOwnRequest hf he
  have hsame : l.Same { l with down := l.down ++ (r.ack (f r.key)).wire } :=
    ⟨rfl, rfl, rfl, rfl, rfl⟩
  have hpasses : Passes i none w.conns
      (w.setConn c { l with down := l.down ++ (r.ack (f r.key)).wire }).conns :=
    .relink hl rfl rfl id (Or.inr hsame)
  obtain ⟨hsettles, hclosed⟩ := finish_settles (s := { s with ht := ht' })
    (w := w.setConn c { l with down := l.down ++ (r.ack (f r.key)).wire }) hfd
    (Function.update_self ..) ht (htends.relink hl hsame)
    (fun fd hin => (Option.some.inj hin).symm) (hpasses.sought_same hsought) hrun
  exact ⟨.after hpasses hsettles, hclosed⟩

theorem proxy_settles {r : ClientRequest} (hs : R.Wired i s)
    (hfd : w.fds csocket = some (.down c)) (hl : w.conns c = some l)
    (htends : Tends i w s.srv.clients (getRequests s.rt) (some csocket))
    (hsought : Sought net w.conns i (getRequests s.rt) none)
    (hrun : (proxyToSucc csocket r.packet >>= finish csocket).Until SysOp.Waits (linkCall net i)
      s w q s' w') : Settles net i none w.conns q s' w' := by
  rw [proxyToSucc_eq, Prog.until_get] at hrun
  obtain ⟨fd, d, -, hfree, hd, rfl, rfl, rfl⟩ :=
    relay_waits r.isData r.exact (net.resolve_names hs.succ) hrun
  have hpasses : Passes i none w.conns ((w.setConn d (.sent i (R.succ i) r.packet)).setFd fd
      (some (.up d))).conns := .new hd rfl
  have hdc : d ≠ c := fun he => by
    rw [← he, hd] at hl
    cases hl
  refine ⟨hpasses, _, _, _, .proxying (k := c) (Function.update_self ..) (fds_new hfree hfd _ d)
    hdc ⟨_, Function.update_self .., rfl, Or.inl (wire_ne_nil _)⟩, ?_, hpasses.sought_same hsought⟩
  refine (htends.new rfl).setFd fun c hc => ?_
  rw [Links.setConn_fds, hfree] at hc
  cases hc

theorem register_settles {r : ClientRequest} (hs : R.Wired i s) (hashId : UInt16)
    (htends : Tends i w s.srv.clients (getRequests s.rt) (some csocket))
    (hsought : Sought net w.conns i (getRequests s.rt) none)
    (hrun : (registerRequest csocket r.packet hashId >>= finish csocket).Until SysOp.Waits
      (linkCall net i) s w q s' w') : Settles net i none w.conns q s' w' := by
  obtain ⟨a, s1, w1, he, hrun⟩ := (Prog.until_bind (neverWaits_registerRequest _ _ _)).mp hrun
  obtain ⟨rt', hadd, rfl, rfl, d, hd, rfl⟩ := registerRequest_links hs r.exact hashId he
  obtain ⟨rfl, rfl, rfl⟩ := hrun
  obtain ⟨rt2, hadd2, -, hself, hother⟩ := addRequest_spec s.rt hashId csocket r.exact
  obtain rfl : rt2 = rt' := Except.ok.inj (hadd2.symm.trans hadd)
  have hpasses : Passes i none w.conns (w.setConn d { Link.sent i (R.succ i)
      (net.lookup i hashId) with upClosed := true }).conns := .new hd rfl
  refine ⟨hpasses, _, none, none, .idle, ?_, fun h' hne hskip => ?_⟩
  · refine (htends.new rfl).enqueue hashId ⟨r.packet, csocket⟩ rfl ?_ fun h' req hreq => ?_
    · show _ ∈ getRequests rt2 hashId
      rw [hself]
      exact List.mem_append_right _ (List.mem_singleton_self _)
    · show req ∈ getRequests rt2 h'
      by_cases hh : h' = hashId
      · rw [hh, hself]
        exact List.mem_append_left _ (hh ▸ hreq)
      · rwa [hother h' hh]
  · by_cases hh : h' = hashId
    · rw [hh]
      exact ⟨d, _, Function.update_self .., Or.inl rfl⟩
    · refine hpasses.sought_same hsought h' ?_ hskip
      rwa [← hother h' hh]

/-- A request is executed, sent to the successor or registered; a peer that claims the
hash closes the connection behind its answer. -/
theorem data_settles {cl : Client} {r : ClientRequest} (h : Knows R i s W)
    (hcl : cl ∈ s.srv.clients) (hfd : w.fds cl.socket = some (.down c)) (hl : w.conns c = some l)
    (ht : l.target = i) (htends : Tends i w s.srv.clients (getRequests s.rt) (some cl.socket))
    (hsought : Sought net w.conns i (getRequests s.rt) none)
    (hrun : (serverDeliverPacket cl.socket r.packet).Until SysOp.Waits (linkCall net i) s w q s' w') :
    Settles net i none w.conns q s' w' ∧
      (R.Claims i (keyHash r.key) → Answering w'.conns c i) := by
  have hs := h.wired
  have hroute := route_wired hs r.exact r.isData
  by_cases hown : R.Claims i (keyHash r.packet.key)
  · rw [if_pos hown] at hroute
    obtain ⟨f, hf, -⟩ := h.store
    obtain ⟨hsettles, hclosed⟩ :=
      own_settles hf hfd hl ht htends hsought (deliver_runs hroute hrun)
    obtain ⟨l', hl', ht', hd⟩ := hclosed ⟨cl, hcl, rfl⟩
    exact ⟨hsettles, fun _ => ⟨l', hl', ht', Or.inr hd⟩⟩
  · rw [if_neg hown] at hroute
    refine ⟨?_, fun hclaim => absurd hclaim hown⟩
    by_cases hnext : R.Claims (R.succ i) (keyHash r.packet.key)
    · rw [if_pos hnext] at hroute
      exact proxy_settles hs hfd hl htends hsought (deliver_runs hroute hrun)
    · rw [if_neg hnext] at hroute
      exact register_settles hs _ htends hsought (deliver_runs hroute hrun)

theorem lookup_settles {o : ι} {hashId : UInt16} (hs : R.Wired i s)
    (hfd : w.fds csocket = some (.down c)) (hl : w.conns c = some l) (ht : l.target = i)
    (hread : Passes i (some c) conns w.conns)
    (htends : Tends i w s.srv.clients (getRequests s.rt) none)
    (hsought : Sought net conns i (getRequests s.rt) none)
    (hcarried : ∀ l0 o' h', conns c = some l0 → l0.Carries net o' h' →
      net.lookup o hashId = net.lookup o' h')
    (hrun : (handleLookup (net.lookup o hashId) >>= finish csocket).Until SysOp.Waits
      (linkCall net i) s w q s' w') :
    Settles net i (some c) conns q s' w' ∧
      ∀ l0 o' h', conns c = some l0 → l0.Carries net o' h' → Underway net w'.conns o' h' := by
  obtain ⟨a, s1, w1, he, hrun⟩ := (Prog.until_bind (neverWaits_handleLookup _)).mp hrun
  -- the new connection carries whatever the one that was read carried
  have hsent : ∀ l0 o' h', conns c = some l0 → l0.Carries net o' h' →
      Underway net w1.conns o' h' := by
    intro l0 o' h' hl0 hcarries
    rw [hcarried l0 o' h' hl0 hcarries] at he
    obtain ⟨-, -, -, d, l1, -, rfl, -, hnew⟩ := handleLookup_sends hs o' h' he
    exact ⟨d, l1, Function.update_self .., hnew⟩
  obtain ⟨rfl, hrt, hsrv, d, l1, hd, rfl, hnew, -⟩ := handleLookup_sends hs o hashId he
  have hsend : Passes i none w.conns (w.setConn d l1).conns := .new hd hnew
  have hcd : c ≠ d := fun he => by
    rw [he, hd] at hl
    cases hl
  have hboth := hread.trans hsend
  obtain ⟨hsettles, -⟩ := finish_settles (w := w.setConn d l1) (s := s1) hfd
    (by rw [Links.setConn_conns, Function.update_of_ne hcd, hl]) ht
    (by rw [hrt, hsrv]; exact htends.new hnew)
    (fun fd (hin : (none : Option Int) = some fd) => by cases hin)
    (by
      rw [hrt]
      exact hboth.sought hsought fun h' e l0 he hl0 hcarries _ =>
        hsent l0 _ h' (Option.some.inj he ▸ hl0) hcarries) hrun
  refine ⟨.after hboth hsettles, fun l0 o' h' hl0 hcarries => ?_⟩
  exact hsettles.passes.underway (hsent l0 o' h' hl0 hcarries) fun _ _ he => by cases he

theorem reply_ne_lookup (m o : ι) (hashId h' : UInt16) : net.reply m hashId ≠ net.lookup o h' := by
  intro he
  have hlkup := net.lookup_lkup o h'
  rw [← he, net.reply_lkup] at hlkup
  cases hlkup

theorem reply_settles {m : ι} {hashId : UInt16} (hunique : s.rt.Unique)
    (hrs : ∀ req ∈ getRequests s.rt hashId, w.Holds req)
    (howned : ∀ fd c, w.fds fd = some (.down c) → ∃ l, w.conns c = some l)
    (hfd : w.fds csocket = some (.down c)) (hl : w.conns c = some l) (ht : l.target = i)
    (htends : Tends i w s.srv.clients (getRequests s.rt) none)
    (hsought : Sought net w.conns i (getRequests s.rt) (some hashId))
    (hrun : (serverDeliverPacket csocket (net.reply m hashId)).Until SysOp.Waits (linkCall net i)
      s w q s' w') : Settles net i none w.conns q s' w' := by
  have hreply := deliver_runs (route_reply net s m hashId) hrun
  rw [handleReply_eq, Prog.until_get] at hreply
  refine replyLoop_settles hunique (net.resolve_literal m) hrs howned hfd hl ht ?_ ?_ hreply
  · show Tends i w s.srv.clients (Function.update (getRequests s.rt) hashId
      (getRequests s.rt hashId)) none
    rwa [Function.update_eq_self]
  · show Sought net w.conns i (Function.update (getRequests s.rt) hashId
      (getRequests s.rt hashId)) (some hashId)
    rwa [Function.update_eq_self]

/-- What becomes of connection `c` for the others when peer `i` has read it. -/
structure ReadOut (net : RingNet R) (i : ι) (c : ℕ) (l : Link ι) (W : Paths ι)
    (conns : ℕ → Option (Link ι)) : Prop where
  underway : ∀ o hashId, o ≠ i → l.Carries net o hashId → Underway net conns o hashId
  answering : ∀ r k, W.role c = some (.proxied r k) → Answering conns c i

theorem deliver_settles {cl : Client} {p : Packet} (h : Current net i (getRequests s.rt) s w W)
    (hlive : Live net i (getRequests s.rt) none none s w) (hcl : cl ∈ s.srv.clients)
    (hfd : w.fds cl.socket = some (.down c)) (hl : w.conns c = some l)
    (hp : packetDecode l.up l.up.length = .ok (some p))
    (hrun : (serverDeliverPacket cl.socket p).Until SysOp.Waits (linkCall net i) s
      (w.setConn c { l with up := [] }) q s' w') :
    Settles net i (some c) w.conns q s' w' ∧ ReadOut net i c l W w'.conns := by
  have hlW : W.conns c = some l := h.conns ▸ hl
  obtain ⟨l', hl', ht, -⟩ := h.serves.owned cl.socket c hfd
  obtain rfl : l' = l := Option.some.inj (hl'.symm.trans hlW)
  have hread : Passes i (some c) w.conns (w.setConn c { l' with up := [] }).conns := .read ht
  have hread_fd : (w.setConn c { l' with up := [] }).fds cl.socket = some (.down c) := hfd
  have hread_l : (w.setConn c { l' with up := [] }).conns c = some { l' with up := [] } :=
    Function.update_self ..
  have hone : ∀ (d : ℕ) (l0 : Link ι), some c = some d → w.conns d = some l0 → l0 = l' := by
    intro d l0 hd hl0
    rw [← Option.some.inj hd, hl, Option.some.injEq] at hl0
    exact hl0.symm
  have hdata : ∀ r : ClientRequest, p = r.packet →
      Settles net i (some c) w.conns q s' w' ∧
        (R.Claims i (keyHash r.key) → Answering w'.conns c i) ∧
        ∀ o hashId, ¬ l'.Carries net o hashId := by
    rintro r rfl
    have hnone : ∀ o hashId, ¬ l'.Carries net o hashId := fun o hashId hcarries => by
      cases (hcarries.ctrl hp).symm.trans r.isData
    have hsought := hread.sought hlive.sought fun hashId d l0 hd hl0 hcarries _ =>
      absurd (hone d l0 hd hl0 ▸ hcarries) (hnone i hashId)
    obtain ⟨hsettles, hans⟩ := data_settles h.knows hcl hread_fd hread_l ht
      (hlive.tends.read hcl hfd _) hsought hrun
    exact ⟨.after hread hsettles, hans, hnone⟩
  obtain ⟨r, hrole, hpr⟩ | ⟨r, k, hrole, hpr⟩ | ⟨hrole, hcontrol⟩ := h.ok.readable hlW hp
  · obtain ⟨hsettles, -, hnone⟩ := hdata r hpr
    refine ⟨hsettles, fun o hashId _ hcarries => absurd hcarries (hnone o hashId), fun r' k hr' => ?_⟩
    cases hrole.symm.trans hr'
  · obtain ⟨hsettles, hans, hnone⟩ := hdata r hpr
    obtain ⟨-, -, -, hclaim, -⟩ := h.ok.fit hrole hlW
    exact ⟨hsettles, fun o hashId _ hcarries => absurd hcarries (hnone o hashId),
      fun _ _ _ => hans (ht ▸ hclaim)⟩
  · obtain ⟨hsource, -⟩ := h.ok.fit hrole hlW
    have htends : Tends i (w.setConn c { l' with up := [] }) s.srv.clients (getRequests s.rt) none :=
      hlive.tends.drop fun hpending => hpending.wanted.elim (fun he => he rfl) hsource
    have hanswering : ∀ conns r k, W.role c = some (.proxied r k) → Answering conns c i := by
      intro conns r k hr
      cases hrole.symm.trans hr
    cases hcontrol with
    | lookup o hashId =>
      have hrun' := deliver_runs (route_lookup net s o hashId) hrun
      have hcarried : ∀ l0 o' h', w.conns c = some l0 → l0.Carries net o' h' →
          net.lookup o hashId = net.lookup o' h' := by
        intro l0 o' h' hl0 hcarries
        obtain he | ⟨-, m, he⟩ := (hone c l0 rfl hl0 ▸ hcarries).packet hp
        · exact he
        · exact absurd he.symm (reply_ne_lookup m o h' hashId)
      obtain ⟨hsettles, hsent⟩ := lookup_settles h.knows.wired hread_fd hread_l ht hread htends
        hlive.sought hcarried hrun'
      exact ⟨hsettles, fun o' h' _ hcarries => hsent l' o' h' hl hcarries, hanswering _⟩
    | reply m hashId hm =>
      have hcarried : ∀ o h', l'.Carries net o h' → o = i ∧ h' = hashId := by
        intro o h' hcarries
        obtain he | ⟨hto, m', he⟩ := hcarries.packet hp
        · exact absurd he (reply_ne_lookup m o hashId h')
        · exact ⟨hto.symm.trans ht, (congrArg Packet.hashId he).symm⟩
      have hsought : Sought net w.conns i (getRequests s.rt) (some hashId) :=
        fun h' hne _ => hlive.sought h' hne fun he => by cases he
      have hsettles := reply_settles h.knows.unique (fun req hreq => ?_) (fun fd d hd => ?_)
        hread_fd hread_l ht htends (hread.sought hsought fun h' d l0 hd hl0 hcarries hskip => ?_) hrun
      · refine ⟨.after hread hsettles, fun o h' hne hcarries => ?_, hanswering _⟩
        exact absurd (hcarried o h' hcarries).1 hne
      · obtain ⟨k, r, hk, -, hr, -⟩ := h.serves.waiting hashId req hreq
        exact ⟨k, hk, r, hr⟩
      · by_cases hdc : d = c
        · subst hdc
          exact ⟨_, hread_l⟩
        · obtain ⟨ld, hld, -⟩ := h.serves.owned fd d hd
          exact ⟨ld, by rw [Links.setConn_conns, Function.update_of_ne hdc, ← h.conns, hld]⟩
      · have hsame := (hcarried i h' (hone d l0 hd hl0 ▸ hcarries)).2
        exact absurd (congrArg some hsame.symm) hskip

end

/-! ### The answer is there -/

omit [Fintype ι] in
theorem passOn_settles {c k : ℕ} {l lk : Link ι} (hup : w.fds n.socket = some (.up c))
    (hl : w.conns c = some l) (hlk : w.conns k = some lk)
    (hck : c ≠ k) (htends : Tends i w clients queue hand) :
    let w1 := ((w.setConn c { l with upClosed := true }).setConn k
      { lk with down := lk.down ++ l.down }).setFd n.socket none
    Passes i none w.conns w1.conns ∧ Tends i w1 clients queue hand ∧
      (∀ fd d, w.fds fd = some (.down d) → w1.fds fd = some (.down d)) ∧
      w1.conns k = some { lk with down := lk.down ++ l.down } := by
  have hlk' : (w.setConn c { l with upClosed := true }).conns k = some lk := by
    rw [Links.setConn_conns, Function.update_of_ne hck.symm, hlk]
  have hsame : l.Same { l with upClosed := true } := ⟨rfl, rfl, rfl, rfl, rfl⟩
  have hsame' : lk.Same { lk with down := lk.down ++ l.down } := ⟨rfl, rfl, rfl, rfl, rfl⟩
  refine ⟨?_, ?_, fun fd d hd => (update_none_down hup fd d).mpr hd, Function.update_self ..⟩
  · have hpeer : Passes i none w.conns (w.setConn c { l with upClosed := true }).conns :=
      .relink hl rfl rfl id (Or.inr hsame)
    exact hpeer.trans (.relink hlk' rfl rfl id (Or.inr hsame'))
  · refine ((htends.relink hl hsame).relink hlk' hsame').setFd fun d hd => ?_
    cases hup.symm.trans hd

theorem resume_settles {p : PeerM Unit} (hdoing : Doing net s w p queue hand skip)
    (hlive : Live net i queue hand skip s w) (hunique : s.rt.Unique)
    (howned : ∀ fd c, w.fds fd = some (.down c) → ∃ l, w.conns c = some l ∧ l.target = i)
    (hrun : p.Resumes SysOp.Waits (linkCall net i) s w q s' w') :
    Settles net i none w.conns q s' w' := by
  cases hdoing with
  | idle => exact hrun.elim
  | @proxying csocket n c k m hup hdown hck hlink =>
    obtain ⟨l, hl, -⟩ := hlink
    obtain ⟨lk, hlk, ht⟩ := howned csocket k hdown
    obtain ⟨hdone, hrun⟩ := relay_resumes hup hl hdown hlk hck hrun
    obtain ⟨hpasses, htends, hfds, hk⟩ := passOn_settles hup hl hlk hck hlive.tends
    exact .after hpasses (finish_settles (s := { s with succ := n.closed }) (hfds _ _ hdown) hk ht
      htends (fun fd hin => (Option.some.inj hin).symm) (hpasses.sought_same hlive.sought) hrun).1
  | @replying csocket hashId req rest n c k e m hup hdown hck hlink hres hctl hrest =>
    obtain ⟨l, hl, -⟩ := hlink
    obtain ⟨lk, hlk, -⟩ := howned req.socket k hdown
    obtain ⟨hdone, hrun⟩ := relay_resumes hup hl hdown hlk hck hrun
    obtain ⟨hpasses, htends, hfds, -⟩ := passOn_settles hup hl hlk hck hlive.tends
    obtain ⟨le, hle, hte⟩ := howned csocket e hctl
    obtain ⟨le', hle', -, hte', -⟩ := hpasses.forth e le hle fun he => by cases he
    refine .after hpasses (replyLoop_settles (n := n.closed)
      (s := { s with srv := serverCloseSocket s.srv req.socket }) hunique hres (fun req' hreq' => ?_)
      (fun fd d hd => ?_) (hfds _ _ hctl) hle' (hte'.trans hte) htends.mark
      (hpasses.sought_same hlive.sought) hrun)
    · obtain ⟨k', hk', hr'⟩ := hrest req' hreq'
      exact ⟨k', hfds _ _ hk', hr'⟩
    · obtain ⟨ld, hld, -⟩ := howned fd d ((update_none_down hup fd d).mp hd)
      obtain ⟨ld', hld', -⟩ := hpasses.forth d ld hld fun he => by cases he
      exact ⟨ld', hld'⟩

/-! ### Clients that come and go -/

theorem sweep_settles (hlive : Live net i (getRequests s.rt) none none s w)
    (h : Current net i (getRequests s.rt) s w W)
    (he : serverSweep.Exec (linkCall net i) s w () s' w') :
    Settles net i none w.conns (.ret ()) s' w' := by
  rw [serverSweep, readState, Prog.read_bind, Prog.exec_get] at he
  refine removeMarked_settles hlive.tends hlive.sought (fun cl hcl => ?_) h.serves.distinct he
  obtain ⟨c, hfd⟩ := h.serves.opened cl hcl
  obtain ⟨l, hl, ht, -⟩ := h.serves.owned _ c hfd
  exact ⟨c, l, hfd, h.conns ▸ hl, ht⟩

theorem hangup_settles (hlive : Live net i (getRequests s.rt) none none s w) {c : ℕ} {l : Link ι}
    (hfd : w.fds csocket = some (.down c)) (hl : w.conns c = some l) (ht : l.target = i)
    (he : (serverRemoveClient csocket).Exec (linkCall net i) s w () s' w') :
    Settles net i none w.conns (.ret ()) s' w' := by
  have hremoved := remove_removed hfd hl ht he
  refine ⟨hremoved.passes, _, none, none, .idle, ?_, ?_⟩
  · rw [hremoved.rt]
    exact hremoved.tends _ none none hlive.tends fun fd hin => by cases hin
  · rw [hremoved.rt]
    exact hremoved.passes.sought_same hlive.sought

theorem accept_settles (hlive : Live net i (getRequests s.rt) none none s w) {c : ℕ} {fd : Int}
    {l : Link ι} (hl : w.conns c = some l) (ht : l.target = i) (hup : l.up ≠ [])
    (hfree : w.fds fd = none)
    (he : (serverAddClient fd).Exec (linkCall net i) s
      ((w.setConn c { l with accepted := true }).setFd fd (some (.down c))) () s' w') :
    Settles net i none w.conns (.ret ()) s' w' := by
  obtain ⟨rfl, rfl⟩ := Prog.exec_modify.mp he
  have hpasses : Passes i none w.conns ((w.setConn c { l with accepted := true }).setFd fd
      (some (.down c))).conns := .relink hl rfl rfl id (Or.inl ht)
  exact ⟨hpasses, _, none, none, .idle, hlive.tends.accept hfree hup,
    hpasses.sought_same hlive.sought⟩

end RN2223.Praxis2

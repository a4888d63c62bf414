import RN2223.Praxis2.RingInvariant

/-!
# The peers of a working ring

What a peer does with one packet, with the answer it waits for, with its marked
clients and with a connection that ended keeps the invariant, and it executes
the requests it should.
-/

namespace RN2223.Praxis2
open CMemory

variable {ι : Type} [Fintype ι] {R : LinkedRing ι} {net : RingNet R} {i j : ι}
  {s s' : PeerState} {w w' : Links ι} {W W' : Paths ι} {queue : UInt16 → List Request}
  {q : PeerM Unit} {csocket : Int} {n : Peer} {ps : List Packet}

/-- How far the peer has come with its handler, and the queues that still count:
it waits for the answer to a request of the successor's, or to one of the open
requests a REPLY is for, those behind it being the only ones left. -/
inductive At (net : RingNet R) (i : ι) (s : PeerState) (fds : Int → Option LinkEnd)
    (W : Paths ι) : PeerM Unit → (UInt16 → List Request) → Prop where
  | idle : At net i s fds W (.ret ()) (getRequests s.rt)
  | proxying {csocket : Int} {n : Peer} {c k : ℕ} {r : ClientRequest}
    (hup : fds n.socket = some (.up c)) (hdown : fds csocket = some (.down k))
    (hrole : W.role k = some (.relayed r c)) (hn : R.Names n (R.succ i)) :
    At net i s fds W (relay csocket n >>= afterProxy csocket) (getRequests s.rt)
  | replying {csocket : Int} {hashId : UInt16} {req : Request} {rest : List Request} {n : Peer}
    {c k e : ℕ} {r : ClientRequest} {m : ι} (hup : fds n.socket = some (.up c))
    (hdown : fds req.socket = some (.down k)) (hrole : W.role k = some (.relayed r c))
    (htarget : ∃ l, W.conns c = some l ∧ l.target = m)
    (hres : net.resolve n.hostname n.port = [net.address m]) (hm : R.Claims m hashId)
    (hctl : fds csocket = some (.down e)) (hspent : W.role e = some .spent) :
    At net i s fds W (relay req.socket n >>= afterReply csocket hashId req rest)
      (Function.update (getRequests s.rt) hashId rest)

/-- The invariant at one peer while these are its live queues. -/
structure Current (net : RingNet R) (i : ι) (queue : UInt16 → List Request) (s : PeerState)
    (w : Links ι) (W : Paths ι) : Prop where
  conns : W.conns = w.conns
  ok : W.Ok net
  knows : Knows R i s W
  serves : Serves i w.fds s.srv.clients queue W

/-- The peer comes to a point with the invariant, having executed `ps`. -/
def Leads (net : RingNet R) (i : ι) (ps : List Packet) (W : Paths ι) (q : PeerM Unit)
    (s' : PeerState) (w' : Links ι) : Prop :=
  ∃ W' queue, W.Moves R i ps W' ∧ At net i s' w'.fds W' q queue ∧ Current net i queue s' w' W'

theorem Leads.after {ps' : List Packet} (h : W.Moves R i ps W')
    (h' : Leads net i ps' W' q s' w') : Leads net i (ps ++ ps') W q s' w' := by
  obtain ⟨W2, queue, hmoves, hat, hcurrent⟩ := h'
  exact ⟨W2, queue, h.trans hmoves, hat, hcurrent⟩

/-! ### Clients that come and go -/

omit [Fintype ι] in
theorem finished_not_held {c : ℕ} (h : W.Finished c) (r : ClientRequest) :
    W.role c ≠ some (.held r) := by
  intro hheld
  obtain ⟨r', b, hrole⟩ | ⟨r', k, b, hrole⟩ | hrole := h <;> cases hrole.symm.trans hheld

/-- A client the peer has finished with is removed; the others stay. -/
theorem Current.remove {c : ℕ} {a : Unit} (h : Current net i (getRequests s.rt) s w W)
    (hfd : w.fds csocket = some (.down c)) (hfin : W.Finished c)
    (he : (serverRemoveClient csocket).Exec (linkCall net i) s w a s' w') :
    ∃ W', W.Moves R i [] W' ∧ Current net i (getRequests s'.rt) s' w' W' ∧
      ∀ cl ∈ s.srv.clients, cl.socket ≠ csocket → cl ∈ s'.srv.clients := by
  obtain ⟨l, hl, -, -⟩ := h.serves.owned csocket c hfd
  obtain ⟨rfl, rfl⟩ | ⟨rfl, rfl⟩ := serverRemoveClient_links hfd (h.conns ▸ hl) he
  · refine ⟨W.relink c { l with downClosed := true }, Paths.moves_relink hl ⟨rfl, id, fun _ => rfl⟩, ?_, ?_⟩
    · exact ⟨congrArg (Function.update · c _) h.conns, h.ok.close hfin hl,
        h.knows.withServer _ rfl, h.serves.remove hfd hl (finished_not_held hfin)⟩
    · intro cl hcl hne
      exact (List.mem_eraseP_of_neg (by simpa using hne)).mpr hcl
  · exact ⟨W, .refl W, h, fun cl hcl _ => hcl⟩

theorem finish_leads {c : ℕ} (h : Current net i (getRequests s.rt) s w W)
    (hfd : w.fds csocket = some (.down c)) (hfin : W.Finished c)
    (hrun : (finish csocket cbRemoveClient).Until SysOp.Waits (linkCall net i) s w q s' w') :
    Leads net i [] W q s' w' := by
  obtain ⟨a, rfl, he⟩ := (Prog.until_free (neverWaits_serverRemoveClient csocket)).mp hrun
  obtain ⟨W', hmoves, hcurrent, -⟩ := h.remove hfd hfin he
  exact ⟨W', _, hmoves, .idle, hcurrent⟩

theorem removeMarked_leads {cs : List Client} (h : Current net i (getRequests s.rt) s w W)
    (hcs : ∀ cl ∈ cs, cl ∈ s.srv.clients) (hd : (cs.map Client.socket).Nodup)
    (he : (removeMarked cs).Exec (linkCall net i) s w () s' w') :
    Leads net i [] W (.ret ()) s' w' := by
  induction cs generalizing s w W with
  | nil =>
    obtain ⟨-, rfl, rfl⟩ := he
    exact ⟨W, _, .refl W, .idle, h⟩
  | cons cl next ih =>
    rw [List.map_cons, List.nodup_cons] at hd
    have hnext : ∀ cl' ∈ next, cl' ∈ s.srv.clients :=
      fun cl' hcl' => hcs cl' (List.mem_cons_of_mem _ hcl')
    rw [removeMarked] at he
    split at he
    · next hstate =>
      obtain ⟨_, s1, w1, hremove, he⟩ := Prog.exec_bind.mp he
      obtain ⟨c, hfd⟩ := h.serves.opened cl (hcs cl List.mem_cons_self)
      have hans := h.serves.marked cl (hcs cl List.mem_cons_self) hstate c hfd
      obtain ⟨W', hmoves, hcurrent, hkept⟩ := h.remove hfd (Or.inl hans) hremove
      refine (ih hcurrent (fun cl' hcl' => hkept cl' (hnext cl' hcl') ?_) hd.2 he).after hmoves
      intro hsocket
      exact hd.1 (hsocket ▸ List.mem_map_of_mem hcl')
    · exact ih h hnext hd.2 he

theorem sweep_leads (h : Current net i (getRequests s.rt) s w W)
    (he : serverSweep.Exec (linkCall net i) s w () s' w') : Leads net i [] W (.ret ()) s' w' := by
  rw [serverSweep, readState, Prog.read_bind, Prog.exec_get] at he
  exact removeMarked_leads h (fun cl hcl => hcl) h.serves.distinct he

theorem hangup_leads {cl : Client} {c : ℕ} {l : Link ι}
    (h : Current net i (getRequests s.rt) s w W) (hfd : w.fds cl.socket = some (.down c))
    (hl : w.conns c = some l) (hup : l.up = []) (hclosed : l.upClosed = true)
    (he : (serverRemoveClient cl.socket).Exec (linkCall net i) s w () s' w') :
    Leads net i [] W (.ret ()) s' w' := by
  have hfin := h.ok.finished_of_end (h.conns ▸ hl) hup hclosed
  obtain ⟨W', hmoves, hcurrent, -⟩ := h.remove hfd hfin he
  exact ⟨W', _, hmoves, .idle, hcurrent⟩

theorem accept_leads {c : ℕ} {fd : Int} {l : Link ι} (h : Current net i (getRequests s.rt) s w W)
    (hl : w.conns c = some l) (ht : l.target = i) (hnew : l.accepted = false)
    (hfree : w.fds fd = none)
    (he : (serverAddClient fd).Exec (linkCall net i) s
      ((w.setConn c { l with accepted := true }).setFd fd (some (.down c))) () s' w') :
    Leads net i [] W (.ret ()) s' w' := by
  obtain ⟨rfl, rfl⟩ := Prog.exec_modify.mp he
  have hlW : W.conns c = some l := h.conns ▸ hl
  refine ⟨W.relink c { l with accepted := true }, _, ?_, .idle, ?_, h.ok.accept hlW,
    h.knows.withServer _ rfl, h.serves.accept hfree hlW ht hnew⟩
  · exact Paths.moves_relink hlW ⟨rfl, fun _ => rfl, id⟩
  · rw [Paths.relink_conns, h.conns, Links.setFd_conns, Links.setConn_conns]

/-! ### Waiting for an answer -/

theorem Current.relayed {k d : ℕ} {r : ClientRequest} {m : ι} {fd : Int}
    (h : Current net i queue s w W) (hdown : w.fds csocket = some (.down k))
    (hheld : W.role k = some (.held r))
    (hnone : ∀ hashId, ∀ req ∈ queue hashId, w.fds req.socket ≠ some (.down k))
    (hm : R.Claims m (keyHash r.key)) (hfree : w.fds fd = none) (hd : w.conns d = none) :
    W.Moves R i [] ((W.put d (.sent i m r.packet) (.proxied r k)).assign k (.relayed r d)) ∧
    Current net i queue s ((w.setConn d (.sent i m r.packet)).setFd fd (some (.up d)))
      ((W.put d (.sent i m r.packet) (.proxied r k)).assign k (.relayed r d)) := by
  have hdW : W.conns d = none := h.conns ▸ hd
  obtain ⟨l, hl, ht, -⟩ := h.serves.owned csocket k hdown
  refine ⟨Paths.moves_relay hl ht hdW _ r, ?_, h.ok.relay hheld hdW hm i,
    h.knows.same h.knows.wired h.knows.unique rfl rfl, h.serves.relay hfree hdW hheld hnone _⟩
  rw [Paths.assign_conns, Paths.put_conns, h.conns, Links.setFd_conns, Links.setConn_conns]

omit [Fintype ι] in
theorem fds_new {fd : Int} (hfree : w.fds fd = none) {x : Int} {e : LinkEnd}
    (hx : w.fds x = some e) (l : Link ι) (d : ℕ) :
    ((w.setConn d l).setFd fd (some (.up d))).fds x = some e := by
  have hne : x ≠ fd := fun he => by
    rw [he, hfree] at hx
    cases hx
  rw [Links.setFd_fds, Links.setConn_fds, Function.update_of_ne hne, hx]

/-- The open requests left behind by a REPLY: the next one is sent off, or there is
none and the REPLY is done. -/
theorem replyLoop_leads {hashId : UInt16} {rest : List Request} {m : ι} {e : ℕ}
    (h : Current net i (Function.update (getRequests s.rt) hashId rest) s w W)
    (hres : net.resolve n.hostname n.port = [net.address m]) (hm : R.Claims m hashId)
    (hctl : w.fds csocket = some (.down e)) (hspent : W.role e = some .spent)
    (hrun : (replyLoop csocket hashId rest n).Until SysOp.Waits (linkCall net i) s w q s' w') :
    Leads net i [] W q s' w' := by
  cases rest with
  | nil =>
    have hqueue : getRequests (clearRequests s.rt hashId) =
        Function.update (getRequests s.rt) hashId [] := by
      funext h'
      by_cases he : h' = hashId
      · rw [he, Function.update_self, getRequests_clear_self h.knows.unique]
      · rw [Function.update_of_ne he, getRequests_clear_ne s.rt he]
    refine finish_leads (s := { s with rt := clearRequests s.rt hashId }) ?_ hctl
      (Or.inr (Or.inr hspent)) hrun
    refine ⟨h.conns, h.ok, ?_, ?_⟩
    · exact h.knows.same ⟨h.knows.wired.self, h.knows.wired.pred, h.knows.wired.succ⟩
        (clearRequests_unique h.knows.unique hashId) rfl rfl
    · show Serves i w.fds s.srv.clients (getRequests (clearRequests s.rt hashId)) W
      rw [hqueue]
      exact h.serves
  | cons req rest =>
    obtain ⟨k, r, hdown, hheld, hpacket, hkey⟩ := h.serves.waiting hashId req
      (by rw [Function.update_self]; exact List.mem_cons_self)
    rw [replyLoop_cons, hpacket] at hrun
    obtain ⟨fd, d, hpos, hfree, hd, rfl, rfl, rfl⟩ := relay_waits r.isData r.exact hres hrun
    have hq : Function.update (getRequests s'.rt) hashId (req :: rest) hashId = req :: rest :=
      Function.update_self ..
    have hshort : Current net i (Function.update (getRequests s'.rt) hashId rest) s' w W := by
      refine { h with serves := ?_ }
      have hserves := h.serves.dequeue hq
      rwa [Function.update_idem] at hserves
    have hnone : ∀ h', ∀ req' ∈ Function.update (getRequests s'.rt) hashId rest h',
        w.fds req'.socket ≠ some (.down k) := by
      intro h' req' hreq'
      rw [← Function.update_idem (a := hashId) (req :: rest)] at hreq'
      exact h.serves.not_waiting_twice hq hdown hreq'
    obtain ⟨hmoves, hcurrent⟩ := hshort.relayed hdown hheld hnone (hkey ▸ hm) hfree hd
    refine ⟨_, _, hmoves, .replying (e := e) (k := k) (r := r) (Function.update_self ..)
      (fds_new hfree hdown _ d) (Function.update_self ..) ⟨_, Function.update_self .., rfl⟩ hres hm
      (fds_new hfree hctl _ d) ?_, hcurrent⟩
    have hek : e ≠ k := fun he => by
      rw [he, hheld] at hspent
      cases hspent
    have hed : e ≠ d := fun he => by
      rw [he, (h.ok.new (h.conns ▸ hd)).1] at hspent
      cases hspent
    rw [Paths.assign_role, Function.update_of_ne hek, Paths.put_role, Function.update_of_ne hed,
      hspent]

/-! ### A packet is there -/

/-- The peer carries out a request and answers on the connection it came on. -/
theorem own_leads {c k : ℕ} {r : ClientRequest} {l : Link ι} {rl : Role}
    (h : Current net i (getRequests s.rt) s w W) (hdown : w.fds csocket = some (.down c))
    (hl : w.conns c = some l) (hclaim : R.Claims i (keyHash r.key))
    (hsettled : ∀ rl, W.role c = some rl → ¬ rl.Settled)
    (hok : ((W.execute k r).put c { l with up := [], down := l.down ++ (r.apply W.obj.store).1 }
      rl).Ok net)
    (hfin : ∀ W' : Paths ι, W'.role c = some rl → W'.Finished c)
    (hrun : (handleOwnRequest csocket r.packet >>= finish csocket).Until SysOp.Waits
      (linkCall net i) s (w.setConn c { l with up := [] }) q s' w') :
    Leads net i [r.packet] W q s' w' := by
  obtain ⟨a, s1, w1, he, hrun⟩ := (Prog.until_bind (neverWaits_handleOwnRequest _ _)).mp hrun
  obtain ⟨f, hrep, hf⟩ := h.knows.store
  obtain ⟨ht', hrep', rfl, rfl, rfl⟩ := handleOwnRequest_links (l := { l with up := [] })
    (w := w.setConn c { l with up := [] }) hdown (Function.update_self ..) r.toOwnRequest hrep he
  have hlW : W.conns c = some l := h.conns ▸ hl
  obtain ⟨l', hl', ht, -⟩ := h.serves.owned csocket c hdown
  obtain rfl : l' = l := Option.some.inj (hl'.symm.trans hlW)
  have hans : (r.ack (f r.key)).wire = (r.apply W.obj.store).1 := by
    rw [hf r.key hclaim]
    rfl
  have hg : l'.Grows { l' with up := [], down := l'.down ++ (r.apply W.obj.store).1 } :=
    ⟨rfl, id, id⟩
  have hmoves := (Paths.moves_execute (W := W) (k := k) hclaim).trans
    (Paths.moves_put (W := W.execute k r) hlW hg (Or.inl ht) rl)
  rw [hans, Links.setConn_setConn] at hrun
  have hcurrent : Current net i (getRequests s.rt) { s with ht := ht' }
      (w.setConn c { l' with up := [], down := l'.down ++ (r.apply W.obj.store).1 })
      ((W.execute k r).put c { l' with up := [], down := l'.down ++ (r.apply W.obj.store).1 }
        rl) := by
    refine ⟨?_, hok, ?_, ?_⟩
    · rw [Paths.put_conns, Paths.execute_conns, h.conns, Links.setConn_conns]
    · refine ⟨⟨h.knows.wired.self, h.knows.wired.pred, h.knows.wired.succ⟩, h.knows.unique,
        r.toOwnRequest.apply f, hrep', fun key hkey => ?_⟩
      show r.toOwnRequest.apply f key = r.toOwnRequest.apply W.obj.store key
      rw [OwnRequest.apply, OwnRequest.apply, hf key hkey]
    · exact (h.serves.execute k r).put hlW hg hsettled rl
  exact (finish_leads (s := { s with ht := ht' }) hcurrent hdown (hfin _ (Function.update_self ..)) hrun).after hmoves

theorem proxy_leads {k : ℕ} {r : ClientRequest} (h : Current net i (getRequests s.rt) s w W)
    (hdown : w.fds csocket = some (.down k)) (hheld : W.role k = some (.held r))
    (hnone : ∀ hashId, ∀ req ∈ getRequests s.rt hashId, w.fds req.socket ≠ some (.down k))
    (hclaim : R.Claims (R.succ i) (keyHash r.key))
    (hrun : (proxyToSucc csocket r.packet >>= finish csocket).Until SysOp.Waits (linkCall net i)
      s w q s' w') : Leads net i [] W q s' w' := by
  rw [proxyToSucc_eq, Prog.until_get] at hrun
  have hn := h.knows.wired.succ
  obtain ⟨fd, d, hpos, hfree, hd, rfl, rfl, rfl⟩ :=
    relay_waits r.isData r.exact (net.resolve_names hn) hrun
  obtain ⟨hmoves, hcurrent⟩ := h.relayed hdown hheld hnone hclaim hfree hd
  refine ⟨_, _, hmoves, ?_, hcurrent⟩
  exact .proxying (Function.update_self ..) (fds_new hfree hdown _ d) (Function.update_self ..)
    ⟨hn.nodeId, hn.hostname, hn.port⟩

theorem register_leads {k : ℕ} {r : ClientRequest} (h : Current net i (getRequests s.rt) s w W)
    (hdown : w.fds csocket = some (.down k)) (hheld : W.role k = some (.held r))
    (hnone : ∀ hashId, ∀ req ∈ getRequests s.rt hashId, w.fds req.socket ≠ some (.down k))
    (hrun : (registerRequest csocket r.packet (keyHash r.key) >>= finish csocket).Until
      SysOp.Waits (linkCall net i) s w q s' w') : Leads net i [] W q s' w' := by
  obtain ⟨a, s1, w1, he, hrun⟩ := (Prog.until_bind (neverWaits_registerRequest _ _ _)).mp hrun
  obtain ⟨rt', hadd, rfl, rfl, d, hd, rfl⟩ :=
    registerRequest_links h.knows.wired r.exact (keyHash r.key) he
  obtain ⟨rfl, rfl, rfl⟩ := hrun
  obtain ⟨rt2, hadd2, hunique, hself, hother⟩ :=
    addRequest_spec s.rt (keyHash r.key) csocket r.exact
  obtain rfl : rt2 = rt' := Except.ok.inj (hadd2.symm.trans hadd)
  have hdW : W.conns d = none := h.conns ▸ hd
  refine ⟨_, _, Paths.moves_new hdW _ _, .idle, ?_, h.ok.send hdW (.lookup i (keyHash r.key)) i
    (R.succ i), ?_, ?_⟩
  · rw [Paths.put_conns, h.conns, Links.setConn_conns]
  · exact h.knows.same ⟨h.knows.wired.self, h.knows.wired.pred, R.names_closed h.knows.wired.succ⟩
      (hunique h.knows.unique) rfl rfl
  · have hserves : Serves i w.fds s.srv.clients (getRequests rt2) W :=
      h.serves.enqueue hdown hheld (fun req hreq he => hnone _ req hreq (he ▸ hdown)) hself hother
    exact hserves.new hdW _ _

theorem lookup_leads {e : ℕ} {o : ι} {hashId : UInt16} (h : Current net i (getRequests s.rt) s w W)
    (hdown : w.fds csocket = some (.down e)) (hspent : W.role e = some .spent)
    (hrun : (handleLookup (net.lookup o hashId) >>= finish csocket).Until SysOp.Waits
      (linkCall net i) s w q s' w') : Leads net i [] W q s' w' := by
  obtain ⟨a, s1, w1, he, hrun⟩ := (Prog.until_bind (neverWaits_handleLookup _)).mp hrun
  obtain ⟨rfl, hs, p, j, d, hd, rfl, hp⟩ := handleLookup_links h.knows.wired o hashId he
  have hdW : W.conns d = none := h.conns ▸ hd
  have hcontrol : net.Control p := by
    obtain rfl | ⟨m, hm, rfl⟩ := hp
    · exact .lookup o hashId
    · exact .reply m hashId hm
  have hed : e ≠ d := fun he => by
    rw [he, (h.ok.new hdW).1] at hspent
    cases hspent
  have hrt : s1.rt = s.rt ∧ s1.srv = s.srv ∧ s1.ht = s.ht ∧ R.Wired i s1 := by
    obtain rfl | rfl := hs
    · exact ⟨rfl, rfl, rfl, h.knows.wired⟩
    · exact ⟨rfl, rfl, rfl, h.knows.wired.self, h.knows.wired.pred,
        R.names_closed h.knows.wired.succ⟩
  obtain ⟨hrt, hsrv, hht, hwired⟩ := hrt
  have hcurrent : Current net i (getRequests s1.rt) s1
      (w.setConn d { Link.sent i j p with upClosed := true })
      (W.put d { Link.sent i j p with upClosed := true } (.control p)) := by
    refine ⟨?_, h.ok.send hdW hcontrol i j, ?_, ?_⟩
    · rw [Paths.put_conns, h.conns, Links.setConn_conns]
    · exact h.knows.same hwired (hrt ▸ h.knows.unique) hht rfl
    · rw [hsrv, hrt]
      exact h.serves.new hdW _ _
  refine (finish_leads (c := e) hcurrent hdown (Or.inr (Or.inr ?_)) hrun).after
    (Paths.moves_new hdW _ _)
  rw [Paths.put_role, Function.update_of_ne hed, hspent]

omit [Fintype ι] in
theorem unsettled {c : ℕ} {rl : Role} (hrole : W.role c = some rl) (h : ¬ rl.Settled) :
    ∀ rl', W.role c = some rl' → ¬ rl'.Settled := by
  intro rl' hrl'
  rw [hrole, Option.some.injEq] at hrl'
  exact hrl' ▸ h

theorem Current.read {c : ℕ} {l : Link ι} {rl : Role} (h : Current net i queue s w W)
    (hdown : w.fds csocket = some (.down c)) (hl : w.conns c = some l)
    (hsettled : ∀ rl, W.role c = some rl → ¬ rl.Settled)
    (hok : (W.put c { l with up := [] } rl).Ok net) :
    W.Moves R i [] (W.put c { l with up := [] } rl) ∧
      Current net i queue s (w.setConn c { l with up := [] }) (W.put c { l with up := [] } rl) := by
  have hlW : W.conns c = some l := h.conns ▸ hl
  obtain ⟨l', hl', ht, -⟩ := h.serves.owned csocket c hdown
  obtain rfl : l' = l := Option.some.inj (hl'.symm.trans hlW)
  have hg : l'.Grows { l' with up := [] } := ⟨rfl, id, id⟩
  refine ⟨Paths.moves_put hlW hg (Or.inl ht) rl, ?_, hok,
    h.knows.same h.knows.wired h.knows.unique rfl rfl, h.serves.put hlW hg hsettled rl⟩
  rw [Paths.put_conns, h.conns, Links.setConn_conns]

theorem deliver_runs {p : Packet} {r : Route} (hr : route s p = .ok r)
    (hrun : (serverDeliverPacket csocket p).Until SysOp.Waits (linkCall net i) s w q s' w') :
    (r.run csocket p >>= finish csocket).Until SysOp.Waits (linkCall net i) s w q s' w' := by
  change (handlePacket csocket p >>= finish csocket).Until _ _ s w q s' w' at hrun
  rw [← Prog.until_atState_bind, handlePacket_atState hr, Prog.until_atState_bind] at hrun
  exact hrun

theorem client_leads {c : ℕ} {l : Link ι} {r : ClientRequest}
    (h : Current net i (getRequests s.rt) s w W) (hdown : w.fds csocket = some (.down c))
    (hl : w.conns c = some l) (hrole : W.role c = some (.asked r))
    (hrun : (serverDeliverPacket csocket r.packet).Until SysOp.Waits (linkCall net i) s
      (w.setConn c { l with up := [] }) q s' w') :
    Leads net i (executes s r.packet) W q s' w' := by
  have hlW : W.conns c = some l := h.conns ▸ hl
  obtain ⟨l', hl', -, ha⟩ := h.serves.owned csocket c hdown
  obtain rfl : l' = l := Option.some.inj (hl'.symm.trans hlW)
  have hsettled := unsettled hrole (fun hset => by cases hset)
  have htake := h.ok.take hrole hlW ha
  obtain ⟨hmoves, hread⟩ := h.read hdown hl hsettled htake
  have hnone : ∀ hashId, ∀ req ∈ getRequests s.rt hashId, w.fds req.socket ≠ some (.down c) :=
    fun hashId req hreq => h.serves.not_waiting (fun r' hr' => hsettled _ hr' (.held r')) hreq
  have hheld : (W.put c { l' with up := [] } (.held r)).role c = some (.held r) :=
    Function.update_self ..
  have hroute := route_wired h.knows.wired r.exact r.isData
  by_cases hown : R.Claims i (keyHash r.packet.key)
  · rw [if_pos hown] at hroute
    have hexec : executes s r.packet = [r.packet] := by rw [executes, hroute]
    have hok := htake.answer hheld (Function.update_self ..)
    rw [Paths.put_execute_put] at hok
    rw [hexec]
    exact own_leads h hdown hl hown hsettled hok (fun W' hW' => Or.inl ⟨r, _, hW'⟩)
      (deliver_runs hroute hrun)
  · rw [if_neg hown] at hroute
    by_cases hnext : R.Claims (R.succ i) (keyHash r.packet.key)
    · rw [if_pos hnext] at hroute
      have hexec : executes s r.packet = [] := by rw [executes, hroute]
      rw [hexec]
      exact (proxy_leads hread hdown hheld hnone hnext (deliver_runs hroute hrun)).after hmoves
    · rw [if_neg hnext] at hroute
      have hexec : executes s r.packet = [] := by rw [executes, hroute]
      rw [hexec]
      exact (register_leads hread hdown hheld hnone (deliver_runs hroute hrun)).after hmoves

theorem proxied_leads {c k : ℕ} {l : Link ι} {r : ClientRequest}
    (h : Current net i (getRequests s.rt) s w W) (hdown : w.fds csocket = some (.down c))
    (hl : w.conns c = some l) (hrole : W.role c = some (.proxied r k))
    (hrun : (serverDeliverPacket csocket r.packet).Until SysOp.Waits (linkCall net i) s
      (w.setConn c { l with up := [] }) q s' w') :
    Leads net i (executes s r.packet) W q s' w' := by
  have hlW : W.conns c = some l := h.conns ▸ hl
  obtain ⟨l', hl', ht, ha⟩ := h.serves.owned csocket c hdown
  obtain rfl : l' = l := Option.some.inj (hl'.symm.trans hlW)
  obtain ⟨-, -, -, hclaim, -⟩ := h.ok.fit hrole hlW
  rw [ht] at hclaim
  have hroute := route_wired h.knows.wired r.exact r.isData
  rw [if_pos (show R.Claims i (keyHash r.packet.key) from hclaim)] at hroute
  have hexec : executes s r.packet = [r.packet] := by rw [executes, hroute]
  have hsettled := unsettled hrole (fun hset => by cases hset)
  rw [hexec]
  exact own_leads h hdown hl hclaim hsettled (h.ok.serve hrole hlW ha)
    (fun W' hW' => Or.inr (Or.inl ⟨r, k, _, hW'⟩)) (deliver_runs hroute hrun)

theorem control_leads {c : ℕ} {l : Link ι} {p : Packet}
    (h : Current net i (getRequests s.rt) s w W) (hdown : w.fds csocket = some (.down c))
    (hl : w.conns c = some l) (hrole : W.role c = some (.control p)) (hp : net.Control p)
    (hrun : (serverDeliverPacket csocket p).Until SysOp.Waits (linkCall net i) s
      (w.setConn c { l with up := [] }) q s' w') :
    Leads net i (executes s p) W q s' w' := by
  have hlW : W.conns c = some l := h.conns ▸ hl
  obtain ⟨l', hl', -, ha⟩ := h.serves.owned csocket c hdown
  obtain rfl : l' = l := Option.some.inj (hl'.symm.trans hlW)
  have hsettled := unsettled hrole (fun hset => by cases hset)
  obtain ⟨hmoves, hread⟩ := h.read hdown hl hsettled (h.ok.spend hrole hlW ha)
  have hspent : (W.put c { l' with up := [] } .spent).role c = some .spent :=
    Function.update_self ..
  cases hp with
  | lookup o hashId =>
    have hroute := route_lookup net s o hashId
    have hexec : executes s (net.lookup o hashId) = [] := by rw [executes, hroute]
    rw [hexec]
    exact (lookup_leads hread hdown hspent (deliver_runs hroute hrun)).after hmoves
  | reply m hashId hm =>
    have hroute := route_reply net s m hashId
    have hexec : executes s (net.reply m hashId) = [] := by rw [executes, hroute]
    have hreply := deliver_runs hroute hrun
    rw [handleReply_eq, Prog.until_get] at hreply
    rw [hexec]
    have hwhole : Current net i (Function.update (getRequests s.rt) hashId
        (getRequests s.rt hashId)) s (w.setConn c { l' with up := [] })
        (W.put c { l' with up := [] } .spent) := by
      rwa [Function.update_eq_self]
    exact (replyLoop_leads hwhole (net.resolve_literal m) hm hdown hspent hreply).after hmoves

/-- The peer comes to a point with the invariant when it handles a packet. -/
theorem deliver_leads {c : ℕ} {l : Link ι} {p : Packet}
    (h : Current net i (getRequests s.rt) s w W) (hdown : w.fds csocket = some (.down c))
    (hl : w.conns c = some l) (hp : packetDecode l.up l.up.length = .ok (some p))
    (hrun : (serverDeliverPacket csocket p).Until SysOp.Waits (linkCall net i) s
      (w.setConn c { l with up := [] }) q s' w') :
    Leads net i (executes s p) W q s' w' := by
  obtain ⟨r, hrole, rfl⟩ | ⟨r, k, hrole, rfl⟩ | ⟨hrole, hcontrol⟩ := h.ok.readable (h.conns ▸ hl) hp
  · exact client_leads h hdown hl hrole hrun
  · exact proxied_leads h hdown hl hrole hrun
  · exact control_leads h hdown hl hrole hcontrol hrun

/-! ### The answer is there -/

theorem Current.passOn {c k : ℕ} {r : ClientRequest} {f : Int × Peer → PeerM Unit}
    (h : Current net i queue s w W) (hup : w.fds n.socket = some (.up c))
    (hdown : w.fds csocket = some (.down k)) (hrole : W.role k = some (.relayed r c))
    (hrun : (relay csocket n >>= f).Resumes SysOp.Waits (linkCall net i) s w q s' w') :
    ∃ w1 W', W.Moves R i [] W' ∧ (∃ b, W'.role k = some (.answered r b)) ∧
      (∀ e, W.role e = some .spent → W'.role e = some .spent) ∧
      w1.fds = Function.update w.fds n.socket none ∧ Current net i queue s w1 W' ∧
      (f (cbRemoveClient, n.closed)).Until SysOp.Waits (linkCall net i) s w1 q s' w' := by
  obtain ⟨lk, hlk, ht, -⟩ := h.serves.owned csocket k hdown
  obtain ⟨l, hl, hck, hserved⟩ := h.ok.relayed hrole
  obtain ⟨hdone, hrun⟩ := relay_resumes hup (h.conns ▸ hl) hdown (h.conns ▸ hlk) hck hrun
  obtain ⟨b, hserved⟩ := hserved hdone
  have hlk' : (W.put c { l with upClosed := true } .spent).conns k = some lk := by
    rw [Paths.put_conns, Function.update_of_ne hck.symm, hlk]
  have hrole' : (W.put c { l with upClosed := true } .spent).role k = some (.relayed r c) := by
    rw [Paths.put_role, Function.update_of_ne hck.symm, hrole]
  have hg : l.Grows { l with upClosed := true } := ⟨rfl, id, id⟩
  have hgk : lk.Grows { lk with down := lk.down ++ l.down } := ⟨rfl, id, id⟩
  have hpeer := Paths.moves_put (R := R) (i := i) hl hg (Or.inr ⟨r, k, b, hserved⟩) .spent
  have hclient := Paths.moves_put (R := R) hlk' hgk (Or.inl ht) (.answered r b)
  refine ⟨_, _, hpeer.trans hclient, ⟨b, Function.update_self ..⟩, fun e he => ?_, rfl, ?_, hrun⟩
  · have hek : e ≠ k := fun hek => by
      rw [hek, hrole] at he
      cases he
    rw [Paths.put_role, Function.update_of_ne hek, Paths.put_role]
    by_cases hec : e = c
    · rw [hec, Function.update_self]
    · rw [Function.update_of_ne hec, he]
  · refine ⟨?_, h.ok.passOn hserved hl hlk, h.knows.same h.knows.wired h.knows.unique rfl rfl, ?_⟩
    · rw [Paths.put_conns, Paths.put_conns, h.conns]
      rfl
    · have hspent := h.serves.put hl hg (unsettled hserved fun hset => by cases hset) .spent
      exact (hspent.put hlk' hgk (unsettled hrole' fun hset => by cases hset) _).sameDown
        (update_none_down hup)

/-- The peer goes on when its answer has come. -/
theorem resume_leads {p : PeerM Unit} (hat : At net i s w.fds W p queue)
    (h : Current net i queue s w W)
    (hrun : p.Resumes SysOp.Waits (linkCall net i) s w q s' w') : Leads net i [] W q s' w' := by
  cases hat with
  | idle => exact hrun.elim
  | @proxying csocket n c k r hup hdown hrole hn =>
    obtain ⟨w1, W', hmoves, ⟨b, hans⟩, -, hfds, hcurrent, hrun⟩ := h.passOn hup hdown hrole hrun
    have hne : csocket ≠ n.socket := fun he => by
      rw [he, hup] at hdown
      cases hdown
    have hdown' : w1.fds csocket = some (.down k) := by
      rw [hfds, Function.update_of_ne hne, hdown]
    have hfinal : Current net i (getRequests s.rt) { s with succ := n.closed } w1 W' :=
      { hcurrent with knows := hcurrent.knows.withSucc (R.names_closed hn) rfl }
    exact (finish_leads (s := { s with succ := n.closed }) hfinal hdown' (Or.inl ⟨r, b, hans⟩)
      hrun).after hmoves
  | @replying csocket hashId req rest n c k e r m hup hdown hrole _ hres hm hctl hspent =>
    obtain ⟨w1, W', hmoves, ⟨b, hans⟩, hkept, hfds, hcurrent, hrun⟩ :=
      h.passOn hup hdown hrole hrun
    have hne : ∀ x d, w.fds x = some (.down d) → w1.fds x = some (.down d) := by
      intro x d hx
      have hxn : x ≠ n.socket := fun he => by
        rw [he, hup] at hx
        cases hx
      rw [hfds, Function.update_of_ne hxn, hx]
    have hmarked : Current net i (Function.update (getRequests s.rt) hashId rest)
        { s with srv := serverCloseSocket s.srv req.socket } w1 W' :=
      { hcurrent with
        knows := hcurrent.knows.withServer _ rfl
        serves := hcurrent.serves.mark (hne _ _ hdown) hans }
    exact (replyLoop_leads (n := n.closed) (s := { s with srv := serverCloseSocket s.srv req.socket }) hmarked
      hres hm (hne _ _ hctl) (hkept e hspent) hrun).after hmoves

end RN2223.Praxis2

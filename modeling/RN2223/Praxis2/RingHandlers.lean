import RN2223.Praxis2.RingSystem

/-!
# The handlers of a peer among others

What each branch of `handle_packet` does to the peer and its connections up to
the point where it is done or waits for an answer, and what it does when the
answer is there.
-/

namespace RN2223.Praxis2
open CMemory

variable {ι : Type} [Fintype ι] {R : LinkedRing ι} {net : RingNet R} {i j : ι} {n : Peer}
  {s s' : PeerState} {w w' : Links ι} {csocket : Int}

/-! ### Programs that wait -/

/-- `proxy_request` from `recvall` on. -/
def relay (csocket : Int) (n : Peer) : PeerM (Int × Peer) := do
  let answerSerial ← recvall n.socket
  let _ ← sendall csocket answerSerial
  let n ← peerDisconnect n
  return (cbRemoveClient, n)

/-- The end of `server_deliver_packet`. -/
def finish (csocket : Int) (rsp : Int) : PeerM Unit :=
  if rsp = cbRemoveClient then serverRemoveClient csocket else return ()

/-- What is left of the handling of a request of the successor when `proxy_request`
returns. -/
def afterProxy (csocket : Int) (x : Int × Peer) : PeerM Unit := do
  modifyState fun s => { s with succ := x.2 }
  finish csocket x.1

/-- The handling of a REPLY with these requests still to be proxied. -/
def replyLoop (csocket : Int) (hashId : UInt16) (rs : List Request) (n : Peer) : PeerM Unit := do
  let _ ← proxyOpenRequests rs n
  modifyState fun s => { s with rt := clearRequests s.rt hashId }
  finish csocket cbRemoveClient

/-- What is left of it when `proxy_request` returns for `r`. -/
def afterReply (csocket : Int) (hashId : UInt16) (r : Request) (rest : List Request)
    (x : Int × Peer) : PeerM Unit := do
  modifyState fun s => { s with srv := serverCloseSocket s.srv r.socket }
  replyLoop csocket hashId rest x.2

theorem proxyRequest_eq (csocket : Int) (p : Packet) (n : Peer) :
    proxyRequest csocket p n = forward n p >>= fun x => relay csocket x.2 := rfl

theorem proxyToSucc_eq (csocket : Int) (p : Packet) :
    proxyToSucc csocket p >>= finish csocket =
      .get fun s => forward s.succ p >>= fun x => relay csocket x.2 >>= afterProxy csocket := by
  rw [proxyToSucc, readState, Prog.read_bind, Prog.get_bind]
  congr 1
  funext s
  rw [proxyRequest_eq]
  simp only [Prog.bind_assoc]
  rfl

theorem replyLoop_cons (csocket : Int) (hashId : UInt16) (r : Request) (rest : List Request)
    (n : Peer) : replyLoop csocket hashId (r :: rest) n =
      forward n r.packet >>= fun x => relay r.socket x.2 >>= afterReply csocket hashId r rest := by
  rw [replyLoop, proxyOpenRequests, proxyRequest_eq]
  simp only [Prog.bind_assoc]
  rfl

theorem handleReply_eq (csocket : Int) (p : Packet) :
    Route.run csocket p .reply >>= finish csocket =
      .get fun s => replyLoop csocket p.hashId (getRequests s.rt p.hashId) (peerFromPacket p) := by
  rw [Route.run, handleReply, readState, Prog.read_bind, Prog.get_bind, Prog.get_bind]
  congr 1
  funext s
  simp only [Prog.bind_assoc]
  rfl

/-! ### Waiting and going on -/

theorem relay_bind {α : Type} (csocket : Int) (n : Peer) (f : Int × Peer → PeerM α) :
    relay csocket n >>= f =
      .call (.recv n.socket) fun answer => .call (.close n.socket) fun _ =>
        .call (.send csocket answer) fun _ => .call (.close n.socket) fun _ =>
          f (cbRemoveClient, n.closed) := rfl

/-- The request is on its way to peer `j`, and the peer waits. -/
theorem relay_waits {p : Packet} (hp : flagSet p.flags pktFlagCtrl = false) (hexact : p.Exact)
    (hres : net.resolve n.hostname n.port = [net.address j]) {f : Int × Peer → PeerM Unit}
    {q : PeerM Unit} (h : (forward n p >>= fun x => relay csocket x.2 >>= f).Until SysOp.Waits
      (linkCall net i) s w q s' w') : ∃ fd c, 0 ≤ fd ∧ w.fds fd = none ∧ w.conns c = none ∧
      q = relay csocket { n with socket := fd, addrLen := 16 } >>= f ∧ s' = s ∧
      w' = (w.setConn c (.sent i j p)).setFd fd (some (.up c)) := by
  obtain ⟨a, s1, w1, hfwd, h⟩ := (Prog.until_bind (neverWaits_forward n p)).mp h
  obtain ⟨fd, c, hpos, hfree, hc, rfl, rfl, rfl⟩ := forward_data_links hp hexact hres hfwd
  obtain ⟨rfl, rfl, rfl⟩ := (Prog.until_blocked trivial).mp h
  exact ⟨fd, c, hpos, hfree, hc, rfl, rfl, rfl⟩

/-- The answer is there: it goes to the client, and the connection is closed. -/
theorem relay_resumes {c k : ℕ} {l lk : Link ι} (hup : w.fds n.socket = some (.up c))
    (hc : w.conns c = some l) (hdown : w.fds csocket = some (.down k)) (hk : w.conns k = some lk)
    (hne : c ≠ k) {f : Int × Peer → PeerM Unit} {q : PeerM Unit}
    (h : (relay csocket n >>= f).Resumes SysOp.Waits (linkCall net i) s w q s' w') :
    l.downClosed = true ∧ (f (cbRemoveClient, n.closed)).Until SysOp.Waits (linkCall net i) s
      (((w.setConn c { l with upClosed := true }).setConn k
        { lk with down := lk.down ++ l.down }).setFd n.socket none) q s' w' := by
  rw [relay_bind] at h
  obtain ⟨answer, w1, ⟨rfl, c', l', hup', hc', hdone, rfl⟩, h⟩ := h
  obtain rfl : c' = c := by
    rw [hup', Option.some.injEq, LinkEnd.up.injEq] at hup
    exact hup
  obtain rfl : l' = l := Option.some.inj (hc'.symm.trans hc)
  refine ⟨hdone, ?_⟩
  have hfds : csocket ≠ n.socket := fun he => by
    rw [he, hup'] at hdown
    cases hdown
  rw [Prog.until_answered id] at h
  obtain ⟨_, w2, rfl, h⟩ := h
  rw [Prog.until_answered id] at h
  obtain ⟨_, w3, ⟨-, rfl⟩, h⟩ := h
  rw [Prog.until_answered id] at h
  obtain ⟨_, w4, rfl, h⟩ := h
  rw [Links.close_up _ hup' hc', Links.write_down _ (c := k) (l := lk) (by simp [hfds, hdown])
    (by simp [hne.symm, hk]), Links.close_none _ (by simp), Links.setConn_setFd] at h
  exact h

/-! ### Handlers that do not wait -/

theorem serverRemoveClient_links {c : ℕ} {l : Link ι} (hfd : w.fds csocket = some (.down c))
    (hc : w.conns c = some l) {a : Unit}
    (he : (serverRemoveClient csocket).Exec (linkCall net i) s w a s' w') :
    (s' = { s with srv := unlinkClient s.srv csocket } ∧
      w' = (w.setConn c { l with downClosed := true }).setFd csocket none) ∨ (s' = s ∧ w' = w) := by
  rw [serverRemoveClient, readState, Prog.read_bind, Prog.exec_get] at he
  split at he
  · left
    rw [Prog.exec_bind] at he
    obtain ⟨_, _, _, hm, hcl⟩ := he
    obtain ⟨rfl, rfl⟩ := Prog.exec_modify.mp hm
    obtain ⟨_, w1, rfl, -, rfl, rfl⟩ := hcl
    exact ⟨rfl, Links.close_down _ hfd hc⟩
  · right
    exact he.2

theorem handleOwnRequest_links {c : ℕ} {l : Link ι} (hfd : w.fds csocket = some (.down c))
    (hc : w.conns c = some l) (r : OwnRequest) {f : Bytes → Option Bytes}
    (hf : Represents s.ht f) {a : Int}
    (he : (handleOwnRequest csocket r.packet).Exec (linkCall net i) s w a s' w') :
    ∃ ht', Represents ht' (r.apply f) ∧ a = cbRemoveClient ∧ s' = { s with ht := ht' } ∧
      w' = w.setConn c { l with down := l.down ++ (r.ack (f r.key)).wire } := by
  obtain ⟨ht', hexec, hrep⟩ := executeRequest_refines r hf
  have hser := packetSerialize_exact fun _ => r.ack_exact (hf.short r.key)
  simp only [handleOwnRequest, readState, modifyState, Prog.read_bind, Prog.exec_get, hexec,
    eval_ok, Prog.ret_bind, Prog.modify_bind, Prog.exec_put, hser, sendall_bind, Prog.exec_call,
    Prog.pure_eq, Prog.exec_ret] at he
  obtain ⟨_, w1, ⟨-, rfl⟩, rfl, rfl, rfl⟩ := he
  exact ⟨ht', hrep, rfl, rfl, Links.write_down _ hfd hc _⟩

theorem lookupPeer_links (hs : R.Wired i s) (hashId : UInt16) {a : Int}
    (he : (lookupPeer hashId).Exec (linkCall net i) s w a s' w') :
    s' = { s with succ := s.succ.closed } ∧ ∃ c, w.conns c = none ∧
      w' = w.setConn c { Link.sent i (R.succ i) (net.lookup i hashId) with upClosed := true } := by
  rw [lookupPeer, readState, Prog.read_bind, Prog.exec_get, Prog.exec_bind] at he
  obtain ⟨ip, s1, w1, hip, he⟩ := he
  obtain ⟨rfl, rfl, rfl⟩ := peerGetIp_links (net.resolve_names hs.self) hip
  have hpack : lookupPacket s1.self (net.address i).ip hashId = net.lookup i hashId := by
    simp only [lookupPacket, hs.self.nodeId, hs.self.port]
    rfl
  rw [hpack, Prog.exec_bind] at he
  obtain ⟨x, s2, w2, hfwd, he⟩ := he
  obtain ⟨rfl, rfl, c, hc, rfl⟩ :=
    forward_ctrl_links (net.lookup_ctrl i hashId) (net.resolve_names hs.succ) hfwd
  obtain ⟨-, rfl, rfl⟩ := he
  exact ⟨rfl, c, hc, rfl⟩

theorem registerRequest_links (hs : R.Wired i s) {p : Packet} (hp : p.Exact) (hashId : UInt16)
    {a : Int} (he : (registerRequest csocket p hashId).Exec (linkCall net i) s w a s' w') :
    ∃ rt', addRequest s.rt hashId csocket p = .ok rt' ∧ a = cbOk ∧
      s' = { s with rt := rt', succ := s.succ.closed } ∧ ∃ c, w.conns c = none ∧
      w' = w.setConn c { Link.sent i (R.succ i) (net.lookup i hashId) with upClosed := true } := by
  obtain ⟨rt', hadd, -⟩ := addRequest_spec s.rt hashId csocket hp
  rw [registerRequest, readState, Prog.read_bind, Prog.exec_get, hadd, eval_ok, Prog.ret_bind,
    modifyState, Prog.modify_bind, Prog.exec_get, Prog.exec_put, Prog.exec_bind] at he
  obtain ⟨_, s1, w1, hlookup, rfl, rfl, rfl⟩ := he
  have hwired : R.Wired i { s with rt := rt' } := ⟨hs.self, hs.pred, hs.succ⟩
  obtain ⟨rfl, hsent⟩ := lookupPeer_links hwired hashId hlookup
  exact ⟨rt', hadd, rfl, rfl, hsent⟩

theorem answerLookup_links {m o : ι} (hn : R.Names n m) (hashId : UInt16) {a : Int}
    (he : (answerLookup (net.lookup o hashId) n).Exec (linkCall net i) s w a s' w') :
    a = cbRemoveClient ∧ s' = s ∧ ∃ c, w.conns c = none ∧
      w' = w.setConn c { Link.sent i o (net.reply m hashId) with upClosed := true } := by
  rw [answerLookup, Prog.exec_bind] at he
  obtain ⟨ip, s1, w1, hip, he⟩ := he
  obtain ⟨rfl, rfl, rfl⟩ := peerGetIp_links (net.resolve_names hn) hip
  have hpack : replyPacket (net.lookup o hashId).hashId n (net.address m).ip =
      net.reply m hashId := by
    simp only [replyPacket, hn.nodeId, hn.port]
    rfl
  rw [hpack, Prog.exec_bind] at he
  obtain ⟨x, s2, w2, hfwd, rfl, rfl, rfl⟩ := he
  obtain ⟨rfl, rfl, c, hc, rfl⟩ :=
    forward_ctrl_links (net.reply_ctrl m hashId) (net.resolve_literal o) hfwd
  exact ⟨rfl, rfl, c, hc, rfl⟩

/-- The LOOKUP is answered with the name of a peer that claims the hash, or goes
on to the successor. -/
theorem handleLookup_links (hs : R.Wired i s) (o : ι) (hashId : UInt16) {a : Int}
    (he : (handleLookup (net.lookup o hashId)).Exec (linkCall net i) s w a s' w') :
    a = cbRemoveClient ∧ (s' = s ∨ s' = { s with succ := s.succ.closed }) ∧
      ∃ p j c, w.conns c = none ∧ w' = w.setConn c { Link.sent i j p with upClosed := true } ∧
        (p = net.lookup o hashId ∨ ∃ m, R.Claims m hashId ∧ p = net.reply m hashId) := by
  rw [handleLookup, readState, Prog.read_bind, Prog.exec_get] at he
  split at he
  · next hself =>
    have hclaim : R.Claims i hashId := by
      rw [hs.pred.nodeId, hs.self.nodeId] at hself
      exact hself
    obtain ⟨rfl, rfl, c, hc, rfl⟩ := answerLookup_links hs.self hashId he
    exact ⟨rfl, Or.inl rfl, _, o, c, hc, rfl, Or.inr ⟨i, hclaim, rfl⟩⟩
  · split at he
    · next hsucc =>
      have hclaim : R.Claims (R.succ i) hashId := by
        rw [hs.self.nodeId, hs.succ.nodeId] at hsucc
        rw [Ring.Claims, R.pred_succ]
        exact hsucc
      obtain ⟨rfl, rfl, c, hc, rfl⟩ := answerLookup_links hs.succ hashId he
      exact ⟨rfl, Or.inl rfl, _, o, c, hc, rfl, Or.inr ⟨_, hclaim, rfl⟩⟩
    · rw [Prog.exec_bind] at he
      obtain ⟨x, s1, w1, hfwd, he⟩ := he
      obtain ⟨rfl, rfl, c, hc, rfl⟩ :=
        forward_ctrl_links (net.lookup_ctrl o hashId) (net.resolve_names hs.succ) hfwd
      obtain ⟨rfl, rfl, rfl⟩ := he
      exact ⟨rfl, Or.inr rfl, _, R.succ i, c, hc, rfl, Or.inl rfl⟩

end RN2223.Praxis2

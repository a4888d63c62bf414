import Mathlib.Data.Set.Finite.Basic
import Mathlib.Order.Interval.Set.Infinite
import RN2223.Praxis2.RingWaits

/-!
# Steps that can be taken

There are always numbers and connections left, so a peer that does not wait can
accept what comes, handle every packet up to the point where it waits, and go on
when its answer is complete.
-/

namespace RN2223.Praxis2
open CMemory

variable {ι : Type} {i j : ι} {w w' w'' : Links ι}

/-! ### Numbers and connections -/

structure Links.Limited (w : Links ι) : Prop where
  fds : {fd | w.fds fd ≠ none}.Finite
  conns : {c | w.conns c ≠ none}.Finite

/-- Connections stay, with the side that opened them, and only finitely many numbers
and connections come along. -/
structure Links.Extends (w w' : Links ι) : Prop where
  source : ∀ c l, w.conns c = some l → ∃ l', w'.conns c = some l' ∧ l'.source = l.source
  limited : w.Limited → w'.Limited

theorem finite_update {α β : Type} [DecidableEq α] {f : α → Option β} (h : {a | f a ≠ none}.Finite)
    (a : α) (v : Option β) : {b | Function.update f a v b ≠ none}.Finite := by
  refine (h.insert a).subset fun b hb => ?_
  by_cases hba : b = a
  · exact Or.inl hba
  · refine Or.inr fun hn => hb ?_
    rw [Function.update_of_ne hba, hn]

namespace Links

theorem Extends.refl (w : Links ι) : w.Extends w := ⟨fun _ l hl => ⟨l, hl, rfl⟩, id⟩

theorem Extends.trans (h : w.Extends w') (h' : w'.Extends w'') : w.Extends w'' where
  source c l hl := by
    obtain ⟨l', hl', hs⟩ := h.source c l hl
    obtain ⟨l'', hl'', hs'⟩ := h'.source c l' hl'
    exact ⟨l'', hl'', hs'.trans hs⟩
  limited hw := h'.limited (h.limited hw)

theorem extends_setFd (w : Links ι) (fd : Int) (e : Option LinkEnd) : w.Extends (w.setFd fd e) where
  source _ l hl := ⟨l, hl, rfl⟩
  limited hw := ⟨finite_update hw.fds fd e, hw.conns⟩

theorem extends_setConn {c : ℕ} {l : Link ι}
    (h : ∀ l0, w.conns c = some l0 → l.source = l0.source) : w.Extends (w.setConn c l) where
  source d l0 hl0 := by
    by_cases hd : d = c
    · rw [hd] at hl0 ⊢
      exact ⟨l, Function.update_self .., h l0 hl0⟩
    · exact ⟨l0, by rw [setConn_conns, Function.update_of_ne hd, hl0], rfl⟩
  limited hw := ⟨hw.fds, finite_update hw.conns c (some l)⟩

theorem extends_relink {c : ℕ} {l l' : Link ι} (hl : w.conns c = some l)
    (hs : l'.source = l.source) : w.Extends (w.setConn c l') := by
  refine extends_setConn fun l0 hl0 => ?_
  rw [hl, Option.some.injEq] at hl0
  rw [hs, hl0]

theorem extends_modify (w : Links ι) (c : ℕ) {f : Link ι → Link ι}
    (hf : ∀ l, (f l).source = l.source) : w.Extends (w.modify c f) where
  source d l hl := by
    by_cases hd : d = c
    · rw [hd] at hl ⊢
      exact ⟨f l, by simp [modify, hl], hf l⟩
    · exact ⟨l, by simp [modify, hd, hl], rfl⟩
  limited hw := ⟨hw.fds, finite_update hw.conns c _⟩

theorem extends_write (w : Links ι) (fd : Int) (buffer : Bytes) : w.Extends (w.write fd buffer) := by
  rw [write]
  split
  · exact w.extends_modify _ fun _ => rfl
  · exact w.extends_modify _ fun _ => rfl
  · exact .refl w

theorem extends_close (w : Links ι) (fd : Int) : w.Extends (w.close fd) := by
  rw [close]
  split
  · refine Extends.trans (w.extends_modify _ ?_) (extends_setFd _ fd none)
    exact fun _ => rfl
  · refine Extends.trans (w.extends_modify _ ?_) (extends_setFd _ fd none)
    exact fun _ => rfl
  · exact w.extends_setFd fd none

theorem Limited.room (h : w.Limited) : (∃ fd, 0 ≤ fd ∧ w.fds fd = none) ∧ ∃ c, w.conns c = none := by
  constructor
  · obtain ⟨fd, hpos, hfree⟩ := (Set.Ici_infinite (0 : Int)).exists_notMem_finite h.fds
    exact ⟨fd, hpos, not_not.mp hfree⟩
  · obtain ⟨c, hc⟩ := h.conns.exists_notMem
    exact ⟨c, not_not.mp hc⟩

end Links

section
variable [Fintype ι] {R : LinkedRing ι} {net : RingNet R}

theorem linkCall_extends (w : Links ι) (o : SysOp) (r : SysRes o) (w' : Links ι)
    (h : linkCall net i w o r w') : w.Extends w' := by
  cases o with
  | getaddrinfo hostname port => exact h.2 ▸ .refl w
  | socket => exact h.2 ▸ w.extends_setFd r _
  | connect fd addr =>
    obtain ⟨-, -, j, c, -, hc, rfl⟩ := h
    have hnew : w.Extends (w.setConn c (.fresh (some i) j)) := by
      refine Links.extends_setConn fun l0 hl0 => ?_
      rw [hc] at hl0
      cases hl0
    exact hnew.trans (Links.extends_setFd _ fd _)
  | send fd buffer => exact h.2 ▸ w.extends_write fd buffer
  | recv fd => exact h.1 ▸ .refl w
  | close fd => exact h ▸ w.extends_close fd
  | crash f => exact h.elim

theorem extends_keeps (w0 : Links ι) (w : Links ι) (o : SysOp) (r : SysRes o) (w' : Links ι)
    (hw : w0.Extends w) (h : linkCall net i w o r w') : w0.Extends w' :=
  hw.trans (linkCall_extends w o r w' h)

/-! ### Handlers get on -/

variable {s : PeerState} {n : Peer} {csocket : Int} {W : Paths ι}

/-- The program gets to its end or to the point where it waits. -/
def Starts (net : RingNet R) (i : ι) (p : PeerM Unit) (s : PeerState) (w : Links ι) : Prop :=
  ∃ q s' w', p.Until SysOp.Waits (linkCall net i) s w q s' w'

/-- The program gets to its end. -/
def Runs {α : Type} (net : RingNet R) (i : ι) (p : PeerM α) (s : PeerState) (w : Links ι) : Prop :=
  ∃ a s' w', p.Exec (linkCall net i) s w a s' w'

theorem starts_bind {α : Type} {p : PeerM α} (hp : NeverWaits p) {f : α → PeerM Unit}
    (hruns : Runs net i p s w)
    (hf : ∀ a s' w', p.Exec (linkCall net i) s w a s' w' → Starts net i (f a) s' w') :
    Starts net i (p >>= f) s w := by
  obtain ⟨a, s1, w1, he⟩ := hruns
  obtain ⟨q, s', w', hrun⟩ := hf a s1 w1 he
  exact ⟨q, s', w', (Prog.until_bind hp).mpr ⟨a, s1, w1, he, hrun⟩⟩

theorem runs_bind {α β : Type} {p : PeerM α} {f : α → PeerM β} (hruns : Runs net i p s w)
    (hf : ∀ a s' w', p.Exec (linkCall net i) s w a s' w' → Runs net i (f a) s' w') :
    Runs net i (p >>= f) s w := by
  obtain ⟨a, s1, w1, he⟩ := hruns
  obtain ⟨b, s', w', hrun⟩ := hf a s1 w1 he
  exact ⟨b, s', w', Prog.exec_bind.mpr ⟨a, s1, w1, he, hrun⟩⟩

theorem runs_ret {α : Type} (a : α) (s : PeerState) (w : Links ι) :
    Runs net i (.ret a : PeerM α) s w := ⟨a, s, w, rfl, rfl, rfl⟩

theorem runs_sendall (fd : Int) (buffer : Bytes) (s : PeerState) (w : Links ι) :
    Runs net i (sendall fd buffer) s w := ⟨0, s, w.write fd buffer, 0, _, ⟨rfl, rfl⟩, rfl, rfl, rfl⟩

theorem runs_peerDisconnect (n : Peer) (s : PeerState) (w : Links ι) :
    Runs net i (peerDisconnect n) s w := ⟨n.closed, s, w.close n.socket, (), _, rfl, rfl, rfl, rfl⟩

def SysOp.Closes : SysOp → Prop
  | .close _ => True
  | _ => False

theorem close_answered (w : Links ι) (o : SysOp) (ho : o.Closes) :
    ∃ r w', linkCall net i w o r w' := by
  cases o with
  | close fd => exact ⟨(), _, rfl⟩
  | _ => exact ho.elim

theorem onlyCloses_serverRemoveClient (csocket : Int) :
    (serverRemoveClient csocket).Only SysOp.Closes := by
  intro s
  show Prog.Only SysOp.Closes (if _ then _ else _ : PeerM _)
  split
  · exact fun _ => ⟨trivial, fun _ => trivial⟩
  · trivial

theorem onlyCloses_removeMarked (cs : List Client) : (removeMarked cs).Only SysOp.Closes := by
  induction cs with
  | nil => trivial
  | cons c next ih =>
    rw [removeMarked]
    split
    · exact Prog.only_bind (onlyCloses_serverRemoveClient _) fun _ => ih
    · exact ih

theorem starts_finish (csocket rsp : Int) (s : PeerState) (w : Links ι) :
    Starts net i (finish csocket rsp) s w := by
  rw [finish]
  split
  · obtain ⟨a, s', w', he⟩ :=
      Prog.exec_of_only close_answered (onlyCloses_serverRemoveClient csocket) s w
    exact ⟨_, s', w', (Prog.until_free (neverWaits_serverRemoveClient csocket)).mpr ⟨a, rfl, he⟩⟩
  · exact ⟨_, s, w, rfl, rfl, rfl⟩

theorem runs_serverSweep (net : RingNet R) (i : ι) (s : PeerState) (w : Links ι) :
    Runs net i serverSweep s w := by
  have honly : serverSweep.Only SysOp.Closes := fun s => onlyCloses_removeMarked s.srv.clients
  exact Prog.exec_of_only close_answered honly s w

theorem runs_peerGetIp (hres : net.resolve n.hostname n.port = [net.address j]) (s : PeerState)
    (w : Links ι) : Runs net i (peerGetIp n) s w := by
  refine ⟨(net.address j).ip, s, w, ?_⟩
  rw [peerGetIp, Prog.exec_bind]
  refine ⟨_, _, _, ⟨_, _, ⟨rfl, rfl⟩, rfl, rfl, rfl⟩, ?_⟩
  rw [hres]
  exact ⟨rfl, rfl, rfl⟩

theorem runs_peerConnect (hres : net.resolve n.hostname n.port = [net.address j])
    (hw : w.Limited) (s : PeerState) : Runs net i (peerConnect n) s w := by
  obtain ⟨⟨fd, hpos, hfree⟩, c, hc⟩ := hw.room
  have hconnect : linkCall net i (w.setFd fd (some .unconnected)) (.connect fd (net.address j)) 0
      (((w.setFd fd (some .unconnected)).setConn c (.fresh (some i) j)).setFd fd (some (.up c))) :=
    ⟨rfl, Function.update_self .., j, c, rfl, hc, rfl⟩
  have hloop : (peerConnectLoop [net.address j] (net.address j) n false : PeerM _).Exec
      (linkCall net i) s w (true, { n with socket := fd, addrLen := 16 }) s
      (((w.setFd fd (some .unconnected)).setConn c (.fresh (some i) j)).setFd fd (some (.up c))) := by
    rw [peerConnectLoop, Prog.exec_bind]
    refine ⟨fd, s, w.setFd fd (some .unconnected), ⟨fd, _, ⟨⟨hpos, hfree⟩, rfl⟩, rfl, rfl, rfl⟩, ?_⟩
    rw [if_neg (Int.not_lt.mpr hpos), Prog.exec_bind]
    exact ⟨0, s, _, ⟨0, _, hconnect, rfl, rfl, rfl⟩, rfl, rfl, rfl⟩
  rw [peerConnect]
  refine runs_bind ⟨_, s, w, _, w, ⟨rfl, rfl⟩, rfl, rfl, rfl⟩ ?_
  rintro res s1 w1 ⟨_, _, ⟨rfl, rfl⟩, rfl, rfl, rfl⟩
  rw [hres]
  exact runs_bind ⟨_, _, _, hloop⟩ fun x s' w' _ => runs_ret _ s' w'

theorem runs_forward {p : Packet} (hp : ∃ b, packetSerialize p = .ok b)
    (hres : net.resolve n.hostname n.port = [net.address j]) (hw : w.Limited) (s : PeerState) :
    Runs net i (forward n p) s w := by
  obtain ⟨b, hb⟩ := hp
  rw [forward, hb, eval_ok, Prog.ret_bind]
  refine runs_bind (runs_peerConnect hres hw s) fun x s1 w1 _ => ?_
  show Runs net i (if x.1 < 0 then _ else _ : PeerM _) s1 w1
  split
  · exact runs_ret _ s1 w1
  · refine runs_bind (runs_sendall _ _ s1 w1) fun sent s2 w2 _ => ?_
    split
    · exact runs_ret _ s2 w2
    · split
      · exact runs_bind (runs_peerDisconnect _ s2 w2) fun n' s3 w3 _ => runs_ret _ s3 w3
      · exact runs_ret _ s2 w2

theorem request_serializes (r : ClientRequest) : ∃ b, packetSerialize r.packet = .ok b :=
  ⟨_, packetSerialize_exact fun _ => r.exact⟩

theorem control_serializes {p : Packet} (hp : flagSet p.flags pktFlagCtrl = true) :
    ∃ b, packetSerialize p = .ok b := ⟨_, packetSerialize_exact (by simp [hp])⟩

/-! ### Every branch of the handler -/

theorem starts_relay {p : Packet} (hp : ∃ b, packetSerialize p = .ok b)
    (hres : net.resolve n.hostname n.port = [net.address j]) (hw : w.Limited)
    (f : Int × Peer → PeerM Unit) :
    Starts net i (forward n p >>= fun x => relay csocket x.2 >>= f) s w := by
  refine starts_bind (neverWaits_forward n p) (runs_forward hp hres hw s) fun a s' w' _ => ?_
  exact ⟨_, s', w', (Prog.until_blocked trivial).mpr ⟨rfl, rfl, rfl⟩⟩

theorem starts_own (hk : Knows R i s W) (r : ClientRequest) (csocket : Int) (w : Links ι) :
    Starts net i (handleOwnRequest csocket r.packet >>= finish csocket) s w := by
  obtain ⟨f, hf, -⟩ := hk.store
  obtain ⟨ht', hexec, -⟩ := executeRequest_refines r.toOwnRequest hf
  have hser := packetSerialize_exact fun _ => r.ack_exact (hf.short r.key)
  refine starts_bind (neverWaits_handleOwnRequest _ _) ?_
    fun a s' w' _ => starts_finish csocket a s' w'
  rw [handleOwnRequest, readState, Prog.read_bind]
  show Runs net i (Sys.eval (executeRequest s.ht r.packet) >>= _) s w
  rw [hexec, eval_ok, Prog.ret_bind]
  show Runs net i (Sys.eval (packetSerialize _) >>= _) { s with ht := ht' } w
  rw [hser, eval_ok, Prog.ret_bind]
  exact runs_bind (runs_sendall _ _ _ w) fun _ s' w' _ => runs_ret _ s' w'

theorem starts_proxy (hs : R.Wired i s) (r : ClientRequest) (csocket : Int) (hw : w.Limited) :
    Starts net i (proxyToSucc csocket r.packet >>= finish csocket) s w := by
  rw [proxyToSucc_eq]
  exact starts_relay (request_serializes r) (net.resolve_names hs.succ) hw _

theorem runs_lookupPeer (hs : R.Wired i s) (hashId : UInt16) (hw : w.Limited) :
    Runs net i (lookupPeer hashId) s w := by
  have hself := net.resolve_names hs.self
  rw [lookupPeer, readState, Prog.read_bind]
  show Runs net i (peerGetIp s.self >>= _) s w
  refine runs_bind (runs_peerGetIp hself s w) fun ip s1 w1 hip => ?_
  obtain ⟨rfl, rfl, rfl⟩ := peerGetIp_links hself hip
  have hpack : lookupPacket s1.self (net.address i).ip hashId = net.lookup i hashId := by
    simp only [lookupPacket, hs.self.nodeId, hs.self.port]
    rfl
  rw [hpack]
  refine runs_bind (runs_forward (control_serializes (net.lookup_ctrl i hashId))
    (net.resolve_names hs.succ) hw s1) fun x s2 w2 _ => ?_
  show Runs net i (if x.1 < 0 then _ else _ : PeerM _) { s2 with succ := x.2 } w2
  split <;> exact runs_ret _ _ w2

theorem starts_register (hs : R.Wired i s) (r : ClientRequest) (hashId : UInt16) (csocket : Int)
    (hw : w.Limited) :
    Starts net i (registerRequest csocket r.packet hashId >>= finish csocket) s w := by
  obtain ⟨rt', hadd, -⟩ := addRequest_spec s.rt hashId csocket r.exact
  refine starts_bind (neverWaits_registerRequest _ _ _) ?_
    fun a s' w' _ => starts_finish csocket a s' w'
  have hwired : R.Wired i { s with rt := rt' } := ⟨hs.self, hs.pred, hs.succ⟩
  rw [registerRequest, readState, Prog.read_bind]
  show Runs net i (Sys.eval (addRequest s.rt hashId csocket r.packet) >>= _) s w
  rw [hadd, eval_ok, Prog.ret_bind]
  show Runs net i (lookupPeer hashId >>= _) { s with rt := rt' } w
  exact runs_bind (runs_lookupPeer hwired hashId hw) fun a s' w' _ => runs_ret _ s' w'

theorem runs_answerLookup {m o : ι} (hn : R.Names n m) (hashId : UInt16) (hw : w.Limited)
    (s : PeerState) : Runs net i (answerLookup (net.lookup o hashId) n) s w := by
  have hres := net.resolve_names hn
  refine runs_bind (runs_peerGetIp hres s w) fun ip s1 w1 hip => ?_
  obtain ⟨rfl, rfl, rfl⟩ := peerGetIp_links hres hip
  have hpack : replyPacket (net.lookup o hashId).hashId n (net.address m).ip =
      net.reply m hashId := by
    simp only [replyPacket, hn.nodeId, hn.port]
    rfl
  rw [hpack]
  exact runs_bind (runs_forward (control_serializes (net.reply_ctrl m hashId))
    (net.resolve_literal o) hw s1) fun x s2 w2 _ => runs_ret _ s2 w2

theorem starts_lookup (hs : R.Wired i s) (o : ι) (hashId : UInt16) (csocket : Int)
    (hw : w.Limited) :
    Starts net i (handleLookup (net.lookup o hashId) >>= finish csocket) s w := by
  refine starts_bind (neverWaits_handleLookup _) ?_ fun a s' w' _ => starts_finish csocket a s' w'
  rw [handleLookup, readState, Prog.read_bind]
  show Runs net i (if _ then _ else _ : PeerM _) s w
  split
  · exact runs_answerLookup hs.self hashId hw s
  · split
    · exact runs_answerLookup hs.succ hashId hw s
    · refine runs_bind (runs_forward (control_serializes (net.lookup_ctrl o hashId))
        (net.resolve_names hs.succ) hw s) fun x s2 w2 _ => ?_
      exact ⟨_, _, w2, rfl, rfl, rfl⟩

theorem starts_replyLoop (csocket : Int) (hashId : UInt16) {rs : List Request}
    (hrs : ∀ req ∈ rs, ∃ r : ClientRequest, req.packet = r.packet)
    (hres : net.resolve n.hostname n.port = [net.address j]) (hw : w.Limited) (s : PeerState) :
    Starts net i (replyLoop csocket hashId rs n) s w := by
  cases rs with
  | nil => exact starts_finish csocket cbRemoveClient { s with rt := clearRequests s.rt hashId } w
  | cons req rest =>
    obtain ⟨r, hr⟩ := hrs req List.mem_cons_self
    rw [replyLoop_cons, hr]
    exact starts_relay (request_serializes r) hres hw _

theorem starts_of_route {p : Packet} {r : Route} (hr : route s p = .ok r)
    (h : Starts net i (r.run csocket p >>= finish csocket) s w) :
    Starts net i (serverDeliverPacket csocket p) s w := by
  obtain ⟨q, s', w', hrun⟩ := h
  refine ⟨q, s', w', ?_⟩
  change (handlePacket csocket p >>= finish csocket).Until _ _ s w q s' w'
  rw [← Prog.until_atState_bind, handlePacket_atState hr, Prog.until_atState_bind]
  exact hrun

theorem starts_data (hk : Knows R i s W) (r : ClientRequest) (csocket : Int) (hw : w.Limited) :
    Starts net i (serverDeliverPacket csocket r.packet) s w := by
  have hroute := route_wired hk.wired r.exact r.isData
  split at hroute
  · exact starts_of_route hroute (starts_own hk r csocket w)
  · split at hroute
    · exact starts_of_route hroute (starts_proxy hk.wired r csocket hw)
    · exact starts_of_route hroute (starts_register hk.wired r _ csocket hw)

/-- Whatever has come on a connection of the peer can be handled. -/
theorem starts_deliver {c : ℕ} {l : Link ι} {p : Packet}
    (h : Current net i (getRequests s.rt) s w W) (hl : w.conns c = some l)
    (hp : packetDecode l.up l.up.length = .ok (some p)) (hw : w.Limited) (csocket : Int) :
    Starts net i (serverDeliverPacket csocket p) s (w.setConn c { l with up := [] }) := by
  have hread : w.Extends (w.setConn c { l with up := [] }) := Links.extends_relink hl rfl
  have hw' := hread.limited hw
  obtain ⟨r, -, rfl⟩ | ⟨r, k, -, rfl⟩ | ⟨-, hcontrol⟩ := h.ok.readable (h.conns ▸ hl) hp
  · exact starts_data h.knows r csocket hw'
  · exact starts_data h.knows r csocket hw'
  · cases hcontrol with
    | lookup o hashId =>
      exact starts_of_route (route_lookup net s o hashId)
        (starts_lookup h.knows.wired o hashId csocket hw')
    | reply m hashId hm =>
      refine starts_of_route (route_reply net s m hashId) ?_
      rw [handleReply_eq]
      exact starts_replyLoop csocket hashId (h.serves.requests hashId) (net.resolve_literal m) hw' s

/-- A peer whose answer is complete goes on. -/
theorem relay_goesOn (csocket : Int) {c : ℕ} {l : Link ι} (hup : w.fds n.socket = some (.up c))
    (hl : w.conns c = some l) (hdone : l.downClosed = true) {f : Int × Peer → PeerM Unit}
    (hf : ∀ w', w.Extends w' → Starts net i (f (cbRemoveClient, n.closed)) s w') :
    ∃ q s' w', (relay csocket n >>= f).Resumes SysOp.Waits (linkCall net i) s w q s' w' := by
  have hw : w.Extends (((w.close n.socket).write csocket l.down).close n.socket) :=
    ((w.extends_close _).trans (Links.extends_write _ _ _)).trans (Links.extends_close _ _)
  obtain ⟨q, s', w', hrun⟩ := hf _ hw
  refine ⟨q, s', w', l.down, w, ⟨rfl, c, l, hup, hl, hdone, rfl⟩, ?_⟩
  refine (Prog.until_answered id).mpr ⟨(), _, rfl, ?_⟩
  refine (Prog.until_answered id).mpr ⟨0, _, ⟨rfl, rfl⟩, ?_⟩
  exact (Prog.until_answered id).mpr ⟨(), _, rfl, hrun⟩

end

namespace RingState
variable [Fintype ι] [DecidableEq ι] {R : LinkedRing ι} {net : RingNet R} {x x' : RingState ι}

/-- In a reachable state there are always numbers and connections left, and a client's
connection is one that no peer opened. -/
structure Opens (x : RingState ι) : Prop where
  limited : ∀ i, (x.links i).Limited
  clients : ∀ c r, .invoke c r ∈ x.history → ∃ l, x.conns c = some l ∧ l.source = none

omit [Fintype ι] in
theorem Opens.after {q : PeerM Unit} {s' : PeerState} {w' : Links ι} (executed : List Packet)
    (h : Opens x) (hw : (x.links i).Extends w') :
    Opens { x.after i q s' w' with executed := executed } where
  limited a := by
    have hlim := hw.limited (h.limited i)
    by_cases ha : a = i
    · rw [ha]
      simpa [RingState.after, links] using hlim
    · have hold := (h.limited a).fds
      refine ⟨?_, hlim.conns⟩
      simpa [RingState.after, links, ha] using hold
  clients c r hr := by
    obtain ⟨l, hl, hs⟩ := h.clients c r hr
    obtain ⟨l', hl', hs'⟩ := hw.source c l hl
    exact ⟨l', hl', hs'.trans hs⟩

omit [Fintype ι] [DecidableEq ι] in
theorem Opens.client {c : ℕ} {l : Link ι} {history : List (CallEvent ℕ ClientRequest Bytes)}
    (h : Opens x) (hsource : ∀ l0, x.conns c = some l0 → l.source = l0.source)
    (hhistory : ∀ d r, .invoke d r ∈ history → .invoke d r ∈ x.history ∨ (d = c ∧ l.source = none)) :
    Opens { x with conns := Function.update x.conns c (some l), history := history } where
  limited i := (Links.extends_setConn (w := x.links i) hsource).limited (h.limited i)
  clients d r hr := by
    by_cases hd : d = c
    · refine ⟨l, by rw [hd]; exact Function.update_self .., ?_⟩
      obtain hold | ⟨-, hs⟩ := hhistory d r hr
      · obtain ⟨l0, hl0, hs0⟩ := h.clients d r hold
        exact (hsource l0 (hd ▸ hl0)).trans hs0
      · exact hs
    · obtain hold | ⟨hdc, -⟩ := hhistory d r hr
      · obtain ⟨l0, hl0, hs0⟩ := h.clients d r hold
        exact ⟨l0, (Function.update_of_ne hd ..).trans hl0, hs0⟩
      · exact absurd hdc hd

omit [DecidableEq ι] in
theorem start_opens (R : LinkedRing ι) : Opens (start R) where
  limited i := by
    refine ⟨(Set.toFinite {0, 1, 2, 3}).subset fun fd hfd => ?_, ?_⟩
    · by_contra hother
      simp only [Set.mem_insert_iff, Set.mem_singleton_iff, not_or] at hother
      exact hfd (by simp [links, start, hother])
    · exact Set.finite_empty.subset fun c hc => hc rfl
  clients c r hr := by cases hr

theorem Opens.step {e : RingEvent ι} (h : Opens x) (hs : Step net x e x') : Opens x' := by
  cases hs with
  | invoke c r entry hc =>
    refine h.client (fun l0 hl0 => ?_) fun d r' hr' => ?_
    · rw [hc] at hl0
      cases hl0
    · obtain hold | hnew := List.mem_append.mp hr'
      · exact Or.inl hold
      · cases List.mem_singleton.mp hnew
        exact Or.inr ⟨rfl, rfl⟩
  | accept i c fd l s' w' hidle hc ht hnew hfd hrun =>
    have haccept : (x.links i).Extends ((x.links i).setConn c { l with accepted := true }) :=
      Links.extends_relink hc rfl
    exact h.after x.executed (Prog.exec_keeps (extends_keeps (x.links i))
      (haccept.trans (Links.extends_setFd _ fd _)) hrun)
  | deliver i cl p c l q s' w' hidle hcl hfd hc hp hrun =>
    have hread : (x.links i).Extends ((x.links i).setConn c { l with up := [] }) :=
      Links.extends_relink hc rfl
    exact h.after _ (Prog.until_keeps (extends_keeps (x.links i)) hread hrun)
  | resume i p q s' w' hwait hrun =>
    exact h.after x.executed (Prog.resumes_keeps (extends_keeps (x.links i)) (.refl _) hrun)
  | sweep i s' w' hidle hrun =>
    exact h.after x.executed (Prog.exec_keeps (extends_keeps (x.links i)) (.refl _) hrun)
  | hangup i cl c l s' w' hidle hcl hfd hc hup hclosed hrun =>
    exact h.after x.executed (Prog.exec_keeps (extends_keeps (x.links i)) (.refl _) hrun)
  | respond c l hc hsource hopen hdone =>
    refine h.client (fun l0 hl0 => ?_) fun d r' hr' => ?_
    · rw [hc, Option.some.injEq] at hl0
      rw [← hl0]
    · obtain hold | hnew := List.mem_append.mp hr'
      · exact Or.inl hold
      · cases List.mem_singleton.mp hnew

theorem reachable_opens (h : Reachable net x) : Opens x := by
  induction h with
  | start => exact start_opens R
  | step e _ hs ih => exact ih.step hs

end RingState

end RN2223.Praxis2

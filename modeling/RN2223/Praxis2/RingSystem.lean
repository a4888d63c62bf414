import RN2223.Lib.Linear
import RN2223.Praxis2.OwnRequest
import RN2223.Praxis2.Lookup

/-!
# A ring of peers at work

Single-threaded peers and the connections between them and to their clients. A
peer runs a handler until it is done or waits in `recvall`, which is the only
call that waits; what it has sent by then is received as late as you like. Any
number of clients come to any peers at any time, send one request each and wait.
-/

namespace RN2223.Praxis2
open CMemory

variable {ι : Type}

/-! ### Connections -/

/-- What is behind an open number: a standard stream, the listening socket, a
socket without connection, or the peer's end of a connection it opened or
accepted. -/
inductive LinkEnd where
  | std
  | listener
  | unconnected
  | up (c : ℕ)
  | down (c : ℕ)
  deriving DecidableEq, Repr

/-- A connection of a client or a peer to a peer, with the bytes that are on
their way to the target and the bytes that came back. -/
structure Link (ι : Type) where
  source : Option ι
  target : ι
  up : Bytes
  upClosed : Bool
  accepted : Bool
  down : Bytes
  downClosed : Bool

def Link.fresh (source : Option ι) (target : ι) : Link ι :=
  ⟨source, target, [], false, false, [], false⟩

/-- The numbers of one peer and the connections of all. -/
structure Links (ι : Type) where
  fds : Int → Option LinkEnd
  conns : ℕ → Option (Link ι)

namespace Links

def setFd (w : Links ι) (fd : Int) (e : Option LinkEnd) : Links ι :=
  { w with fds := Function.update w.fds fd e }

def setConn (w : Links ι) (c : ℕ) (l : Link ι) : Links ι :=
  { w with conns := Function.update w.conns c (some l) }

def modify (w : Links ι) (c : ℕ) (f : Link ι → Link ι) : Links ι :=
  { w with conns := Function.update w.conns c ((w.conns c).map f) }

def write (w : Links ι) (fd : Int) (buffer : Bytes) : Links ι :=
  match w.fds fd with
  | some (.up c) => w.modify c fun l => { l with up := l.up ++ buffer }
  | some (.down c) => w.modify c fun l => { l with down := l.down ++ buffer }
  | _ => w

def close (w : Links ι) (fd : Int) : Links ι :=
  match w.fds fd with
  | some (.up c) => (w.modify c fun l => { l with upClosed := true }).setFd fd none
  | some (.down c) => (w.modify c fun l => { l with downClosed := true }).setFd fd none
  | _ => w.setFd fd none

end Links

section
variable [Fintype ι] {R : LinkedRing ι} (net : RingNet R)

/-- The calls of peer `i`. The stream of a connection it opened ends when the
other side closes it. -/
def linkCall (i : ι) (w : Links ι) : (o : SysOp) → SysRes o → Links ι → Prop
  | .getaddrinfo hostname port, r, w' => r = net.resolve hostname port ∧ w' = w
  | .socket, r, w' => (0 ≤ r ∧ w.fds r = none) ∧ w' = w.setFd r (some .unconnected)
  | .connect fd addr, r, w' => r = 0 ∧ w.fds fd = some .unconnected ∧
      ∃ j c, net.address j = addr ∧ w.conns c = none ∧
        w' = (w.setConn c (.fresh (some i) j)).setFd fd (some (.up c))
  | .send fd buffer, r, w' => r = 0 ∧ w' = w.write fd buffer
  | .recv fd, r, w' => w' = w ∧ ∃ c l, w.fds fd = some (.up c) ∧ w.conns c = some l ∧
      l.downClosed = true ∧ r = l.down
  | .close fd, _, w' => w' = w.close fd
  | .crash _, _, _ => False

end

def SysOp.Waits : SysOp → Prop
  | .recv _ => True
  | _ => False

namespace Links
variable (w : Links ι)

@[simp] theorem setFd_fds (fd : Int) (e : Option LinkEnd) :
    (w.setFd fd e).fds = Function.update w.fds fd e := rfl

@[simp] theorem setFd_conns (fd : Int) (e : Option LinkEnd) : (w.setFd fd e).conns = w.conns := rfl

@[simp] theorem setConn_fds (c : ℕ) (l : Link ι) : (w.setConn c l).fds = w.fds := rfl

@[simp] theorem setConn_conns (c : ℕ) (l : Link ι) :
    (w.setConn c l).conns = Function.update w.conns c (some l) := rfl

theorem setFd_setFd (fd : Int) (e e' : Option LinkEnd) :
    (w.setFd fd e).setFd fd e' = w.setFd fd e' := by
  simp [setFd]

theorem setFd_eq_self {fd : Int} {e : Option LinkEnd} (h : w.fds fd = e) : w.setFd fd e = w := by
  subst h
  simp [setFd]

theorem setConn_setFd (fd : Int) (e : Option LinkEnd) (c : ℕ) (l : Link ι) :
    (w.setFd fd e).setConn c l = (w.setConn c l).setFd fd e := rfl

theorem setConn_setConn (c : ℕ) (l l' : Link ι) : (w.setConn c l).setConn c l' = w.setConn c l' := by
  simp [setConn]

theorem modify_eq {c : ℕ} {l : Link ι} (h : w.conns c = some l) (f : Link ι → Link ι) :
    w.modify c f = w.setConn c (f l) := by
  simp [modify, setConn, h]

theorem write_up {fd : Int} {c : ℕ} {l : Link ι} (hfd : w.fds fd = some (.up c))
    (h : w.conns c = some l) (b : Bytes) :
    w.write fd b = w.setConn c { l with up := l.up ++ b } := by
  simp only [write, hfd, w.modify_eq h]

theorem write_down {fd : Int} {c : ℕ} {l : Link ι} (hfd : w.fds fd = some (.down c))
    (h : w.conns c = some l) (b : Bytes) :
    w.write fd b = w.setConn c { l with down := l.down ++ b } := by
  simp only [write, hfd, w.modify_eq h]

theorem close_up {fd : Int} {c : ℕ} {l : Link ι} (hfd : w.fds fd = some (.up c))
    (h : w.conns c = some l) :
    w.close fd = (w.setConn c { l with upClosed := true }).setFd fd none := by
  simp only [close, hfd, w.modify_eq h]

theorem close_down {fd : Int} {c : ℕ} {l : Link ι} (hfd : w.fds fd = some (.down c))
    (h : w.conns c = some l) :
    w.close fd = (w.setConn c { l with downClosed := true }).setFd fd none := by
  simp only [close, hfd, w.modify_eq h]

theorem close_none {fd : Int} (hfd : w.fds fd = none) : w.close fd = w := by
  simp only [close, hfd]
  exact w.setFd_eq_self hfd

end Links

/-! ### Reaching another peer -/

section
variable [Fintype ι] {R : LinkedRing ι} {net : RingNet R} {i j : ι} {n : Peer} {s s' : PeerState}
  {w w' : Links ι}

def Link.sent (source target : ι) (p : Packet) : Link ι :=
  { Link.fresh (some source) target with up := p.wire }

theorem peerGetIp_links (hres : net.resolve n.hostname n.port = [net.address j]) {a : UInt32}
    (he : (peerGetIp n : PeerM _).Exec (linkCall net i) s w a s' w') :
    a = (net.address j).ip ∧ s' = s ∧ w' = w := by
  rw [peerGetIp, Prog.exec_bind] at he
  obtain ⟨res, _, _, ⟨_, _, ⟨rfl, rfl⟩, rfl, rfl, rfl⟩, he⟩ := he
  rw [hres] at he
  exact he

theorem peerConnect_links (hres : net.resolve n.hostname n.port = [net.address j])
    {a : Int × Peer} (he : (peerConnect n : PeerM _).Exec (linkCall net i) s w a s' w') :
    ∃ fd c, 0 ≤ fd ∧ w.fds fd = none ∧ w.conns c = none ∧
      a = (0, { n with socket := fd, addrLen := 16 }) ∧ s' = s ∧
      w' = (w.setConn c (.fresh (some i) j)).setFd fd (some (.up c)) := by
  rw [peerConnect, Prog.exec_bind] at he
  obtain ⟨res, _, _, ⟨_, _, ⟨rfl, rfl⟩, rfl, rfl, rfl⟩, he⟩ := he
  rw [hres] at he
  obtain ⟨⟨connected, n1⟩, s1, w1, hloop, rfl, rfl, rfl⟩ := Prog.exec_bind.mp he
  rw [peerConnectLoop, Prog.exec_bind] at hloop
  obtain ⟨fd, _, _, ⟨_, _, ⟨⟨hpos, hfree⟩, rfl⟩, rfl, rfl, rfl⟩, hloop⟩ := hloop
  rw [if_neg (Int.not_lt.mpr hpos), Prog.exec_bind] at hloop
  obtain ⟨status, _, _, ⟨_, _, ⟨rfl, -, j', c, hj, hc, rfl⟩, rfl, rfl, rfl⟩, hloop⟩ := hloop
  obtain rfl : j' = j := net.address_injective hj
  obtain ⟨hret, rfl, rfl⟩ := hloop
  cases hret
  refine ⟨fd, c, hpos, hfree, hc, rfl, rfl, ?_⟩
  rw [Links.setConn_setFd, Links.setFd_setFd]

theorem forward_ctrl_links {p : Packet} (hp : flagSet p.flags pktFlagCtrl = true)
    (hres : net.resolve n.hostname n.port = [net.address j]) {a : Int × Peer}
    (he : (forward n p).Exec (linkCall net i) s w a s' w') :
    a = (0, n.closed) ∧ s' = s ∧ ∃ c, w.conns c = none ∧
      w' = w.setConn c { Link.sent i j p with upClosed := true } := by
  have hser : packetSerialize p = .ok p.wire := packetSerialize_exact (by simp [hp])
  rw [forward, hser, eval_ok, Prog.ret_bind, Prog.exec_bind] at he
  obtain ⟨a1, s1, w1, hconn, he⟩ := he
  obtain ⟨fd, c, hpos, hfree, hc, rfl, rfl, rfl⟩ := peerConnect_links hres hconn
  dsimp only at he
  rw [if_neg (Int.lt_irrefl 0), Prog.exec_bind] at he
  obtain ⟨sent, _, _, ⟨_, _, ⟨rfl, rfl⟩, rfl, rfl, rfl⟩, he⟩ := he
  rw [if_neg (Int.lt_irrefl 0), if_pos hp] at he
  obtain ⟨_, _, rfl, rfl, rfl, rfl⟩ := he
  refine ⟨rfl, rfl, c, hc, ?_⟩
  have hopen : ((w.setConn c (.fresh (some i) j)).setFd fd (some (.up c))).fds fd =
      some (.up c) := by simp
  have hlink : ((w.setConn c (.fresh (some i) j)).setFd fd (some (.up c))).conns c =
      some (.fresh (some i) j) := by simp
  rw [Links.write_up _ hopen hlink, Links.close_up _ (c := c) (l := Link.sent i j p)
    (by simp) (by simp [Link.sent, Link.fresh])]
  simp only [Links.setConn_setFd, Links.setFd_setFd, Links.setConn_setConn]
  exact Links.setFd_eq_self _ hfree

/-- A data packet leaves the connection open. -/
theorem forward_data_links {p : Packet} (hp : flagSet p.flags pktFlagCtrl = false)
    (hexact : p.Exact) (hres : net.resolve n.hostname n.port = [net.address j]) {a : Int × Peer}
    (he : (forward n p).Exec (linkCall net i) s w a s' w') :
    ∃ fd c, 0 ≤ fd ∧ w.fds fd = none ∧ w.conns c = none ∧
      a = (0, { n with socket := fd, addrLen := 16 }) ∧ s' = s ∧
      w' = (w.setConn c (.sent i j p)).setFd fd (some (.up c)) := by
  have hser : packetSerialize p = .ok p.wire := packetSerialize_exact fun _ => hexact
  rw [forward, hser, eval_ok, Prog.ret_bind, Prog.exec_bind] at he
  obtain ⟨a1, s1, w1, hconn, he⟩ := he
  obtain ⟨fd, c, hpos, hfree, hc, rfl, rfl, rfl⟩ := peerConnect_links hres hconn
  dsimp only at he
  rw [if_neg (Int.lt_irrefl 0), Prog.exec_bind] at he
  obtain ⟨sent, _, _, ⟨_, _, ⟨rfl, rfl⟩, rfl, rfl, rfl⟩, he⟩ := he
  rw [if_neg (Int.lt_irrefl 0), if_neg (by simp [hp])] at he
  obtain ⟨rfl, rfl, rfl⟩ := he
  refine ⟨fd, c, hpos, hfree, hc, rfl, rfl, ?_⟩
  have hopen : ((w.setConn c (.fresh (some i) j)).setFd fd (some (.up c))).fds fd =
      some (.up c) := by simp
  have hlink : ((w.setConn c (.fresh (some i) j)).setFd fd (some (.up c))).conns c =
      some (.fresh (some i) j) := by simp
  rw [Links.write_up _ hopen hlink, Links.setConn_setFd, Links.setConn_setConn]
  rfl

/-! ### Programs that do not wait -/

abbrev NeverWaits {α : Type} (p : PeerM α) : Prop := p.Only fun o => ¬ o.Waits

theorem neverWaits_eval {α : Type} (e : Except Fault α) : NeverWaits (Sys.eval e : PeerM α) := by
  cases e with
  | ok a => trivial
  | error f => exact ⟨id, fun r => r.elim⟩

theorem neverWaits_modify (f : PeerState → PeerState) : NeverWaits (modifyState f) :=
  fun _ => trivial

theorem neverWaits_peerGetIp (n : Peer) : NeverWaits (peerGetIp n : PeerM _) := by
  refine ⟨id, fun res => ?_⟩
  cases res <;> trivial

theorem neverWaits_peerConnectLoop (pas : List SockAddr) (res : SockAddr) (p : Peer) (c : Bool) :
    NeverWaits (peerConnectLoop pas res p c : PeerM _) := by
  induction pas generalizing res p c with
  | nil => trivial
  | cons pa pas ih =>
    refine ⟨id, fun fd => ?_⟩
    show NeverWaits (if fd < 0 then _ else _ : PeerM _)
    split
    · exact ih res _ c
    · refine ⟨id, fun status => ?_⟩
      show NeverWaits (if status < 0 then _ else _ : PeerM _)
      split
      · exact ih res _ c
      · exact ih _ _ true

theorem neverWaits_peerConnect (n : Peer) : NeverWaits (peerConnect n : PeerM _) := by
  rw [peerConnect, peerLookup, getaddrinfo_bind]
  refine ⟨id, fun res => ?_⟩
  cases res with
  | nil => trivial
  | cons res rest => exact Prog.only_bind (neverWaits_peerConnectLoop _ _ _ _) fun _ => trivial

theorem neverWaits_forward (n : Peer) (p : Packet) : NeverWaits (forward n p) := by
  refine Prog.only_bind (neverWaits_eval _) fun b => Prog.only_bind (neverWaits_peerConnect n) ?_
  intro x
  show NeverWaits (if x.1 < 0 then _ else _ : PeerM _)
  split
  · trivial
  · refine ⟨id, fun sent => ?_⟩
    show NeverWaits (if sent < 0 then _ else _ : PeerM _)
    split
    · trivial
    · split
      · exact ⟨id, fun _ => trivial⟩
      · trivial

theorem neverWaits_serverRemoveClient (csocket : Int) : NeverWaits (serverRemoveClient csocket) := by
  intro s
  show NeverWaits (if _ then _ else _ : PeerM _)
  split
  · exact fun _ => ⟨id, fun _ => trivial⟩
  · trivial

theorem neverWaits_handleOwnRequest (csocket : Int) (p : Packet) :
    NeverWaits (handleOwnRequest csocket p) := by
  rw [handleOwnRequest, readState, Prog.read_bind]
  intro s
  exact Prog.only_bind (neverWaits_eval _) fun _ => Prog.only_bind (neverWaits_modify _) fun _ =>
    Prog.only_bind (neverWaits_eval _) fun _ => ⟨id, fun _ => trivial⟩

theorem neverWaits_lookupPeer (hashId : UInt16) : NeverWaits (lookupPeer hashId) := by
  rw [lookupPeer, readState, Prog.read_bind]
  intro s
  refine Prog.only_bind (neverWaits_peerGetIp _) fun ip =>
    Prog.only_bind (neverWaits_forward _ _) fun x _ => ?_
  show NeverWaits (if x.1 < 0 then _ else _ : PeerM _)
  split <;> trivial

theorem neverWaits_registerRequest (csocket : Int) (p : Packet) (hashId : UInt16) :
    NeverWaits (registerRequest csocket p hashId) := by
  rw [registerRequest, readState, Prog.read_bind]
  intro s
  exact Prog.only_bind (neverWaits_eval _) fun _ => Prog.only_bind (neverWaits_modify _) fun _ =>
    Prog.only_bind (neverWaits_lookupPeer _) fun _ => trivial

theorem neverWaits_answerLookup (p : Packet) (n : Peer) : NeverWaits (answerLookup p n) :=
  Prog.only_bind (neverWaits_peerGetIp n) fun _ =>
    Prog.only_bind (neverWaits_forward _ _) fun _ => trivial

theorem neverWaits_handleLookup (p : Packet) : NeverWaits (handleLookup p) := by
  intro s
  show NeverWaits (if _ then _ else _ : PeerM _)
  split
  · exact neverWaits_answerLookup _ _
  · split
    · exact neverWaits_answerLookup _ _
    · exact Prog.only_bind (neverWaits_forward _ _) fun _ _ => trivial

end

/-! ### The system -/

/-- What client.c sends: one method, buffers that fit, and the fields of control
packets as `packet_new` leaves them. -/
structure ClientRequest extends OwnRequest where
  onWire : packet.onWire = packet

/-- `running` has the program of a peer that waits in `recvall`; `executed` has
the packets `handle_own_request` was run for, `history` the requests and answers
of the clients, each by its connection. -/
structure RingState (ι : Type) where
  peer : ι → PeerState
  running : ι → Option (PeerM Unit)
  fds : ι → Int → Option LinkEnd
  conns : ℕ → Option (Link ι)
  executed : List Packet
  history : List (CallEvent ℕ ClientRequest Bytes)

inductive RingEvent (ι : Type) where
  | invoke (c : ℕ) (r : ClientRequest) (e : ι)
  | accept (i : ι) (c : ℕ) (fd : Int)
  | deliver (i : ι) (cl : Client) (p : Packet)
  | resume (i : ι)
  | sweep (i : ι)
  | hangup (i : ι) (cl : Client)
  | respond (c : ℕ)

def executes (s : PeerState) (p : Packet) : List Packet :=
  match route s p with
  | .ok .own => [p]
  | _ => []

namespace RingState

def links (x : RingState ι) (i : ι) : Links ι := ⟨x.fds i, x.conns⟩

def after [DecidableEq ι] (x : RingState ι) (i : ι) (q : PeerM Unit) (s' : PeerState)
    (w' : Links ι) : RingState ι :=
  { x with
    peer := Function.update x.peer i s'
    running := Function.update x.running i q.unfinished
    fds := Function.update x.fds i w'.fds
    conns := w'.conns }

/-- Only a peer that does not wait looks after its connections: it accepts one,
handles a packet, sweeps, or removes a client at the end of its stream. Packets come
whole and of any length; which of them a server can receive, and that it receives them
in pieces, is added where the ring reads bytes. -/
inductive Step [Fintype ι] [DecidableEq ι] {R : LinkedRing ι} (net : RingNet R) :
    RingState ι → RingEvent ι → RingState ι → Prop where
  | invoke (x : RingState ι) (c : ℕ) (r : ClientRequest) (e : ι) (hc : x.conns c = none) :
    Step net x (.invoke c r e) { x with
      conns := Function.update x.conns c (some { Link.fresh none e with up := r.packet.wire })
      history := x.history ++ [.invoke c r] }
  | accept (x : RingState ι) (i : ι) (c : ℕ) (fd : Int) (l : Link ι) (s' : PeerState)
    (w' : Links ι) (hidle : x.running i = none) (hc : x.conns c = some l) (htarget : l.target = i)
    (hnew : l.accepted = false) (hfd : 0 ≤ fd ∧ x.fds i fd = none)
    (hrun : (serverAddClient fd).Exec (linkCall net i) (x.peer i)
      (((x.links i).setConn c { l with accepted := true }).setFd fd (some (.down c))) () s' w') :
    Step net x (.accept i c fd) (x.after i (.ret ()) s' w')
  | deliver (x : RingState ι) (i : ι) (cl : Client) (p : Packet) (c : ℕ) (l : Link ι)
    (q : PeerM Unit) (s' : PeerState) (w' : Links ι) (hidle : x.running i = none)
    (hcl : cl ∈ (x.peer i).srv.clients) (hfd : x.fds i cl.socket = some (.down c))
    (hc : x.conns c = some l) (hp : packetDecode l.up l.up.length = .ok (some p))
    (hrun : (serverDeliverPacket cl.socket p).Until SysOp.Waits (linkCall net i) (x.peer i)
      ((x.links i).setConn c { l with up := [] }) q s' w') :
    Step net x (.deliver i cl p)
      { x.after i q s' w' with executed := x.executed ++ executes (x.peer i) p }
  | resume (x : RingState ι) (i : ι) (p q : PeerM Unit) (s' : PeerState) (w' : Links ι)
    (hwait : x.running i = some p)
    (hrun : p.Resumes SysOp.Waits (linkCall net i) (x.peer i) (x.links i) q s' w') :
    Step net x (.resume i) (x.after i q s' w')
  | sweep (x : RingState ι) (i : ι) (s' : PeerState) (w' : Links ι) (hidle : x.running i = none)
    (hrun : serverSweep.Exec (linkCall net i) (x.peer i) (x.links i) () s' w') :
    Step net x (.sweep i) (x.after i (.ret ()) s' w')
  | hangup (x : RingState ι) (i : ι) (cl : Client) (c : ℕ) (l : Link ι) (s' : PeerState)
    (w' : Links ι) (hidle : x.running i = none) (hcl : cl ∈ (x.peer i).srv.clients)
    (hfd : x.fds i cl.socket = some (.down c)) (hc : x.conns c = some l) (hup : l.up = [])
    (hclosed : l.upClosed = true)
    (hrun : (serverRemoveClient cl.socket).Exec (linkCall net i) (x.peer i) (x.links i) () s' w') :
    Step net x (.hangup i cl) (x.after i (.ret ()) s' w')
  | respond (x : RingState ι) (c : ℕ) (l : Link ι) (hc : x.conns c = some l)
    (hsource : l.source = none) (hopen : l.upClosed = false) (hdone : l.downClosed = true) :
    Step net x (.respond c) { x with
      conns := Function.update x.conns c (some { l with upClosed := true })
      history := x.history ++ [.respond c l.down] }

def start [Fintype ι] (R : LinkedRing ι) : RingState ι where
  peer := R.start
  running _ := none
  fds _ fd := if fd = 0 ∨ fd = 1 ∨ fd = 2 then some .std else if fd = 3 then some .listener else none
  conns _ := none
  executed := []
  history := []

inductive Reachable [Fintype ι] [DecidableEq ι] {R : LinkedRing ι} (net : RingNet R) :
    RingState ι → Prop where
  | start : Reachable net (start R)
  | step {x x' : RingState ι} (e : RingEvent ι) (h : Reachable net x) (hs : Step net x e x') :
    Reachable net x'

end RingState

end RN2223.Praxis2

import RN2223.Praxis2.Peer

/-!
# A network without failures

Sockets can be had, connections and sends succeed, and what a peer does to the
outside is the list of the bytes it sent to an address, received from one, or
wrote to a socket it did not connect itself. Which numbers new sockets get and
what is received stays open.
-/

namespace RN2223.Praxis2
open CMemory

abbrev Resolver : Type := String → UInt16 → List SockAddr

def numericResolver (known : List UInt32) : Resolver := fun hostname port =>
  (known.find? fun ip => inetNtop ip == hostname).toList.map fun ip => .inet ip port

theorem numericResolver_singleton (ip : UInt32) (port : UInt16) :
    numericResolver [ip] (inetNtop ip) port = [.inet ip port] := by
  simp [numericResolver]

inductive NetEvent where
  | sent (dest : SockAddr) (bytes : Bytes)
  | received (source : SockAddr) (bytes : Bytes)
  | wrote (socket : Int) (bytes : Bytes)
  deriving DecidableEq, Repr

/-- What the open sockets are connected to and what happened so far. -/
structure NetTrace where
  remote : Int → Option SockAddr
  events : List NetEvent

def NetTrace.log (w : NetTrace) (es : List NetEvent) : NetTrace :=
  { w with events := w.events ++ es }

def NetTrace.setRemote (w : NetTrace) (fd : Int) (a : Option SockAddr) : NetTrace :=
  { w with remote := Function.update w.remote fd a }

def NetTrace.writeEvent (w : NetTrace) (fd : Int) (buffer : Bytes) : NetEvent :=
  match w.remote fd with
  | some addr => .sent addr buffer
  | none => .wrote fd buffer

def reliable (resolve : Resolver) (w : NetTrace) : (o : SysOp) → SysRes o → NetTrace → Prop
  | .getaddrinfo hostname port, r, w' => r = resolve hostname port ∧ w' = w
  | .socket, r, w' => (0 ≤ r ∧ w.remote r = none) ∧ w' = w
  | .connect fd addr, r, w' => r = 0 ∧ w' = w.setRemote fd (some addr)
  | .send fd buffer, r, w' => r = 0 ∧ w' = w.log [w.writeEvent fd buffer]
  | .recv fd, r, w' => ∃ addr, w.remote fd = some addr ∧ w' = w.log [.received addr r]
  | .close fd, _, w' => w' = w.setRemote fd none
  | .crash _, _, _ => False

def NetTrace.Quiet (w : NetTrace) : Prop := ∀ fd, w.remote fd = none

@[simp] theorem log_remote (w : NetTrace) (es : List NetEvent) : (w.log es).remote = w.remote := rfl

@[simp] theorem log_events (w : NetTrace) (es : List NetEvent) :
    (w.log es).events = w.events ++ es := rfl

@[simp] theorem log_log (w : NetTrace) (es es' : List NetEvent) :
    (w.log es).log es' = w.log (es ++ es') := by
  simp [NetTrace.log]

@[simp] theorem setRemote_log (w : NetTrace) (es : List NetEvent) (fd : Int)
    (a : Option SockAddr) : (w.log es).setRemote fd a = (w.setRemote fd a).log es := rfl

@[simp] theorem setRemote_setRemote (w : NetTrace) (fd : Int) (a b : Option SockAddr) :
    (w.setRemote fd a).setRemote fd b = w.setRemote fd b := by
  simp [NetTrace.setRemote]

@[simp] theorem setRemote_self (w : NetTrace) (fd : Int) (a : Option SockAddr) :
    (w.setRemote fd a).remote fd = a := by
  simp [NetTrace.setRemote]

theorem setRemote_of_eq {w : NetTrace} {fd : Int} {a : Option SockAddr}
    (h : w.remote fd = a) : w.setRemote fd a = w := by
  subst h
  simp [NetTrace.setRemote]

theorem writeEvent_some {w : NetTrace} {fd : Int} {a : SockAddr} (h : w.remote fd = some a)
    (b : Bytes) : w.writeEvent fd b = .sent a b := by
  simp [NetTrace.writeEvent, h]

theorem quiet_log {w : NetTrace} (h : w.Quiet) (es : List NetEvent) : (w.log es).Quiet := h

/-! ### The system calls -/

section Calls
variable {resolve : Resolver} {s s' : PeerState} {w w' : NetTrace} (fd : Int)

theorem getaddrinfo_reliable (hostname : String) (port : UInt16) (a : List SockAddr) :
    (getaddrinfo hostname port : PeerM _).Exec (reliable resolve) s w a s' w' ↔
      a = resolve hostname port ∧ s' = s ∧ w' = w := by
  constructor
  · rintro ⟨_, _, ⟨rfl, rfl⟩, rfl, rfl, rfl⟩
    exact ⟨rfl, rfl, rfl⟩
  · rintro ⟨rfl, rfl, rfl⟩
    exact ⟨_, _, ⟨rfl, rfl⟩, rfl, rfl, rfl⟩

theorem socket_reliable (a : Int) : (socket : PeerM _).Exec (reliable resolve) s w a s' w' ↔
    (0 ≤ a ∧ w.remote a = none) ∧ s' = s ∧ w' = w := by
  constructor
  · rintro ⟨_, _, ⟨h, rfl⟩, rfl, rfl, rfl⟩
    exact ⟨h, rfl, rfl⟩
  · rintro ⟨h, rfl, rfl⟩
    exact ⟨a, _, ⟨h, rfl⟩, rfl, rfl, rfl⟩

theorem connect_reliable (addr : SockAddr) (a : Int) :
    (connect fd addr : PeerM _).Exec (reliable resolve) s w a s' w' ↔
      a = 0 ∧ s' = s ∧ w' = w.setRemote fd (some addr) := by
  constructor
  · rintro ⟨_, _, ⟨rfl, rfl⟩, rfl, rfl, rfl⟩
    exact ⟨rfl, rfl, rfl⟩
  · rintro ⟨rfl, rfl, rfl⟩
    exact ⟨(0 : Int), _, ⟨rfl, rfl⟩, rfl, rfl, rfl⟩

theorem sendall_reliable (buffer : Bytes) (a : Int) :
    (sendall fd buffer : PeerM _).Exec (reliable resolve) s w a s' w' ↔
      a = 0 ∧ s' = s ∧ w' = w.log [w.writeEvent fd buffer] := by
  constructor
  · rintro ⟨_, _, ⟨rfl, rfl⟩, rfl, rfl, rfl⟩
    exact ⟨rfl, rfl, rfl⟩
  · rintro ⟨rfl, rfl, rfl⟩
    exact ⟨(0 : Int), _, ⟨rfl, rfl⟩, rfl, rfl, rfl⟩

theorem close_reliable (a : Unit) : (close fd : PeerM _).Exec (reliable resolve) s w a s' w' ↔
    s' = s ∧ w' = w.setRemote fd none := by
  constructor
  · rintro ⟨_, _, rfl, -, rfl, rfl⟩
    exact ⟨rfl, rfl⟩
  · rintro ⟨rfl, rfl⟩
    exact ⟨(), _, rfl, rfl, rfl, rfl⟩

theorem recvall_reliable (a : Bytes) :
    (recvall fd : PeerM _).Exec (reliable resolve) s w a s' w' ↔
      ∃ addr, w.remote fd = some addr ∧ s' = s ∧
        w' = (w.log [.received addr a]).setRemote fd none := by
  constructor
  · rintro ⟨_, _, ⟨addr, haddr, rfl⟩, _, _, rfl, rfl, rfl, rfl⟩
    exact ⟨addr, haddr, rfl, rfl⟩
  · rintro ⟨addr, haddr, rfl, rfl⟩
    exact ⟨a, _, ⟨addr, haddr, rfl⟩, (), _, rfl, rfl, rfl, rfl⟩

end Calls

/-! ### Reaching another peer -/

section
variable {resolve : Resolver} {n : Peer} {addr : SockAddr} {s s' : PeerState} {w w' : NetTrace}

theorem peerDisconnect_reliable (a : Peer) :
    (peerDisconnect n : PeerM _).Exec (reliable resolve) s w a s' w' ↔
      a = n.closed ∧ s' = s ∧ w' = w.setRemote n.socket none := by
  simp only [peerDisconnect, Prog.exec_bind, close_reliable, Prog.pure_eq, Prog.exec_ret,
    and_assoc, exists_and_left, exists_eq_left, exists_const, Peer.closed]

theorem peerConnect_reliable (hres : resolve n.hostname n.port = [addr]) (a : Int × Peer) :
    (peerConnect n : PeerM _).Exec (reliable resolve) s w a s' w' ↔
      ∃ fd, (0 ≤ fd ∧ w.remote fd = none) ∧ a = (0, { n with socket := fd, addrLen := 16 }) ∧
        s' = s ∧ w' = w.setRemote fd (some addr) := by
  simp only [peerConnect, peerLookup, Prog.exec_bind, getaddrinfo_reliable, hres, and_assoc,
    exists_and_left,
    exists_eq_left, peerConnectLoop, socket_reliable]
  constructor
  · rintro ⟨⟨c, n'⟩, _, _, ⟨fd, h0, hfd, he⟩, hret⟩
    rw [if_neg (by omega)] at he
    simp only [Prog.exec_bind, connect_reliable, and_assoc, exists_and_left, exists_eq_left, Int.lt_irrefl,
      if_false, Prog.pure_eq, Prog.exec_ret, Prod.mk.injEq] at he
    obtain ⟨rfl, rfl, rfl, rfl⟩ := he
    exact ⟨fd, h0, hfd, hret⟩
  · rintro ⟨fd, h0, hfd, rfl, rfl, rfl⟩
    refine ⟨(true, { n with socket := fd, addrLen := 16 }), s', w.setRemote fd (some addr),
      ⟨fd, h0, hfd, ?_⟩, rfl, rfl, rfl⟩
    rw [if_neg (by omega)]
    simp only [Prog.exec_bind, connect_reliable, and_assoc, exists_and_left, exists_eq_left, Int.lt_irrefl,
      if_false, Prog.pure_eq, Prog.exec_ret, and_self]

theorem peerGetIp_reliable (hres : resolve n.hostname n.port = [addr]) (a : UInt32) :
    (peerGetIp n : PeerM _).Exec (reliable resolve) s w a s' w' ↔
      a = addr.ip ∧ s' = s ∧ w' = w := by
  simp only [peerGetIp, peerLookup, Prog.exec_bind, getaddrinfo_reliable, hres, and_assoc,
    exists_and_left,
    exists_eq_left, Prog.pure_eq, Prog.exec_ret]

theorem forward_ctrl_reliable {p : Packet} (hp : flagSet p.flags pktFlagCtrl = true)
    (hres : resolve n.hostname n.port = [addr]) (hw : w.Quiet) (a : Int × Peer) :
    (forward n p).Exec (reliable resolve) s w a s' w' ↔
      a = (0, n.closed) ∧ s' = s ∧ w' = w.log [.sent addr p.wire] := by
  have hser : packetSerialize p = .ok p.wire := packetSerialize_exact (by simp [hp])
  have hwrite : ∀ fd, (w.setRemote fd (some addr)).writeEvent fd p.wire = .sent addr p.wire :=
    fun fd => writeEvent_some (setRemote_self w fd (some addr)) _
  simp only [forward, hser, eval_ok, Prog.ret_bind, Prog.exec_bind, peerConnect_reliable hres]
  constructor
  · rintro ⟨_, _, _, ⟨fd, hfd, rfl, rfl, rfl⟩, he⟩
    simp only [Int.lt_irrefl, if_false, Prog.exec_bind, sendall_reliable, and_assoc, exists_and_left,
      exists_eq_left, hp, if_true, peerDisconnect_reliable, Prog.pure_eq, Prog.exec_ret, hwrite,
      setRemote_log, setRemote_setRemote, setRemote_of_eq (hw fd)] at he
    exact he
  · rintro ⟨rfl, rfl, rfl⟩
    refine ⟨_, _, _, ⟨0, ⟨Int.le_refl 0, hw 0⟩, rfl, rfl, rfl⟩, ?_⟩
    simp only [Int.lt_irrefl, if_false, Prog.exec_bind, sendall_reliable, and_assoc, exists_and_left,
      exists_eq_left, hp, if_true, peerDisconnect_reliable, Prog.pure_eq, Prog.exec_ret, hwrite,
      setRemote_log, setRemote_setRemote, setRemote_of_eq (hw 0),
      Peer.closed, and_self]

/-- A data packet leaves the connection open. -/
theorem forward_data_reliable {p : Packet} (hp : flagSet p.flags pktFlagCtrl = false)
    (hexact : p.Exact) (hres : resolve n.hostname n.port = [addr]) (a : Int × Peer) :
    (forward n p).Exec (reliable resolve) s w a s' w' ↔
      ∃ fd, (0 ≤ fd ∧ w.remote fd = none) ∧ a = (0, { n with socket := fd, addrLen := 16 }) ∧
        s' = s ∧ w' = (w.setRemote fd (some addr)).log [.sent addr p.wire] := by
  have hser : packetSerialize p = .ok p.wire := packetSerialize_exact fun _ => hexact
  have hwrite : ∀ fd, (w.setRemote fd (some addr)).writeEvent fd p.wire = .sent addr p.wire :=
    fun fd => writeEvent_some (setRemote_self w fd (some addr)) _
  simp only [forward, hser, eval_ok, Prog.ret_bind, Prog.exec_bind, peerConnect_reliable hres]
  constructor
  · rintro ⟨_, _, _, ⟨fd, hfd, rfl, rfl, rfl⟩, he⟩
    simp only [Int.lt_irrefl, if_false, Prog.exec_bind, sendall_reliable, and_assoc, exists_and_left,
      exists_eq_left, hp, Bool.false_eq_true, Prog.pure_eq, Prog.exec_ret, hwrite] at he
    exact ⟨fd, hfd, he⟩
  · rintro ⟨fd, hfd, rfl, rfl, rfl⟩
    refine ⟨_, _, _, ⟨fd, hfd, rfl, rfl, rfl⟩, ?_⟩
    simp only [Int.lt_irrefl, if_false, Prog.exec_bind, sendall_reliable, and_assoc, exists_and_left,
      exists_eq_left, hp, Bool.false_eq_true, Prog.pure_eq, Prog.exec_ret, hwrite, and_self]

theorem proxyRequest_reliable {p : Packet} (hp : flagSet p.flags pktFlagCtrl = false)
    (hexact : p.Exact) (hres : resolve n.hostname n.port = [addr]) (hw : w.Quiet) (csocket : Int)
    (a : Int × Peer) :
    (proxyRequest csocket p n).Exec (reliable resolve) s w a s' w' ↔ ∃ answer,
      a = (cbRemoveClient, n.closed) ∧ s' = s ∧
      w' = w.log [.sent addr p.wire, .received addr answer, .wrote csocket answer] := by
  simp only [proxyRequest, Prog.exec_bind, forward_data_reliable hp hexact hres,
    recvall_reliable, sendall_reliable, peerDisconnect_reliable, Prog.pure_eq, Prog.exec_ret]
  constructor
  · rintro ⟨_, _, _, ⟨fd, hfd, rfl, rfl, rfl⟩, answer, _, _, ⟨addr', haddr, rfl, rfl⟩,
      _, _, _, ⟨rfl, rfl, rfl⟩, _, _, _, ⟨rfl, rfl, rfl⟩, rfl, rfl, rfl⟩
    have he : addr' = addr := by
      simpa using haddr.symm
    subst he
    refine ⟨answer, rfl, rfl, ?_⟩
    simp [setRemote_of_eq (hw fd), NetTrace.writeEvent, hw csocket]
  · rintro ⟨answer, rfl, rfl, rfl⟩
    refine ⟨_, _, _, ⟨0, ⟨Int.le_refl 0, hw 0⟩, rfl, rfl, rfl⟩, answer, _, _,
      ⟨addr, by simp, rfl, rfl⟩, _, _, _, ⟨rfl, rfl, rfl⟩, _, _, _, ⟨rfl, rfl, rfl⟩, rfl, rfl, ?_⟩
    simp [setRemote_of_eq (hw 0), NetTrace.writeEvent, hw csocket]

end

end RN2223.Praxis2

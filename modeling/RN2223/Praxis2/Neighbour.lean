import RN2223.Lib.Prog
import RN2223.Praxis2.Packet

/-!
# Peers and their sockets (neighbour.h / neighbour.c)

The system calls a peer makes and the functions that wrap them. `send` and
`recv` stand for the complete loops of `sendall` and `recvall` (util.c): the
first answers 0 or -1, the second answers the bytes up to the end of the stream
and does not answer at all when the stream never ends.
-/

namespace RN2223.Praxis2
open CMemory ByteOrder

/-- `struct sockaddr_storage` with an IPv4 address in it. -/
structure SockAddr where
  family : ℕ
  port : UInt16
  ip : UInt32
  deriving DecidableEq, Repr

def afInet : ℕ := 2

def SockAddr.inet (ip : UInt32) (port : UInt16) : SockAddr := ⟨afInet, port, ip⟩

def SockAddr.zero : SockAddr := ⟨0, 0, 0⟩

inductive SysOp where
  | getaddrinfo (hostname : String) (port : UInt16)
  | socket
  | connect (fd : Int) (addr : SockAddr)
  | send (fd : Int) (buffer : Bytes)
  | recv (fd : Int)
  | close (fd : Int)
  | crash (f : Fault)

/-- What a call answers; `getaddrinfo` answers the empty list when it fails, and
nothing comes back from undefined behaviour. -/
abbrev SysRes : SysOp → Type
  | .getaddrinfo _ _ => List SockAddr
  | .socket => Int
  | .connect _ _ => Int
  | .send _ _ => Int
  | .recv _ => Bytes
  | .close _ => Unit
  | .crash _ => Empty

abbrev Sys (σ : Type) : Type → Type := Prog σ SysOp SysRes

variable {σ α : Type}

def getaddrinfo (hostname : String) (port : UInt16) : Sys σ (List SockAddr) :=
  .call (.getaddrinfo hostname port) .ret

def socket : Sys σ Int := .call .socket .ret

def connect (fd : Int) (addr : SockAddr) : Sys σ Int := .call (.connect fd addr) .ret

def sendall (s : Int) (buffer : Bytes) : Sys σ Int := .call (.send s buffer) .ret

def recvLoop (s : Int) : Sys σ Bytes := .call (.recv s) .ret

def close (fd : Int) : Sys σ Unit := .call (.close fd) .ret

section Calls
variable (fd : Int)

@[simp] theorem getaddrinfo_bind (hostname : String) (port : UInt16)
    (f : List SockAddr → Sys σ α) :
    (getaddrinfo hostname port >>= f) = .call (.getaddrinfo hostname port) f := rfl

@[simp] theorem socket_bind (f : Int → Sys σ α) : (socket >>= f) = .call .socket f := rfl

@[simp] theorem connect_bind (addr : SockAddr) (f : Int → Sys σ α) :
    (connect fd addr >>= f) = .call (.connect fd addr) f := rfl

@[simp] theorem sendall_bind (buffer : Bytes) (f : Int → Sys σ α) :
    (sendall fd buffer >>= f) = .call (.send fd buffer) f := rfl

@[simp] theorem recvLoop_bind (f : Bytes → Sys σ α) :
    (recvLoop fd >>= f) = .call (.recv fd) f := rfl

@[simp] theorem close_bind (f : Unit → Sys σ α) : (close fd >>= f) = .call (.close fd) f := rfl

end Calls

def Sys.eval : Except Fault α → Sys σ α
  | .ok a => .ret a
  | .error f => .call (.crash f) Empty.elim

@[simp] theorem eval_ok (a : α) : (Sys.eval (.ok a) : Sys σ α) = .ret a := rfl

/-- `recvall` (`util.c:34-64`) closes the socket after the loop. -/
def recvall (s : Int) : Sys σ Bytes := do
  let buffer ← recvLoop s
  close s
  return buffer

/-- `struct _peer` (`neighbour.h:6-13`). -/
structure Peer where
  nodeId : UInt16
  hostname : String
  port : UInt16
  socket : Int
  addr : SockAddr
  addrLen : ℕ
  deriving DecidableEq, Repr

/-- `peer_init` (`neighbour.c:12-29`) for a port string that converts. -/
def peerInit (id : UInt16) (hostname : String) (port : UInt16) : Peer where
  nodeId := id
  hostname := hostname
  port := port
  socket := -1
  addr := SockAddr.zero
  addrLen := 0

/-- `inet_ntop` for an IPv4 address. -/
def inetNtop (ip : UInt32) : String :=
  toString (octet32 ip 24) ++ "." ++ toString (octet32 ip 16) ++ "." ++
    toString (octet32 ip 8) ++ "." ++ toString (octet32 ip 0)

/-- `peer_from_packet` (`neighbour.c:36-51`): everything else is zeroed. -/
def peerFromPacket (pack : Packet) : Peer where
  nodeId := 0
  hostname := inetNtop pack.nodeIp
  port := pack.nodePort
  socket := 0
  addr := SockAddr.zero
  addrLen := 0

/-- `peer_lookup` (`neighbour.c:53-71`). -/
def peerLookup (p : Peer) : Sys σ (List SockAddr) := getaddrinfo p.hostname p.port

/-- The loop of `peer_connect`: it runs once for every entry `pa` of the list but
always connects to the first one, `res`, whose address each success overwrites
with the peer's own `addr`. -/
def peerConnectLoop : List SockAddr → SockAddr → Peer → Bool → Sys σ (Bool × Peer)
  | [], _, p, connected => return (connected, p)
  | _ :: pa, res, p, connected => do
    let s ← socket
    let p := { p with socket := s }
    if s < 0 then peerConnectLoop pa res p connected
    else
      let status ← connect s res
      if status < 0 then peerConnectLoop pa res p connected
      else peerConnectLoop pa p.addr { p with addrLen := 16 } true

/-- `peer_connect` (`neighbour.c:73-104`). -/
def peerConnect (p : Peer) : Sys σ (Int × Peer) := do
  match ← peerLookup p with
  | [] => return (-1, p)
  | res :: rest =>
    let (connected, p) ← peerConnectLoop (res :: rest) res p false
    return (if connected then 0 else -1, p)

/-- `peer_get_ip` (`neighbour.c:106-120`). -/
def peerGetIp (p : Peer) : Sys σ UInt32 := do
  match ← peerLookup p with
  | [] => return 0
  | res :: _ => return res.ip

/-- `peer_is_responsible` (`neighbour.c:122-133`). -/
def peerIsResponsible (predId peerId hashId : UInt16) : Int :=
  if predId > peerId ∧ hashId > predId then 1
  else if hashId ≤ peerId ∧ hashId > predId then 1
  else 0

def Peer.closed (p : Peer) : Peer := { p with socket := -1, addr := SockAddr.zero, addrLen := 0 }

/-- `peer_disconnect` (`neighbour.c:135-140`). -/
def peerDisconnect (p : Peer) : Sys σ Peer := do
  close p.socket
  return p.closed

/-! ### No wrapper touches the program's own state -/

theorem silent_eval (e : Except Fault α) : (Sys.eval e : Sys σ α).Silent := by
  cases e with
  | ok a => trivial
  | error f => exact fun r => r.elim

theorem silent_recvall (s : Int) : (recvall s : Sys σ Bytes).Silent := by
  simp [recvall]

theorem silent_peerConnectLoop (pas : List SockAddr) (res : SockAddr) (p : Peer) (c : Bool) :
    (peerConnectLoop pas res p c : Sys σ (Bool × Peer)).Silent := by
  induction pas generalizing res p c with
  | nil => simp [peerConnectLoop]
  | cons pa pas ih =>
    simp only [peerConnectLoop, socket_bind, connect_bind, Prog.silent_call]
    intro s
    by_cases hs : s < 0
    · simpa only [hs, if_true] using ih res _ c
    · simp only [hs, if_false, Prog.silent_call]
      intro status
      by_cases ht : status < 0
      · simpa only [ht, if_true] using ih res _ c
      · simpa only [ht, if_false] using ih _ _ true

theorem silent_peerConnect (p : Peer) : (peerConnect p : Sys σ (Int × Peer)).Silent := by
  simp only [peerConnect, peerLookup, getaddrinfo_bind, Prog.silent_call]
  intro res
  cases res with
  | nil => simp
  | cons res rest =>
    exact Prog.silent_bind (silent_peerConnectLoop _ _ _ _) fun _ => by simp

theorem silent_peerGetIp (p : Peer) : (peerGetIp p : Sys σ UInt32).Silent := by
  simp only [peerGetIp, peerLookup, getaddrinfo_bind, Prog.silent_call]
  intro res
  cases res <;> simp

theorem silent_peerDisconnect (p : Peer) : (peerDisconnect p : Sys σ Peer).Silent := by
  simp [peerDisconnect]

end RN2223.Praxis2

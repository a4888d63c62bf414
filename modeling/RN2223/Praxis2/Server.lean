import RN2223.Praxis2.RingBuffer
import RN2223.Praxis2.Packet

/-!
# The poll server (server.h / server.c)

The client list, the two-stage reception of a packet and the service of one
ready client. The functions that close sockets or call the packet callback make
system calls and are programs of the peer.
-/

namespace RN2223.Praxis2
open CMemory

/-- `client_state` (`server.h:12`). -/
inductive ClientState where
  | idle
  | hdrRecvd
  | remove
  deriving DecidableEq, Repr

/-- `struct _client` (`server.h:14-23`); the list carries the `next` pointers. -/
structure Client where
  socket : Int
  state : ClientState
  headerBuf : RingBuffer
  pktBuf : Option RingBuffer
  pack : Option Packet
  deriving DecidableEq, Repr

/-- `struct _server` (`server.h:25-31`). -/
structure Server where
  socket : Int
  nClients : Int
  clients : List Client
  deriving DecidableEq, Repr

/-- The client record `server_add_client` builds (`server.c:93-101`). -/
def newClient (socket : Int) : Client where
  socket := socket
  state := .idle
  headerBuf := rbNew pktHeaderLen
  pktBuf := none
  pack := none

/-- The loop of `server_close_socket`: the first client with the socket is marked. -/
def markSocket : List Client → Int → List Client
  | [], _ => []
  | c :: next, socket =>
    if c.socket = socket then { c with state := .remove } :: next else c :: markSocket next socket

/-- `server_close_socket` (`server.c:14-21`). -/
def serverCloseSocket (srv : Server) (socket : Int) : Server :=
  { srv with clients := markSocket srv.clients socket }

/-- The client unlinked from the list; sockets of open connections tell the
nodes apart. -/
def unlinkClient (srv : Server) (socket : Int) : Server :=
  { srv with
    clients := srv.clients.eraseP fun c => c.socket == socket, nClients := srv.nClients - 1 }

/-! ### The stack

`server_run` and `client_decode_body` receive into arrays whose length the
packet's header decides. -/

/-- The process's stack: the bytes that the arrays `buffer` of `server_run` and
`client_decode_body` may take together, the frames of all functions called
while they live set aside. A header finds room, and a control packet too. -/
class Stack where
  room : ℕ
  small : 2 * pktHeaderLen ≤ room

theorem header_le_room [Stack] : pktHeaderLen ≤ Stack.room :=
  (Nat.le_mul_of_pos_left _ (by decide)).trans Stack.small

/-- The stack of the concrete runs: of the 8 MiB a process usually has, half. -/
instance defaultStack : Stack := ⟨4 * 1024 * 1024, by decide⟩

/-- `int bytes_needed = n; unsigned char buffer[bytes_needed];`: the conversion to
`int` keeps the low 32 bits, and an array has no negative length. -/
def arrayLen [Stack] (n : ℕ) : Except Fault ℕ :=
  if Int.bmod n (2^32) < 0 then .error .arraySize
  else stackArray Stack.room (Int.bmod n (2^32)).toNat

/-! ### Reception -/

/-- `client_decode_hdr` (`server.c:60-67`). -/
def clientDecodeHdr (c : Client) : Except Fault Client := do
  let (headerBuf, hdr) := rbRead c.headerBuf pktHeaderLen
  match ← packetDecodeHdr hdr pktHeaderLen with
  | none => .error .nullPointer
  | some pack =>
    .ok { c with
      state := .hdrRecvd, headerBuf := headerBuf, pack := some pack,
      pktBuf := some (rbNew (packetBodySize pack)) }

/-- `client_decode_body` (`server.c:69-79`), called with `left` bytes of the stack. -/
def clientDecodeBody (c : Client) (left : ℕ) : Except Fault Client :=
  match c.pktBuf, c.pack with
  | some pktBuf, some pack => do
    let avail ← stackArray left (rbCanRead pktBuf)
    let pack ← packetDecodeBody pack (rbRead pktBuf avail).2 avail
    .ok { c with pack := pack, state := .idle, pktBuf := none }
  | _, _ => .error .nullPointer

theorem clientDecodeBody_cases {c c' : Client} {left : ℕ} (h : clientDecodeBody c left = .ok c') :
    ∃ b p q, c.pktBuf = some b ∧ c.pack = some p ∧
      packetDecodeBody p (rbRead b (rbCanRead b)).2 (rbCanRead b) = .ok q ∧
      c' = { c with pack := q, state := .idle, pktBuf := none } := by
  unfold clientDecodeBody at h
  split at h
  · next b p hb hp =>
    obtain ⟨avail, havail, h⟩ := bind_eq_ok.mp h
    obtain ⟨-, rfl⟩ := stackArray_eq_ok.mp havail
    obtain ⟨q, hq, h⟩ := bind_eq_ok.mp h
    exact ⟨b, p, q, hb, hp, hq, (Except.ok.inj h).symm⟩
  · cases h

/-- The outcome of one `recv`: `nbytes` positive, zero or negative. -/
inductive Recv where
  | data (bytes : Bytes)
  | closed
  | failed
  deriving DecidableEq, Repr

/-- What becomes of a ready client: it stays, its packet goes to the callback, or
it is removed because the stream ended. -/
inductive Served where
  | kept (c : Client)
  | deliver (c : Client) (pack : Option Packet)
  | closed
  deriving DecidableEq, Repr

section
variable [Stack]

/-- The branch of an idle client (`server.c:160-178`). -/
def serveIdle (c : Client) (recv : ℕ → Recv) : Except Fault Served := do
  let bytesNeeded ← arrayLen (rbCanWrite c.headerBuf)
  match recv bytesNeeded with
  | .data bytes =>
    let headerBuf := (rbWrite c.headerBuf bytes).1
    if rbCanRead headerBuf = pktHeaderLen then
      let c' ← clientDecodeHdr { c with headerBuf := headerBuf }
      .ok (.kept c')
    else .ok (.kept { c with headerBuf := headerBuf })
  | .closed => .ok .closed
  | .failed => .ok (.kept c)

/-- The branch of a client whose header is complete (`server.c:179-199`). The array
of `recv` is still there while the body is decoded into the next one. -/
def serveBody (c : Client) (pktBuf : RingBuffer) (recv : ℕ → Recv) : Except Fault Served := do
  let bytesNeeded ← arrayLen (rbCanWrite pktBuf)
  match recv bytesNeeded with
  | .data bytes =>
    let pktBuf' := (rbWrite pktBuf bytes).1
    if rbCanWrite pktBuf' = 0 then
      let c' ← clientDecodeBody { c with pktBuf := some pktBuf' } (Stack.room - bytesNeeded)
      .ok (.deliver c' c'.pack)
    else .ok (.kept { c with pktBuf := some pktBuf' })
  | .closed => .ok .closed
  | .failed => .ok (.kept c)

/-- The body of the loop over the clients for one whose `revents` is `POLLIN`
(`server.c:158-200`), up to the call of the packet callback. -/
def serveClient (c : Client) (recv : ℕ → Recv) : Except Fault Served :=
  if c.state = .idle then serveIdle c recv
  else
    match c.pktBuf with
    | some pktBuf => serveBody c pktBuf recv
    | none => .error .nullPointer

end

end RN2223.Praxis2

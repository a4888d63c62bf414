import RN2223.Lib.Machine
import RN2223.Praxis2.Peer
import RN2223.Praxis2.Framing

/-!
# A pass of the server loop (server.c:126-219)

The client list as records in memory with the loop over it index by index and
pointer by pointer. What `poll` reports, what `recv` and `accept` return and what
the packet callback does to the list are inputs of the pass.
-/

namespace RN2223.Praxis2
open CMemory Machine

def pollIn : UInt16 := 1
def pollErr : UInt16 := 8
def pollHup : UInt16 := 16

/-- A client record in memory, told by `id` from all others ever allocated. -/
structure Node where
  id : ℕ
  client : Client
  deriving DecidableEq

/-- `server` while it runs; `nextId` is the next record that is allocated. -/
structure RunningServer where
  socket : Int
  nClients : Int
  clients : List Node
  nextId : ℕ
  deriving DecidableEq

def serverStart (socket : Int) : RunningServer := ⟨socket, 0, [], 0⟩

def RunningServer.toServer (srv : RunningServer) : Server :=
  ⟨srv.socket, srv.nClients, srv.clients.map Node.client⟩

/-! ### The list -/

/-- The loop of `server_close_socket` on the records. -/
def markNode : List Node → Int → List Node
  | [], _ => []
  | n :: next, socket =>
    if n.client.socket = socket then { n with client := { n.client with state := .remove } } :: next
    else n :: markNode next socket

theorem markNode_client (ns : List Node) (socket : Int) :
    (markNode ns socket).map Node.client = markSocket (ns.map Node.client) socket := by
  induction ns with
  | nil => rfl
  | cons n next ih =>
    rw [markNode, List.map_cons, markSocket]
    split
    · rfl
    · rw [List.map_cons, ih]

def RunningServer.closeSockets (srv : RunningServer) (sockets : List Int) : RunningServer :=
  { srv with clients := sockets.foldl markNode srv.clients }

theorem closeSockets_toServer (srv : RunningServer) (sockets : List Int) :
    (srv.closeSockets sockets).toServer = sockets.foldl serverCloseSocket srv.toServer := by
  induction sockets generalizing srv with
  | nil => rfl
  | cons s sockets ih =>
    have hone : (srv.closeSockets [s]).toServer = serverCloseSocket srv.toServer s := by
      simp only [RunningServer.closeSockets, RunningServer.toServer, serverCloseSocket,
        List.foldl_cons, List.foldl_nil, markNode_client]
    rw [List.foldl_cons, ← hone, ← ih]
    rfl

/-- `server_remove_client` (`server.c:23-58`) of the record `c` points to. -/
def RunningServer.remove (srv : RunningServer) (c : ℕ) : RunningServer :=
  if srv.clients.any fun n => n.id == c then
    { srv with
      clients := srv.clients.eraseP fun n => n.id == c, nClients := srv.nClients - 1 }
  else srv

def RunningServer.update (srv : RunningServer) (c : ℕ) (client : Client) : RunningServer :=
  { srv with
    clients := srv.clients.map fun n => if n.id = c then { n with client := client } else n }

/-- `server_add_client` (`server.c:91-107`); the result of `accept` is not checked. -/
def RunningServer.add (srv : RunningServer) (socket : Int) : RunningServer :=
  { srv with
    clients := ⟨srv.nextId, newClient socket⟩ :: srv.clients, nClients := srv.nClients + 1,
    nextId := srv.nextId + 1 }

/-- The record a pointer leads to and its `next`; a freed record has neither. -/
def derefNode : List Node → ℕ → Except Fault (Client × Option ℕ)
  | [], _ => .error .outOfBounds
  | n :: next, c => if n.id = c then .ok (n.client, next.head?.map Node.id) else derefNode next c

/-! ### What happens in a pass -/

inductive Arrival where
  | data (b : UInt8) (bs : Bytes)
  | closed
  | failed
  deriving DecidableEq

def Arrival.recv : Arrival → ℕ → Recv
  | .data b bs, n => recvChunk (b :: bs) bs.length n
  | .closed, _ => .closed
  | .failed, _ => .failed

/-- What the loop meets at one index: the `recv`, the sockets the callback closes
and its result. -/
structure Outcome where
  arrival : Arrival
  marks : List Int
  rsp : Int
  deriving DecidableEq

/-- What a pass meets; `accepted` is the result of `accept`. -/
structure PollInput where
  revents : ℕ → UInt16
  outcome : ℕ → Outcome
  accepted : Int

structure PollFd where
  fd : Int
  revents : UInt16

/-- `fds` as the loop before `poll` fills it (`server.c:127-141`), `n_clients + 2`
entries. -/
def pollSet (srv : RunningServer) : List Int :=
  let n := srv.nClients.toNat
  let sockets := srv.clients.map fun node => node.client.socket
  [0, srv.socket] ++ (sockets.take n ++ List.replicate (n - sockets.length) 0)

def polled (srv : RunningServer) (x : PollInput) : List PollFd :=
  (pollSet srv).mapIdx fun i fd => ⟨fd, x.revents i⟩

/-- `consulted c fd`: the loop looks at `revents` of the entry of `fd` for the
record `c`. `body`: the branch that reads into `pkt_buf`. -/
inductive PassEvent where
  | consulted (c : ℕ) (fd : Int)
  | body (c : ℕ) (state : ClientState) (pktBuf : Bool)
  | received (c : ℕ) (n : ℕ)
  | delivered (c : ℕ)
  | removed (c : ℕ)
  | accepted (fd : Int)
  deriving DecidableEq

/-- The loop over the clients between two iterations. -/
structure Pass where
  srv : RunningServer
  i : ℕ
  c : Option ℕ
  events : List PassEvent
  fault : Option Fault
  deriving DecidableEq

def Pass.log (p : Pass) (es : List PassEvent) : Pass := { p with events := p.events ++ es }

def Pass.remove (p : Pass) (c : ℕ) : Pass := { p with srv := p.srv.remove c }.log [.removed c]

section
variable [Stack]

def receivedEvents (c : ℕ) (client : Client) (arrival : Arrival) : List PassEvent :=
  match bytesNeeded client with
  | .error _ => []
  | .ok n =>
    match arrival.recv n with
    | .data b => [.received c b.length]
    | _ => []

def enteredEvents (c : ℕ) (client : Client) (arrival : Arrival) : List PassEvent :=
  (if client.state = .idle then [] else [.body c client.state client.pktBuf.isSome]) ++
    receivedEvents c client arrival

/-- The body of the loop for `revents == POLLIN` (`server.c:158-200`). -/
def Pass.serve (p : Pass) (c : ℕ) (client : Client) (o : Outcome) : Pass :=
  let p := p.log (enteredEvents c client o.arrival)
  match serveClient client o.arrival.recv with
  | .error f => { p with fault := some f }
  | .ok (.kept client) => { p with srv := p.srv.update c client }
  | .ok .closed => p.remove c
  | .ok (.deliver client _) =>
    let p := { p with srv := (p.srv.update c client).closeSockets o.marks }.log [.delivered c]
    if o.rsp = cbRemoveClient then p.remove c else p

def Pass.Running (p : Pass) : Prop := p.fault = none ∧ (p.i : Int) < p.srv.nClients + 2

instance (p : Pass) : Decidable p.Running := inferInstanceAs (Decidable (_ ∧ _))

/-- One iteration; a loop that has ended stays as it is. -/
def Pass.step (fds : List PollFd) (outcome : ℕ → Outcome) (p : Pass) : Pass :=
  if p.Running then
    match p.c with
    | none => p
    | some c =>
      match derefNode p.srv.clients c with
      | .error f => { p with fault := some f }
      | .ok (client, next) =>
        match fds[p.i]? with
        | none => { p with fault := some .outOfBounds }
        | some e =>
          let q := p.log [.consulted c e.fd]
          let q := if e.revents = pollIn then q.serve c client (outcome p.i) else q
          { q with i := p.i + 1, c := next }
  else p

def Pass.start (srv : RunningServer) : Pass where
  srv := srv
  i := 2
  c := srv.clients.head?.map Node.id
  events := []
  fault := none

def dispatch (srv : RunningServer) (x : PollInput) (n : ℕ) : Pass :=
  (Pass.step (polled srv x) x.outcome)^[n] (Pass.start srv)

/-- The loop over the marked clients (`server.c:203-211`). -/
def sweepNodes : List Node → Pass → Pass
  | [], p => p
  | n :: next, p =>
    if n.client.state = .remove then sweepNodes next (p.remove n.id) else sweepNodes next p

inductive PassResult where
  | faulted (f : Fault)
  | stopped
  | next (srv : RunningServer)
  deriving DecidableEq

/-- One pass of `server_run` (`server.c:149-219`): what happens and how it ends.
Each iteration takes one entry of `fds`, so that many suffice. -/
def serverPass (srv : RunningServer) (x : PollInput) : List PassEvent × PassResult :=
  if ∀ e ∈ polled srv x, e.revents = 0 then ([], .next srv)
  else if x.revents 0 = pollIn then ([], .stopped)
  else
    let p := dispatch srv x (polled srv x).length
    match p.fault with
    | some f => (p.events, .faulted f)
    | none =>
      let p := sweepNodes p.srv.clients p
      if x.revents 1 = pollIn then
        (p.events ++ [.accepted x.accepted], .next (p.srv.add x.accepted))
      else (p.events, .next p.srv)

/-- The states of `server_run` between two passes. -/
inductive ServerReachable (socket : Int) : RunningServer → Prop where
  | start : ServerReachable socket (serverStart socket)
  | pass {srv srv' : RunningServer} (h : ServerReachable socket srv) (x : PollInput)
      (hx : (serverPass srv x).2 = .next srv') : ServerReachable socket srv'

end

end RN2223.Praxis2

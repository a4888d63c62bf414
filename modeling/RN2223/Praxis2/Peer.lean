import RN2223.Praxis2.Neighbour
import RN2223.Praxis2.HashTable
import RN2223.Praxis2.Requests
import RN2223.Praxis2.Server

/-!
# The peer process (peer.c, server.c)

The handlers of peer.c and those functions of server.c that close sockets, as
programs over the globals of the process.
-/

namespace RN2223.Praxis2
open CMemory

def cbRemoveClient : Int := -1
def cbOk : Int := 0

/-- The globals of peer.c (`peer.c:14-20`) and the server handed to every
handler. -/
structure PeerState where
  ht : HTable
  rt : RTable
  self : Peer
  pred : Peer
  succ : Peer
  srv : Server
  deriving DecidableEq, Repr

def freshPeer : PeerState where
  ht := []
  rt := []
  self := peerFromPacket packetNew
  pred := peerFromPacket packetNew
  succ := peerFromPacket packetNew
  srv := ⟨3, 0, []⟩

abbrev PeerM : Type → Type := Sys PeerState

def readState : PeerM PeerState := Prog.read

def modifyState (f : PeerState → PeerState) : PeerM Unit := Prog.modify f

/-- `pseudo_hash` (`util.c:10-19`). -/
def pseudoHash (buffer : Bytes) (bufLen : ℕ) : Except Fault UInt16 :=
  if bufLen ≥ 2 then do
    let b0 ← readByte buffer 0
    let b1 ← readByte buffer 1
    .ok (ByteOrder.join16 b0 b1)
  else if bufLen = 1 then do
    let b0 ← readByte buffer 0
    .ok b0.toUInt16
  else .ok 0

/-! ### Sending to other peers -/

/-- `forward` (`peer.c:29-53`). -/
def forward (p : Peer) (pack : Packet) : PeerM (Int × Peer) := do
  let serializedPack ← Sys.eval (packetSerialize pack)
  let (status, p) ← peerConnect p
  if status < 0 then return (-1, p)
  else
    let sent ← sendall p.socket serializedPack
    if sent < 0 then return (-1, p)
    else if flagSet pack.flags pktFlagCtrl then
      -- a proxied request keeps the connection open for the reply
      let p ← peerDisconnect p
      return (0, p)
    else return (0, p)

/-- `proxy_request` (`peer.c:64-74`). -/
def proxyRequest (csocket : Int) (p : Packet) (n : Peer) : PeerM (Int × Peer) := do
  let (_, n) ← forward n p
  let answerSerial ← recvall n.socket
  let _ ← sendall csocket answerSerial
  let n ← peerDisconnect n
  return (cbRemoveClient, n)

/-- The packet `lookup_peer` builds (`peer.c:85-91`). -/
def lookupPacket (self : Peer) (ip : UInt32) (hashId : UInt16) : Packet :=
  { packetNew with
    flags := 0 ||| pktFlagCtrl ||| pktFlagLkup, hashId := hashId, nodeId := self.nodeId,
    nodeIp := ip, nodePort := self.port }

/-- `lookup_peer` (`peer.c:82-98`). -/
def lookupPeer (hashId : UInt16) : PeerM Int := do
  let s ← readState
  let ip ← peerGetIp s.self
  let (status, succ) ← forward s.succ (lookupPacket s.self ip hashId)
  modifyState fun s => { s with succ := succ }
  if status < 0 then return -1 else return 0

/-! ### Requests this peer is responsible for -/

/-- The value of `p->flags == p->flags | PKT_FLAG_DEL`: the comparison binds
tighter than the bitwise or. -/
def delCondition (flags : UInt8) : UInt8 := (if flags = flags then 1 else 0) ||| pktFlagDel

/-- The dispatch of `handle_own_request` (`peer.c:110-143`): the table after the
request and the ACK packet. -/
def executeRequest (ht : HTable) (p : Packet) : Except Fault (HTable × Packet) :=
  let getFlag := p.flags ||| pktFlagGet
  let setFlag := p.flags ||| pktFlagSet
  if p.flags = getFlag then do
    let ack := { packetNew with flags := 0 ||| pktFlagGet ||| pktFlagAck }
    match ← htableGet ht p.key p.keyLen.toNat with
    | some entry => do
      let key ← strncpy entry.key entry.keyLen
      let value ← strncpy entry.value entry.valueLen
      .ok (ht, { ack with
        key := key, keyLen := UInt16.ofNat entry.keyLen, value := value,
        valueLen := UInt32.ofNat entry.valueLen })
    | none => .ok (ht, ack)
  else if p.flags = setFlag then do
    let ht' ← htableSet ht p.key p.keyLen.toNat p.value p.valueLen.toNat
    .ok (ht', { packetNew with flags := 0 ||| pktFlagSet ||| pktFlagAck })
  else if delCondition p.flags ≠ 0 then do
    let ht' ← htableDelete ht p.key p.keyLen.toNat
    .ok (ht', { packetNew with flags := 0 ||| pktFlagDel ||| pktFlagAck })
  else .ok (ht, packetNew)

/-- `handle_own_request` (`peer.c:108-153`). -/
def handleOwnRequest (csocket : Int) (p : Packet) : PeerM Int := do
  let s ← readState
  let (ht, ackPacket) ← Sys.eval (executeRequest s.ht p)
  modifyState fun s => { s with ht := ht }
  let serializedPack ← Sys.eval (packetSerialize ackPacket)
  let _ ← sendall csocket serializedPack
  return cbRemoveClient

/-! ### Handlers -/

/-- The packet `answer_lookup` builds (`peer.c:166-172`). -/
def replyPacket (hashId : UInt16) (n : Peer) (ip : UInt32) : Packet :=
  { packetNew with
    flags := 0 ||| pktFlagCtrl ||| pktFlagRply, hashId := hashId, nodeId := n.nodeId,
    nodeIp := ip, nodePort := n.port }

/-- `answer_lookup` (`peer.c:162-182`). -/
def answerLookup (p : Packet) (n : Peer) : PeerM Int := do
  let ip ← peerGetIp n
  let _ ← forward (peerFromPacket p) (replyPacket p.hashId n ip)
  return cbRemoveClient

/-- `handle_packet_data` (`peer.c:193-214`). -/
def handlePacketData (csocket : Int) (p : Packet) : PeerM Int := do
  let hashId ← Sys.eval (pseudoHash p.key p.keyLen.toNat)
  let s ← readState
  if peerIsResponsible s.pred.nodeId s.self.nodeId hashId ≠ 0 then handleOwnRequest csocket p
  else if peerIsResponsible s.self.nodeId s.succ.nodeId hashId ≠ 0 then
    let (rsp, succ) ← proxyRequest csocket p s.succ
    modifyState fun s => { s with succ := succ }
    return rsp
  else
    let rt ← Sys.eval (addRequest s.rt hashId csocket p)
    modifyState fun s => { s with rt := rt }
    let _ ← lookupPeer hashId
    return cbOk

/-- The loop of `handle_packet_ctrl` over the open requests (`peer.c:245-249`). -/
def proxyOpenRequests : List Request → Peer → PeerM Peer
  | [], n => return n
  | r :: next, n => do
    let (_, n) ← proxyRequest r.socket r.packet n
    modifyState fun s => { s with srv := serverCloseSocket s.srv r.socket }
    proxyOpenRequests next n

/-- The branch of a REPLY (`peer.c:242-250`). -/
def handleReply (p : Packet) : PeerM Unit := do
  let s ← readState
  let _ ← proxyOpenRequests (getRequests s.rt p.hashId) (peerFromPacket p)
  modifyState fun s => { s with rt := clearRequests s.rt p.hashId }

/-- `handle_packet_ctrl` (`peer.c:225-254`). -/
def handlePacketCtrl (p : Packet) : PeerM Int := do
  let s ← readState
  if flagSet p.flags pktFlagLkup then
    if peerIsResponsible s.pred.nodeId s.self.nodeId p.hashId ≠ 0 then answerLookup p s.self
    else if peerIsResponsible s.self.nodeId s.succ.nodeId p.hashId ≠ 0 then answerLookup p s.succ
    else
      let (_, succ) ← forward s.succ p
      modifyState fun s => { s with succ := succ }
      return cbRemoveClient
  else if flagSet p.flags pktFlagRply then
    handleReply p
    return cbRemoveClient
  else return cbRemoveClient

/-- `handle_packet` (`peer.c:266-272`). -/
def handlePacket (csocket : Int) (p : Packet) : PeerM Int :=
  if flagSet p.flags pktFlagCtrl then handlePacketCtrl p else handlePacketData csocket p

/-! ### The ways a packet can go -/

/-- The branches of `handle_packet_data` and `handle_packet_ctrl`. -/
inductive Route where
  | own
  | proxy
  | register (hashId : UInt16)
  | lookup
  | reply
  | ignore
  deriving DecidableEq, Repr

def route (s : PeerState) (p : Packet) : Except Fault Route :=
  if flagSet p.flags pktFlagCtrl then
    if flagSet p.flags pktFlagLkup then .ok .lookup
    else if flagSet p.flags pktFlagRply then .ok .reply
    else .ok .ignore
  else do
    let hashId ← pseudoHash p.key p.keyLen.toNat
    if peerIsResponsible s.pred.nodeId s.self.nodeId hashId ≠ 0 then .ok .own
    else if peerIsResponsible s.self.nodeId s.succ.nodeId hashId ≠ 0 then .ok .proxy
    else .ok (.register hashId)

def proxyToSucc (csocket : Int) (p : Packet) : PeerM Int := do
  let s ← readState
  let (rsp, succ) ← proxyRequest csocket p s.succ
  modifyState fun s => { s with succ := succ }
  return rsp

def registerRequest (csocket : Int) (p : Packet) (hashId : UInt16) : PeerM Int := do
  let s ← readState
  let rt ← Sys.eval (addRequest s.rt hashId csocket p)
  modifyState fun s => { s with rt := rt }
  let _ ← lookupPeer hashId
  return cbOk

def handleLookup (p : Packet) : PeerM Int := do
  let s ← readState
  if peerIsResponsible s.pred.nodeId s.self.nodeId p.hashId ≠ 0 then answerLookup p s.self
  else if peerIsResponsible s.self.nodeId s.succ.nodeId p.hashId ≠ 0 then answerLookup p s.succ
  else
    let (_, succ) ← forward s.succ p
    modifyState fun s => { s with succ := succ }
    return cbRemoveClient

def Route.run (csocket : Int) (p : Packet) : Route → PeerM Int
  | .own => handleOwnRequest csocket p
  | .proxy => proxyToSucc csocket p
  | .register hashId => registerRequest csocket p hashId
  | .lookup => handleLookup p
  | .reply => do
    handleReply p
    return cbRemoveClient
  | .ignore => return cbRemoveClient

/-- From a state the handler does what the packet's branch does. -/
theorem handlePacket_atState {s : PeerState} {p : Packet} {r : Route} (hr : route s p = .ok r)
    (csocket : Int) :
    (handlePacket csocket p).atState s = (r.run csocket p).atState s := by
  unfold handlePacket
  unfold route at hr
  split at hr
  · next hctrl =>
    rw [if_pos hctrl]
    simp only [handlePacketCtrl, readState, Prog.read_bind, Prog.atState_get]
    split at hr
    · next hl =>
      cases hr
      rw [if_pos hl]
      rfl
    · next hl =>
      rw [if_neg hl]
      split at hr
      · next hrep =>
        cases hr
        rw [if_pos hrep]
        rfl
      · next hrep =>
        cases hr
        rw [if_neg hrep]
        rfl
  · next hctrl =>
    rw [if_neg hctrl, handlePacketData]
    obtain ⟨hashId, hh, hr⟩ := bind_eq_ok.mp hr
    simp only [hh, eval_ok, Prog.ret_bind, readState, Prog.read_bind, Prog.atState_get]
    split at hr
    · next hown =>
      cases hr
      rw [if_pos hown]
      rfl
    · next hown =>
      rw [if_neg hown]
      split at hr
      · next hsucc =>
        cases hr
        rw [if_pos hsucc]
        rfl
      · next hsucc =>
        cases hr
        rw [if_neg hsucc]
        rfl

theorem route_register_data {s : PeerState} {p : Packet} {hashId : UInt16}
    (h : route s p = .ok (.register hashId)) : flagSet p.flags pktFlagCtrl = false := by
  unfold route at h
  split at h
  · split at h
    · cases h
    · split at h <;> cases h
  · next hc => simpa using hc

theorem route_of_exec {W : Type} {H : W → (o : SysOp) → SysRes o → W → Prop} {s s' : PeerState}
    {w w' : W} {csocket a : Int} {p : Packet} (hH : ∀ w f r w1, ¬ H w (.crash f) r w1)
    (he : (handlePacket csocket p).Exec H s w a s' w') : ∃ r, route s p = .ok r := by
  unfold route
  split
  · split
    · exact ⟨_, rfl⟩
    · split <;> exact ⟨_, rfl⟩
  · next hctrl =>
    rw [handlePacket, if_neg hctrl, handlePacketData] at he
    cases hh : pseudoHash p.key p.keyLen.toNat with
    | ok hashId =>
      rw [ok_bind]
      split
      · exact ⟨_, rfl⟩
      · split <;> exact ⟨_, rfl⟩
    | error f =>
      rw [hh] at he
      obtain ⟨r, w1, hcrash, -⟩ := he
      exact absurd hcrash (hH w f r w1)

/-! ### The functions of server.c that close sockets -/

/-- `server_remove_client` (`server.c:23-58`). -/
def serverRemoveClient (csocket : Int) : PeerM Unit := do
  let s ← readState
  if s.srv.clients.any fun c => c.socket == csocket then
    modifyState fun s => { s with srv := unlinkClient s.srv csocket }
    close csocket
  else return ()

/-- `server_deliver_packet` (`server.c:81-89`) with `handle_packet` as callback. -/
def serverDeliverPacket (csocket : Int) (p : Packet) : PeerM Unit := do
  let rsp ← handlePacket csocket p
  if rsp = cbRemoveClient then serverRemoveClient csocket else return ()

/-- The loop at the end of a pass over the clients (`server.c:203-211`). -/
def removeMarked : List Client → PeerM Unit
  | [] => return ()
  | c :: next => do
    if c.state = .remove then
      serverRemoveClient c.socket
      removeMarked next
    else removeMarked next

def serverSweep : PeerM Unit := do
  let s ← readState
  removeMarked s.srv.clients

/-- `server_add_client` (`server.c:91-107`) once `accept` returned `socket`. -/
def serverAddClient (socket : Int) : PeerM Unit :=
  modifyState fun s =>
    { s with srv := { s.srv with
      clients := newClient socket :: s.srv.clients, nClients := s.srv.nClients + 1 } }

end RN2223.Praxis2

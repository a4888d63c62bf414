import RN2223.Praxis2.ReliableNet
import RN2223.Praxis2.MethodFrame
import RN2223.Praxis2.RequestPaths

/-!
# A network in which everything can fail

The results of the calls that reach another peer are given in advance: what a
name resolves to, and for each socket in turn its number, whether it connects and
whether the send succeeds. An answer is only sure on a connection that took a
request, and waits on a socket without a connection are counted.
-/

namespace RN2223.Praxis2
open CMemory

/-- The results of the calls; `connect k` belongs to the socket of `socket k`.
`peer_lookup` asks for IPv4 addresses only. `stray k` is what `recv` reads where no
request is under way, if it ever comes to an end. -/
structure Outcomes where
  resolve : Resolver
  inet : ∀ hostname port, ∀ a ∈ resolve hostname port, a.family = afInet
  socket : ℕ → Int
  connect : ℕ → Int
  send : ℕ → Int
  recv : ℕ → Bytes
  stray : ℕ → Option Bytes

inductive FdEvent where
  | opened (fd : Int)
  | closed (fd : Int)
  deriving DecidableEq, Repr

/-- What the sockets are connected to and which of them took a request, how many
calls there were and waits without a connection, what was sent, and which
descriptors were opened and closed. -/
structure Network where
  remote : ℕ → Option SockAddr
  asked : ℕ → Bool
  sockets : ℕ
  sends : ℕ
  recvs : ℕ
  strays : ℕ
  sent : List (SockAddr × Bytes)
  events : List FdEvent

namespace Network

def start (remote : ℕ → Option SockAddr) : Network :=
  ⟨remote, fun _ => false, 0, 0, 0, 0, [], []⟩

/-- What the number is connected to; a negative one is not a socket. -/
def peerOf (w : Network) (fd : Int) : Option SockAddr :=
  if fd < 0 then none else w.remote fd.toNat

def setPeer (w : Network) (fd : Int) (a : Option SockAddr) : Network :=
  if fd < 0 then w
  else { w with
    remote := Function.update w.remote fd.toNat a
    asked := Function.update w.asked fd.toNat false }

/-- A request is under way on the socket. -/
def Asked (w : Network) (fd : Int) : Prop := w.peerOf fd ≠ none ∧ w.asked fd.toNat = true

instance (w : Network) (fd : Int) : Decidable (w.Asked fd) := inferInstanceAs (Decidable (_ ∧ _))

theorem not_asked_of_none {w : Network} {fd : Int} (h : w.peerOf fd = none) : ¬ w.Asked fd :=
  fun ha => ha.1 h

theorem setPeer_self (w : Network) {fd : Int} (h : 0 ≤ fd) (a : Option SockAddr) :
    (w.setPeer fd a).peerOf fd = a := by
  rw [setPeer, peerOf, if_neg (by omega), if_neg (by omega)]
  exact Function.update_self ..

@[simp] theorem setPeer_sockets (w : Network) (fd : Int) (a : Option SockAddr) :
    (w.setPeer fd a).sockets = w.sockets := by
  unfold setPeer
  split <;> rfl

@[simp] theorem setPeer_sends (w : Network) (fd : Int) (a : Option SockAddr) :
    (w.setPeer fd a).sends = w.sends := by
  unfold setPeer
  split <;> rfl

@[simp] theorem setPeer_strays (w : Network) (fd : Int) (a : Option SockAddr) :
    (w.setPeer fd a).strays = w.strays := by
  unfold setPeer
  split <;> rfl

@[simp] theorem setPeer_sent (w : Network) (fd : Int) (a : Option SockAddr) :
    (w.setPeer fd a).sent = w.sent := by
  unfold setPeer
  split <;> rfl

@[simp] theorem setPeer_events (w : Network) (fd : Int) (a : Option SockAddr) :
    (w.setPeer fd a).events = w.events := by
  unfold setPeer
  split <;> rfl

end Network

def openedBy (fd : Int) : List FdEvent := if fd < 0 then [] else [.opened fd]

/-- The answer to a call. `connect` with an address that is not one, like the zeroed
`addr` of a peer record, leaves the socket unconnected when it succeeds; a send that
fails ends the connection, and one without a connection fails (the signal that would
end the process there is left out). -/
def network (out : Outcomes) (w : Network) : (o : SysOp) → Option (SysRes o × Network)
  | .getaddrinfo hostname port => some (out.resolve hostname port, w)
  | .socket =>
    let fd := out.socket w.sockets
    some (fd, { w.setPeer fd none with
      sockets := w.sockets + 1, events := w.events ++ openedBy fd })
  | .connect fd addr =>
    let status := out.connect (w.sockets - 1)
    some (status, if status < 0 then w
      else w.setPeer fd (if addr.family = afInet then some addr else none))
  | .send fd buffer =>
    match w.peerOf fd with
    | none => some (-1, w)
    | some addr =>
      let status := out.send w.sends
      some (status, if status < 0 then { w.setPeer fd none with sends := w.sends + 1 }
        else { w with
          sends := w.sends + 1
          asked := Function.update w.asked fd.toNat true
          sent := w.sent ++ [(addr, buffer)] })
  | .recv fd =>
    if w.Asked fd then some (out.recv w.recvs, { w with recvs := w.recvs + 1 })
    else (out.stray w.recvs).map fun b => (b, { w with
      recvs := w.recvs + 1, strays := if w.peerOf fd = none then w.strays + 1 else w.strays })
  | .close fd => some ((), { w.setPeer fd none with events := w.events ++ [.closed fd] })
  | .crash _ => none

/-- The socket of this number can be had and `connect` succeeds with it. -/
def Connects (out : Outcomes) (k : ℕ) : Prop := 0 ≤ out.socket k ∧ 0 ≤ out.connect k

instance (out : Outcomes) (k : ℕ) : Decidable (Connects out k) :=
  inferInstanceAs (Decidable (_ ∧ _))

/-! ### The loop over the addresses -/

/-- What the last of `m + 1` sockets is to be connected to: the first address, or what
the record held if an earlier `connect` succeeded. -/
def Outcomes.dest (out : Outcomes) (k m : ℕ) (res held : SockAddr) : SockAddr :=
  if ∃ j < m, Connects out (k + j) then held else res

/-- The last of `m + 1` sockets gets a connection. -/
def Outcomes.Reaches (out : Outcomes) (k m : ℕ) (res held : SockAddr) : Prop :=
  Connects out (k + m) ∧ (out.dest k m res held).family = afInet

instance (out : Outcomes) (k m : ℕ) (res held : SockAddr) :
    Decidable (out.Reaches k m res held) := inferInstanceAs (Decidable (_ ∧ _))

section
variable (out : Outcomes) {k : ℕ} (m : ℕ) (res held : SockAddr)

theorem dest_self : out.dest k m held held = held := ite_self held

theorem dest_zero (k : ℕ) : out.dest k 0 res held = res :=
  if_neg fun ⟨j, hj, _⟩ => absurd hj (Nat.not_lt_zero j)

theorem dest_connects (h : Connects out k) : out.dest k (m + 1) res held = held :=
  if_pos ⟨0, Nat.succ_pos m, h⟩

theorem dest_fails (h : ¬ Connects out k) :
    out.dest k (m + 1) res held = out.dest (k + 1) m res held := by
  have hiff : (∃ j < m + 1, Connects out (k + j)) ↔ ∃ j < m, Connects out (k + 1 + j) := by
    constructor
    · rintro ⟨j, hj, hc⟩
      cases j with
      | zero => exact absurd hc h
      | succ j => exact ⟨j, by omega, by rwa [Nat.add_right_comm]⟩
    · rintro ⟨j, hj, hc⟩
      exact ⟨j + 1, by omega, by rwa [Nat.add_right_comm] at hc⟩
  rw [Outcomes.dest, Outcomes.dest]
  simp only [hiff]

end

/-- The events of `m` sockets, the first with number `k`. -/
def Outcomes.opened (out : Outcomes) : ℕ → ℕ → List FdEvent
  | _, 0 => []
  | k, m + 1 => openedBy (out.socket k) ++ out.opened (k + 1) m

structure Rounded (out : Outcomes) (w w' : Network) : Prop where
  sockets : w'.sockets = w.sockets + 1
  sends : w'.sends = w.sends
  strays : w'.strays = w.strays
  sent : w'.sent = w.sent
  events : w'.events = w.events ++ openedBy (out.socket w.sockets)

theorem rounded_setPeer {out : Outcomes} {w w' : Network} (h : Rounded out w w') (fd : Int)
    (a : Option SockAddr) : Rounded out w (w'.setPeer fd a) :=
  ⟨(w'.setPeer_sockets fd a).trans h.sockets, (w'.setPeer_sends fd a).trans h.sends,
    (w'.setPeer_strays fd a).trans h.strays, (w'.setPeer_sent fd a).trans h.sent,
    (w'.setPeer_events fd a).trans h.events⟩

/-- What `m + 1` rounds of the loop leave, the first with socket number `k`: the
last socket counts. -/
structure Attempted (out : Outcomes) (k m : ℕ) (res held : SockAddr) (w w' : Network)
    (connected : Bool) (q : Peer) : Prop where
  sends : w'.sends = w.sends
  strays : w'.strays = w.strays
  sent : w'.sent = w.sent
  events : w'.events = w.events ++ out.opened k (m + 1)
  socket : q.socket = out.socket (k + m)
  fails : ¬ out.Reaches k m res held → w'.peerOf q.socket = none
  reaches : out.Reaches k m res held →
    connected = true ∧ w'.peerOf q.socket = some (out.dest k m res held)

section
variable {σ : Type} (out : Outcomes) (s : σ) (w : Network)

theorem peerConnectLoop_round (pa : SockAddr) (pas : List SockAddr) (res : SockAddr) (p : Peer)
    (c : Bool) : ∃ w1, Rounded out w w1 ∧
      ((Connects out w.sockets ∧ w1.peerOf (out.socket w.sockets) =
          (if res.family = afInet then some res else none) ∧
        (peerConnectLoop (pa :: pas) res p c : Sys σ _).advance (network out) s w =
          (peerConnectLoop pas p.addr
            { p with socket := out.socket w.sockets, addrLen := 16 } true).advance
            (network out) s w1) ∨
      (¬ Connects out w.sockets ∧ w1.peerOf (out.socket w.sockets) = none ∧
        (peerConnectLoop (pa :: pas) res p c : Sys σ _).advance (network out) s w =
          (peerConnectLoop pas res { p with socket := out.socket w.sockets } c).advance
            (network out) s w1)) := by
  obtain ⟨w1, hw1⟩ : ∃ w1 : Network, w1 = { w.setPeer (out.socket w.sockets) none with
    sockets := w.sockets + 1, events := w.events ++ openedBy (out.socket w.sockets) } := ⟨_, rfl⟩
  have hsocket : network out w .socket = some (out.socket w.sockets, w1) := by
    rw [hw1]
    rfl
  have hround : Rounded out w w1 := by
    rw [hw1]
    exact ⟨rfl, w.setPeer_sends _ _, w.setPeer_strays _ _, w.setPeer_sent _ _, rfl⟩
  have hclosed : w1.peerOf (out.socket w.sockets) = none := by
    rw [hw1]
    by_cases hneg : out.socket w.sockets < 0
    · exact if_pos hneg
    · exact w.setPeer_self (by omega) none
  rw [peerConnectLoop, socket_bind, Prog.advance_call _ s hsocket]
  by_cases hneg : out.socket w.sockets < 0
  · refine ⟨w1, hround, Or.inr ⟨fun hc => ?_, hclosed, ?_⟩⟩
    · exact absurd hc.1 (by omega)
    · rw [if_pos hneg]
  · rw [if_neg hneg, connect_bind]
    have hconnect : network out w1 (.connect (out.socket w.sockets) res) =
        some (out.connect w.sockets, if out.connect w.sockets < 0 then w1
          else w1.setPeer (out.socket w.sockets)
            (if res.family = afInet then some res else none)) := by
      rw [network, hround.sockets, Nat.add_sub_cancel]
    rw [Prog.advance_call _ s hconnect]
    by_cases hstatus : out.connect w.sockets < 0
    · refine ⟨w1, hround, Or.inr ⟨fun hc => ?_, hclosed, ?_⟩⟩
      · exact absurd hc.2 (by omega)
      · rw [if_pos hstatus, if_pos hstatus]
    · refine ⟨w1.setPeer (out.socket w.sockets) (if res.family = afInet then some res else none),
        rounded_setPeer hround _ _, Or.inl ⟨⟨by omega, by omega⟩, w1.setPeer_self (by omega) _, ?_⟩⟩
      rw [if_neg hstatus, if_neg hstatus]

variable {out w} in
theorem attempted_cons {k m : ℕ} {res res' held held' : SockAddr} {q : Peer} {w1 w' : Network}
    {c : Bool}
    (hround : Rounded out w w1) (hk : w.sockets = k)
    (hdest : out.dest (k + 1) m res' held' = out.dest k (m + 1) res held)
    (h : Attempted out w1.sockets m res' held' w1 w' c q) :
    Attempted out k (m + 1) res held w w' c q := by
  obtain ⟨hs, hr, ht, he, hfd, hfails, hreaches⟩ := h
  have hlast : w1.sockets + m = k + (m + 1) := by
    rw [hround.sockets, hk]
    omega
  have hiff : out.Reaches w1.sockets m res' held' ↔ out.Reaches k (m + 1) res held := by
    rw [Outcomes.Reaches, Outcomes.Reaches, hlast, hround.sockets, hk, hdest]
  rw [hiff] at hfails hreaches
  rw [hlast] at hfd
  rw [hround.sockets, hk, hdest] at hreaches
  rw [hround.sockets, hk] at he
  refine ⟨hs.trans hround.sends, hr.trans hround.strays, ht.trans hround.sent, ?_, hfd, hfails,
    hreaches⟩
  rw [he, hround.events, hk, List.append_assoc]
  rfl

theorem peerConnectLoop_attempted (pas : List SockAddr) (pa res : SockAddr) (p : Peer) (c : Bool) :
    ∃ w' connected q, (peerConnectLoop (pa :: pas) res p c : Sys σ _).advance (network out) s w =
        (.ret (connected, q), s, w') ∧
      Attempted out w.sockets pas.length res p.addr w w' connected q := by
  induction pas generalizing pa res p c w with
  | nil =>
    obtain ⟨w1, hround, ⟨hc, hpeer, hadv⟩ | ⟨hc, hpeer, hadv⟩⟩ :=
      peerConnectLoop_round out s w pa [] res p c
    all_goals
      have hevents : w1.events = w.events ++ out.opened w.sockets 1 :=
        hround.events.trans (congrArg _ (List.append_nil _).symm)
    · refine ⟨w1, true, _, hadv, hround.sends, hround.strays, hround.sent, hevents, rfl,
        fun hn => ?_, fun hr => ⟨rfl, ?_⟩⟩
      · exact hpeer.trans (if_neg fun hf => hn ⟨hc, (dest_zero out res p.addr _).symm ▸ hf⟩)
      · have hdest : out.dest w.sockets 0 res p.addr = res := dest_zero out res p.addr _
        have hfamily : res.family = afInet := hdest ▸ hr.2
        rw [List.length_nil, hdest]
        exact hpeer.trans (if_pos hfamily)
    · exact ⟨w1, c, _, hadv, hround.sends, hround.strays, hround.sent, hevents, rfl,
        fun _ => hpeer, fun hr => absurd hr.1 hc⟩
  | cons pa' pas ih =>
    obtain ⟨w1, hround, ⟨hc, -, hadv⟩ | ⟨hc, -, hadv⟩⟩ :=
      peerConnectLoop_round out s w pa (pa' :: pas) res p c
    -- the rounds that follow connect to what the record holds
    · obtain ⟨w', connected, q, hadv', hq⟩ := ih w1 pa' p.addr
        { p with socket := out.socket w.sockets, addrLen := 16 } true
      have hdest := (dest_self out pas.length p.addr (k := w.sockets + 1)).trans
        (dest_connects out pas.length res p.addr hc).symm
      exact ⟨w', connected, q, hadv.trans hadv', attempted_cons hround rfl hdest hq⟩
    · obtain ⟨w', connected, q, hadv', hq⟩ := ih w1 pa' res
        { p with socket := out.socket w.sockets } c
      have hdest := (dest_fails out pas.length res p.addr hc).symm
      exact ⟨w', connected, q, hadv.trans hadv', attempted_cons hround rfl hdest hq⟩

/-- `peer_connect` leaves the peer with the last of its sockets. -/
theorem peerConnect_network (p : Peer) :
    (out.resolve p.hostname p.port = [] ∧
      (peerConnect p : Sys σ _).advance (network out) s w = (.ret (-1, p), s, w)) ∨
    ∃ res rest w' connected q, out.resolve p.hostname p.port = res :: rest ∧
      (peerConnect p : Sys σ _).advance (network out) s w =
        (.ret (if connected then 0 else -1, q), s, w') ∧
      Attempted out w.sockets rest.length res p.addr w w' connected q := by
  have hlookup : network out w (.getaddrinfo p.hostname p.port) =
    some (out.resolve p.hostname p.port, w) := rfl
  rw [peerConnect, peerLookup, getaddrinfo_bind, Prog.advance_call _ s hlookup]
  cases hres : out.resolve p.hostname p.port with
  | nil => exact Or.inl ⟨rfl, rfl⟩
  | cons res rest =>
    obtain ⟨w', connected, q, hadv, hq⟩ :=
      peerConnectLoop_attempted out s w rest res res p false
    refine Or.inr ⟨res, rest, w', connected, q, rfl, ?_, hq⟩
    rw [Prog.advance_bind hadv]
    rfl

/-! ### Forwarding and proxying -/

/-- A packet forwarded to `n` leaves. -/
def Outcomes.Leaves (out : Outcomes) (w : Network) (n : Peer) : Prop :=
  ∃ res rest, out.resolve n.hostname n.port = res :: rest ∧
    out.Reaches w.sockets rest.length res n.addr ∧ 0 ≤ out.send w.sends

/-- Where a packet forwarded to `n` goes. -/
def Outcomes.delivery (out : Outcomes) (w : Network) (n : Peer) : Option SockAddr :=
  match out.resolve n.hostname n.port with
  | [] => none
  | res :: rest =>
    if out.Reaches w.sockets rest.length res n.addr ∧ 0 ≤ out.send w.sends then
      some (out.dest w.sockets rest.length res n.addr)
    else none

/-- What forwarding a control packet to `n` opens and closes: only a delivered one
closes, and only the last socket. -/
def Outcomes.fdEvents (out : Outcomes) (w : Network) (n : Peer) : List FdEvent :=
  match out.resolve n.hostname n.port with
  | [] => []
  | res :: rest => out.opened w.sockets (rest.length + 1) ++
    if out.Reaches w.sockets rest.length res n.addr ∧ 0 ≤ out.send w.sends then
      [.closed (out.socket (w.sockets + rest.length))]
    else []

/-- After a data packet was forwarded to `n`: it is under way on the socket, or there
is no connection, or the name did not resolve and the socket is the one from before. -/
def Outcomes.Left (out : Outcomes) (w : Network) (n : Peer) (w' : Network) (fd : Int) : Prop :=
  (out.Leaves w n ∧ w'.Asked fd) ∨
  (¬ out.Leaves w n ∧ out.resolve n.hostname n.port ≠ [] ∧ w'.peerOf fd = none) ∨
  (out.resolve n.hostname n.port = [] ∧ w' = w ∧ fd = n.socket)

variable {out w} in
theorem network_send_none {fd : Int} (h : w.peerOf fd = none) (b : Bytes) :
    network out w (.send fd b) = some (-1, w) := by
  simp only [network, h]

variable {out w} in
theorem network_send_some {fd : Int} {addr : SockAddr} (h : w.peerOf fd = some addr) (b : Bytes) :
    network out w (.send fd b) = some (out.send w.sends,
      if out.send w.sends < 0 then { w.setPeer fd none with sends := w.sends + 1 }
      else { w with
        sends := w.sends + 1
        asked := Function.update w.asked fd.toNat true
        sent := w.sent ++ [(addr, b)] }) := by
  simp only [network, h]

/-- A send opens and closes nothing and waits for nothing. -/
theorem network_send (out : Outcomes) (w : Network) (fd : Int) (b : Bytes) :
    ∃ r w', network out w (.send fd b) = some (r, w') ∧ w'.events = w.events ∧
      w'.strays = w.strays := by
  cases hc : w.peerOf fd with
  | none => exact ⟨_, _, network_send_none hc b, rfl, rfl⟩
  | some a =>
    refine ⟨_, _, network_send_some hc b, ?_, ?_⟩
    · split
      · exact w.setPeer_events fd none
      · rfl
    · split
      · exact w.setPeer_strays fd none
      · rfl

end

section
variable (out : Outcomes) (s : PeerState) (w : Network)

/-- What `forward` sends, which descriptors it opens and closes for a control packet,
and what the socket it leaves open for a data packet is good for. -/
theorem forward_network {pack : Packet} {b : Bytes} (hser : packetSerialize pack = .ok b)
    (n : Peer) : ∃ status q w',
      (forward n pack).advance (network out) s w = (.ret (status, q), s, w') ∧
      w'.strays = w.strays ∧ w'.sent = w.sent ++ (out.delivery w n).toList.map (·, b) ∧
      (flagSet pack.flags pktFlagCtrl = true → w'.events = w.events ++ out.fdEvents w n) ∧
      (flagSet pack.flags pktFlagCtrl = false → out.Left w n w' q.socket) := by
  rw [forward, hser, eval_ok, Prog.ret_bind]
  obtain ⟨hres, hadv⟩ | ⟨res, rest, w', connected, q, hres, hadv, hq⟩ :=
    peerConnect_network out s w n
  · refine ⟨-1, n, w, ?_, rfl, ?_, fun _ => ?_, fun _ => Or.inr (Or.inr ⟨hres, rfl, rfl⟩)⟩
    · rw [Prog.advance_bind hadv]
      rfl
    · simp [Outcomes.delivery, hres]
    · simp [Outcomes.fdEvents, hres]
  have hsome : out.resolve n.hostname n.port ≠ [] := by
    rw [hres]
    exact List.cons_ne_nil _ _
  have hleaves : out.Leaves w n ↔
      out.Reaches w.sockets rest.length res n.addr ∧ 0 ≤ out.send w.sends := by
    simp [Outcomes.Leaves, hres]
  have hleft : ∀ w' fd, ¬ (out.Reaches w.sockets rest.length res n.addr ∧ 0 ≤ out.send w.sends) →
      w'.peerOf fd = none → out.Left w n w' fd := fun w' fd hnot hpeer =>
    Or.inr (Or.inl ⟨fun hl => hnot (hleaves.mp hl), hsome, hpeer⟩)
  rw [Prog.advance_bind hadv, Prog.ret_bind, Outcomes.delivery, Outcomes.fdEvents, hres]
  dsimp only
  by_cases hlast : out.Reaches w.sockets rest.length res n.addr
  · obtain ⟨hconnected, haddr⟩ := hq.reaches hlast
    have hfd : ¬ q.socket < 0 := by
      intro hneg
      rw [Network.peerOf, if_pos hneg] at haddr
      cases haddr
    rw [hconnected, if_pos rfl, if_neg (show ¬ (0 : Int) < 0 by decide), sendall_bind,
      Prog.advance_call _ s (network_send_some haddr b), hq.sends, hq.sent]
    by_cases hsend : out.send w.sends < 0
    · have hnot : ¬ (out.Reaches w.sockets rest.length res n.addr ∧ 0 ≤ out.send w.sends) :=
        fun h => absurd h.2 (by omega)
      rw [if_pos hsend, if_pos hsend, if_neg hnot, if_neg hnot, List.append_nil]
      refine ⟨-1, q, _, rfl, (w'.setPeer_strays _ _).trans hq.strays, ?_, fun _ => ?_,
        fun _ => hleft _ _ hnot (w'.setPeer_self (by omega) none)⟩
      · exact ((w'.setPeer_sent _ _).trans hq.sent).trans (List.append_nil _).symm
      · exact (w'.setPeer_events _ _).trans hq.events
    · have hdelivered : out.Reaches w.sockets rest.length res n.addr ∧ 0 ≤ out.send w.sends :=
        ⟨hlast, by omega⟩
      rw [if_neg hsend, if_neg hsend, if_pos hdelivered, if_pos hdelivered]
      by_cases hctrl : flagSet pack.flags pktFlagCtrl = true
      · rw [if_pos hctrl]
        refine ⟨0, q.closed, _, rfl, (Network.setPeer_strays _ _ _).trans hq.strays,
          Network.setPeer_sent _ _ _, fun _ => ?_,
          fun hdata => absurd (hctrl.symm.trans hdata) (by decide)⟩
        rw [← List.append_assoc, ← hq.events, ← hq.socket]
      · rw [if_neg hctrl]
        refine ⟨0, q, _, rfl, hq.strays, rfl, fun h => absurd h hctrl,
          fun _ => Or.inl ⟨hleaves.mpr hdelivered, ?_, Function.update_self ..⟩⟩
        exact haddr ▸ Option.some_ne_none _
  · have hnot : ¬ (out.Reaches w.sockets rest.length res n.addr ∧ 0 ≤ out.send w.sends) :=
      fun h => hlast h.1
    have hpeer := hq.fails hlast
    rw [if_neg hnot, if_neg hnot, Option.toList_none, List.map_nil, List.append_nil,
      List.append_nil]
    cases connected with
    | false =>
      exact ⟨-1, q, w', rfl, hq.strays, hq.sent, fun _ => hq.events,
        fun _ => hleft _ _ hnot hpeer⟩
    | true =>
      refine ⟨-1, q, w', ?_, hq.strays, hq.sent, fun _ => hq.events,
        fun _ => hleft _ _ hnot hpeer⟩
      rw [if_pos rfl, if_neg (show ¬ (0 : Int) < 0 by decide), sendall_bind,
        Prog.advance_call _ s (network_send_none hpeer b)]
      rfl

/-- The rest of `proxy_request` behind a wait that ends. -/
theorem recvall_network (csocket : Int) (q : Peer) {w1 w2 : Network} {b : Bytes}
    (hrecv : network out w1 (.recv q.socket) = some (b, w2)) : ∃ w',
    (recvall q.socket >>= fun answer => sendall csocket answer >>= fun _ =>
      peerDisconnect q >>= fun n => (pure (cbRemoveClient, n) : PeerM (Int × Peer))).advance
        (network out) s w1 = (.ret (cbRemoveClient, q.closed), s, w') ∧ w'.strays = w2.strays := by
  obtain ⟨w3, hclose, hw3⟩ : ∃ w3, network out w2 (.close q.socket) = some ((), w3) ∧
      w3.strays = w2.strays := ⟨_, rfl, w2.setPeer_strays _ _⟩
  obtain ⟨r, w4, hsend, -, hw4⟩ := network_send out w3 csocket b
  obtain ⟨w5, hclose', hw5⟩ : ∃ w5, network out w4 (.close q.socket) = some ((), w5) ∧
      w5.strays = w4.strays := ⟨_, rfl, w4.setPeer_strays _ _⟩
  refine ⟨w5, ?_, hw5.trans (hw4.trans hw3)⟩
  refine (Prog.advance_call _ s hrecv).trans ?_
  refine (Prog.advance_call _ s hclose).trans ?_
  refine (Prog.advance_call _ s hsend).trans ?_
  exact (Prog.advance_call _ s hclose').trans rfl

/-- The wait of `proxy_request` ends and is one on a connection: the request left, or the
name did not resolve and something is connected to the old socket. -/
def Outcomes.Answers (out : Outcomes) (w : Network) (n : Peer) : Prop :=
  out.Leaves w n ∨ (out.resolve n.hostname n.port = [] ∧ w.peerOf n.socket ≠ none ∧
    (w.Asked n.socket ∨ (out.stray w.recvs).isSome = true))

variable {out w} in
theorem recv_asked {fd : Int} (h : w.Asked fd) :
    network out w (.recv fd) = some (out.recv w.recvs, { w with recvs := w.recvs + 1 }) :=
  if_pos h

variable {out w} in
theorem recv_stray {fd : Int} (h : ¬ w.Asked fd) :
    network out w (.recv fd) = (out.stray w.recvs).map fun b => (b, { w with
      recvs := w.recvs + 1, strays := if w.peerOf fd = none then w.strays + 1 else w.strays }) :=
  if_neg h

variable {out w} in
theorem recv_left {n : Peer} {w1 : Network} {fd : Int} (h : out.Left w n w1 fd)
    (hw1 : w1.strays = w.strays) :
    (out.Answers w n ∧
      ∃ b w2, network out w1 (.recv fd) = some (b, w2) ∧ w2.strays = w.strays) ∨
    (¬ out.Answers w n ∧ (network out w1 (.recv fd) = none ∨
      ∃ b w2, network out w1 (.recv fd) = some (b, w2) ∧ w2.strays = w.strays + 1)) := by
  obtain ⟨hleaves, hasked⟩ | ⟨hnot, hres, hpeer⟩ | ⟨hres, rfl, rfl⟩ := h
  · exact Or.inl ⟨Or.inl hleaves, _, _, recv_asked hasked, hw1⟩
  · have hno : ¬ out.Answers w n := by
      rintro (hl | ⟨hnil, -⟩)
      · exact hnot hl
      · exact hres hnil
    rw [recv_stray (Network.not_asked_of_none hpeer), if_pos hpeer, hw1]
    cases out.stray w1.recvs with
    | none => exact Or.inr ⟨hno, Or.inl rfl⟩
    | some b => exact Or.inr ⟨hno, Or.inr ⟨_, _, rfl, rfl⟩⟩
  -- the name does not resolve, and nothing has changed
  · have hstays : ¬ out.Leaves w1 n := by
      rintro ⟨res, rest, hcons, -⟩
      rw [hres] at hcons
      cases hcons
    by_cases hasked : w1.Asked n.socket
    · exact Or.inl ⟨Or.inr ⟨hres, hasked.1, Or.inl hasked⟩, _, _, recv_asked hasked, rfl⟩
    · rw [Outcomes.Answers, recv_stray hasked]
      cases hstray : out.stray w1.recvs with
      | none => exact Or.inr ⟨by simp [hstays, hasked], Or.inl rfl⟩
      | some b =>
        by_cases hpeer : w1.peerOf n.socket = none
        · rw [if_pos hpeer]
          exact Or.inr ⟨by simp [hstays, hpeer], Or.inr ⟨_, _, rfl, rfl⟩⟩
        · rw [if_neg hpeer]
          exact Or.inl ⟨Or.inr ⟨hres, hpeer, Or.inr rfl⟩, _, _, rfl, rfl⟩

/-- A proxied request is answered, or it is waited for without an end or on a socket
that is not connected. -/
theorem proxyRequest_network {p : Packet} {b : Bytes} (hser : packetSerialize p = .ok b)
    (hdata : flagSet p.flags pktFlagCtrl = false) (csocket : Int) (n : Peer) :
    ∃ w' end', (proxyRequest csocket p n).advance (network out) s w = (end', s, w') ∧
      ((out.Answers w n ∧ (∃ q, end' = .ret (cbRemoveClient, q)) ∧ w'.strays = w.strays) ∨
        (¬ out.Answers w n ∧ ((∃ q, end' = .ret (cbRemoveClient, q)) ∧ w'.strays = w.strays + 1 ∨
          ∃ fd k, end' = .call (.recv fd) k ∧ network out w' (.recv fd) = none))) := by
  obtain ⟨status, q, w1, hadv, hw1, -, -, hleft⟩ := forward_network out s w hser n
  rw [proxyRequest, Prog.advance_bind hadv, Prog.ret_bind]
  obtain ⟨ha, answer, w2, hrecv, hw2⟩ | ⟨hno, hrecv | ⟨answer, w2, hrecv, hw2⟩⟩ :=
    recv_left (hleft hdata) hw1
  · obtain ⟨w', hrun, hw'⟩ := recvall_network out s csocket q hrecv
    exact ⟨w', _, hrun, Or.inl ⟨ha, ⟨_, rfl⟩, hw'.trans hw2⟩⟩
  · exact ⟨w1, _, Prog.advance_blocked _ s hrecv, Or.inr ⟨hno, Or.inr ⟨q.socket, _, rfl, hrecv⟩⟩⟩
  · obtain ⟨w', hrun, hw'⟩ := recvall_network out s csocket q hrecv
    exact ⟨w', _, hrun, Or.inr ⟨hno, Or.inl ⟨⟨_, rfl⟩, hw'.trans hw2⟩⟩⟩

theorem peerGetIp_network (n : Peer) : ∃ ip, (peerGetIp n : PeerM _).advance (network out) s w =
    (.ret ip, s, w) := by
  rw [peerGetIp, peerLookup, getaddrinfo_bind]
  have hlookup : network out w (.getaddrinfo n.hostname n.port) =
    some (out.resolve n.hostname n.port, w) := rfl
  rw [Prog.advance_call _ s hlookup]
  cases out.resolve n.hostname n.port with
  | nil => exact ⟨0, rfl⟩
  | cons res rest => exact ⟨res.ip, rfl⟩

theorem lookupPeer_network (hashId : UInt16) : ∃ status succ ip w',
    (lookupPeer hashId).advance (network out) s w =
      (.ret status, { s with succ := succ }, w') ∧
    w'.strays = w.strays ∧ w'.sent = w.sent ++
      (out.delivery w s.succ).toList.map (·, (lookupPacket s.self ip hashId).wire) ∧
    w'.events = w.events ++ out.fdEvents w s.succ := by
  obtain ⟨ip, hip⟩ := peerGetIp_network out s w s.self
  have hctrl : flagSet (lookupPacket s.self ip hashId).flags pktFlagCtrl = true :=
    show flagSet (0 ||| pktFlagCtrl ||| pktFlagLkup) pktFlagCtrl = true by decide
  have hser := packetSerialize_exact fun h => absurd (hctrl.symm.trans h) (by decide)
  obtain ⟨status, q, w', hadv, hstrays, hsent, hevents, -⟩ :=
    forward_network out s w hser s.succ
  refine ⟨if status < 0 then -1 else 0, q, ip, w', ?_, hstrays, hsent, hevents hctrl⟩
  rw [lookupPeer, readState, Prog.read_bind, Prog.advance_get, Prog.advance_bind hip, Prog.ret_bind,
    Prog.advance_bind hadv, Prog.ret_bind]
  dsimp only
  rw [modifyState, Prog.modify_bind, Prog.advance_get, Prog.advance_put]
  split <;> rfl

theorem handleOwnRequest_network (csocket : Int) {p : Packet} (hp : p.Exact) : ∃ ht w',
    (handleOwnRequest csocket p).advance (network out) s w =
      (.ret cbRemoveClient, { s with ht := ht }, w') ∧ w'.strays = w.strays := by
  obtain ⟨ack, hexec, hack⟩ := executeRequest_taken s.ht hp
  have hdata : flagSet ack.flags pktFlagCtrl = false := by
    rw [hack.flags]
    cases takenMethod p.flags <;> decide
  obtain ⟨b, hser, -⟩ := packetSerialize_head hdata hack.key hack.value
  refine ⟨(takenMethod p.flags).change s.ht p, ?_⟩
  simp only [handleOwnRequest, readState, modifyState, Prog.read_bind, Prog.advance_get, hexec,
    eval_ok, Prog.ret_bind, Prog.modify_bind, Prog.advance_put, hser, sendall_bind]
  obtain ⟨r, w', hsend, -, hstrays⟩ := network_send out w csocket b
  exact ⟨w', Prog.advance_call _ _ hsend, hstrays⟩

end

/-! ### What becomes of a data packet -/

/-- The handler returns without a wait on a socket that is not connected, having
registered the request and sent a LOOKUP to an address of the successor, or having
left the table alone. -/
def HandlesData (out : Outcomes) (remote : ℕ → Option SockAddr) (s : PeerState) (csocket : Int)
    (p : Packet) : Prop :=
  ∃ a s' w', (handlePacketData csocket p).advance (network out) s (Network.start remote) =
      (.ret a, s', w') ∧ w'.strays = 0 ∧
    ((a = cbOk ∧ ∃ hashId ip, ∃ addr ∈ out.resolve s.succ.hostname s.succ.port,
        pseudoHash p.key p.keyLen.toNat = .ok hashId ∧
        getRequests s'.rt hashId = getRequests s.rt hashId ++ [⟨p, csocket⟩] ∧
        (addr, (lookupPacket s.self ip hashId).wire) ∈ w'.sent) ∨
      (a = cbRemoveClient ∧ s'.rt = s.rt))

/-- A packet to the successor can leave: the last of the sockets connects, the send
succeeds, and no earlier `connect` succeeded, for that redirects the last one to the
address in the record, which would have to be one. -/
def PacketLeaves (out : Outcomes) (succ : Peer) : Prop :=
  ∃ res rest, out.resolve succ.hostname succ.port = res :: rest ∧
    Connects out rest.length ∧ 0 ≤ out.send 0 ∧
    ((∃ j < rest.length, Connects out j) → succ.addr.family = afInet)

/-- A LOOKUP can leave for an address of the successor. -/
def LookupLeaves (out : Outcomes) (succ : Peer) : Prop :=
  ∃ res rest, out.resolve succ.hostname succ.port = res :: rest ∧
    Connects out rest.length ∧ 0 ≤ out.send 0 ∧
    ((∃ j < rest.length, Connects out j) → succ.addr ∈ res :: rest)

/-- A proxied request can leave; or the name does not resolve, and there is a connection
with an answer on it under the number of the successor's last socket. -/
def ProxyAnswered (out : Outcomes) (remote : ℕ → Option SockAddr) (succ : Peer) : Prop :=
  PacketLeaves out succ ∨
  (out.resolve succ.hostname succ.port = [] ∧ (Network.start remote).peerOf succ.socket ≠ none ∧
    (out.stray 0).isSome = true)

/-- The successor can be reached as far as the packet's branch needs it. -/
def SuccReached (out : Outcomes) (remote : ℕ → Option SockAddr) (s : PeerState) (p : Packet) :
    Prop :=
  match route s p with
  | .ok .proxy => ProxyAnswered out remote s.succ
  | .ok (.register _) => LookupLeaves out s.succ
  | _ => True

theorem reaches_iff {out : Outcomes} {k m : ℕ} {res held : SockAddr}
    (hres : res.family = afInet) : out.Reaches k m res held ↔
      Connects out (k + m) ∧ ((∃ j < m, Connects out (k + j)) → held.family = afInet) := by
  rw [Outcomes.Reaches, Outcomes.dest]
  refine and_congr_right fun _ => ?_
  split
  · next hmore => exact (imp_iff_right hmore).symm
  · next hnone => exact iff_of_true hres fun hmore => absurd hmore hnone

theorem resolved_inet {out : Outcomes} {n : Peer} {res : SockAddr} {rest : List SockAddr}
    (h : out.resolve n.hostname n.port = res :: rest) : ∀ a ∈ res :: rest, a.family = afInet :=
  h ▸ out.inet n.hostname n.port

theorem leaves_start (out : Outcomes) (remote : ℕ → Option SockAddr) (succ : Peer) :
    out.Leaves (Network.start remote) succ ↔ PacketLeaves out succ := by
  refine exists_congr fun res => exists_congr fun rest => and_congr_right fun hres => ?_
  have hinet := resolved_inet hres res List.mem_cons_self
  rw [reaches_iff hinet, and_assoc]
  simp only [Network.start, Nat.zero_add]
  exact and_congr_right fun _ => and_comm

theorem answers_start (out : Outcomes) (remote : ℕ → Option SockAddr) (succ : Peer) :
    out.Answers (Network.start remote) succ ↔ ProxyAnswered out remote succ := by
  have hidle : ¬ (Network.start remote).Asked succ.socket := fun h => Bool.false_ne_true h.2
  rw [Outcomes.Answers, ProxyAnswered, leaves_start, or_iff_right hidle]
  rfl

theorem delivery_start (out : Outcomes) (remote : ℕ → Option SockAddr) (succ : Peer) :
    (∃ addr ∈ out.resolve succ.hostname succ.port,
      out.delivery (Network.start remote) succ = some addr) ↔ LookupLeaves out succ := by
  unfold Outcomes.delivery LookupLeaves
  cases hres : out.resolve succ.hostname succ.port with
  | nil => simp
  | cons res rest =>
    have hinet := resolved_inet hres
    simp only [Network.start, Nat.zero_add, reaches_iff (hinet res List.mem_cons_self)]
    constructor
    · rintro ⟨addr, hmem, hsome⟩
      obtain ⟨⟨⟨hlast, -⟩, hsend⟩, haddr⟩ := Option.ite_none_right_eq_some.mp hsome
      refine ⟨res, rest, rfl, hlast, hsend, fun hmore => ?_⟩
      simp only [Outcomes.dest, Nat.zero_add, if_pos hmore] at haddr
      cases haddr
      exact hmem
    · rintro ⟨_, _, hcons, hlast, hsend, hmem⟩
      cases hcons
      have hheld : (∃ j < rest.length, Connects out j) → succ.addr.family = afInet :=
        fun hmore => hinet _ (hmem hmore)
      refine ⟨_, ?_, if_pos ⟨⟨hlast, hheld⟩, hsend⟩⟩
      simp only [Outcomes.dest, Nat.zero_add]
      split
      · next hmore => exact hmem hmore
      · exact List.mem_cons_self

section
variable (out : Outcomes) (remote : ℕ → Option SockAddr) (s : PeerState) (csocket : Int)
  {p : Packet}

theorem registerRequest_handled (hp : p.Exact) (hashId : UInt16) : ∃ rt succ ip w',
    (registerRequest csocket p hashId).advance (network out) s (Network.start remote) =
      (.ret cbOk, { s with rt := rt, succ := succ }, w') ∧
    getRequests rt hashId = getRequests s.rt hashId ++ [⟨p, csocket⟩] ∧
    w'.strays = 0 ∧ w'.sent = (out.delivery (Network.start remote) s.succ).toList.map
      (·, (lookupPacket s.self ip hashId).wire) := by
  obtain ⟨rt, hadd, -, hget, -⟩ := addRequest_spec s.rt hashId csocket hp
  obtain ⟨status, succ, ip, w', hadv, hstrays, hsent, -⟩ := lookupPeer_network out
    { s with rt := rt } (Network.start remote) hashId
  refine ⟨rt, succ, ip, w', ?_, hget, hstrays, hsent⟩
  rw [registerRequest, readState, Prog.read_bind, Prog.advance_get, hadd, eval_ok, Prog.ret_bind,
    modifyState, Prog.modify_bind, Prog.advance_get, Prog.advance_put, Prog.advance_bind hadv]
  rfl

theorem proxyToSucc_handled {b : Bytes} (hser : packetSerialize p = .ok b)
    (hdata : flagSet p.flags pktFlagCtrl = false) : ∃ end' s' w',
    (proxyToSucc csocket p).advance (network out) s (Network.start remote) = (end', s', w') ∧
    ((ProxyAnswered out remote s.succ ∧ end' = .ret cbRemoveClient ∧ s'.rt = s.rt ∧
        w'.strays = 0) ∨
      (¬ ProxyAnswered out remote s.succ ∧
        (w'.strays = 1 ∨ ∃ fd k, end' = .call (.recv fd) k))) := by
  obtain ⟨w', end', hadv, hend⟩ := proxyRequest_network out s
    (Network.start remote) hser hdata csocket s.succ
  have hproxy : (proxyToSucc csocket p).advance (network out) s (Network.start remote) =
      (end' >>= fun rsp => do
        modifyState fun s => { s with succ := rsp.2 }
        return rsp.1).advance (network out) s w' := by
    rw [proxyToSucc, readState, Prog.read_bind, Prog.advance_get, Prog.advance_bind hadv]
  rw [answers_start] at hend
  obtain ⟨ha, ⟨q, rfl⟩, hstrays⟩ | ⟨hno, ⟨⟨q, rfl⟩, hstrays⟩ | ⟨fd, k, rfl, hrecv⟩⟩ := hend
  · exact ⟨_, _, w', hproxy, Or.inl ⟨ha, rfl, rfl, hstrays⟩⟩
  · exact ⟨_, _, w', hproxy, Or.inr ⟨hno, Or.inl hstrays⟩⟩
  · rw [Prog.call_bind, Prog.advance_blocked _ s hrecv] at hproxy
    exact ⟨_, s, w', hproxy, Or.inr ⟨hno, Or.inr ⟨fd, _, rfl⟩⟩⟩

theorem handlePacketData_route {r : Route} (hdata : flagSet p.flags pktFlagCtrl = false)
    (hr : route s p = .ok r) :
    (handlePacketData csocket p).advance (network out) s (Network.start remote) =
      (r.run csocket p).advance (network out) s (Network.start remote) := by
  have hsame := handlePacket_atState hr csocket
  rw [handlePacket, hdata, if_neg (by decide)] at hsame
  rw [← Prog.advance_atState, hsame, Prog.advance_atState]

variable (hp : p.Exact) (hdata : flagSet p.flags pktFlagCtrl = false)
include hp hdata

theorem handlesData_own (hr : route s p = .ok .own) : HandlesData out remote s csocket p := by
  unfold HandlesData
  rw [handlePacketData_route out remote s csocket hdata hr]
  obtain ⟨ht, w', hadv, hstrays⟩ := handleOwnRequest_network out s
    (Network.start remote) csocket hp
  exact ⟨cbRemoveClient, _, w', hadv, hstrays, Or.inr ⟨rfl, rfl⟩⟩

theorem handlesData_proxy (hr : route s p = .ok .proxy) :
    HandlesData out remote s csocket p ↔ ProxyAnswered out remote s.succ := by
  unfold HandlesData
  rw [handlePacketData_route out remote s csocket hdata hr]
  obtain ⟨end', s', w', hadv, ⟨ha, rfl, hrt, hstrays⟩ | ⟨hno, hend⟩⟩ :=
    proxyToSucc_handled out remote s csocket (packetSerialize_exact fun _ => hp) hdata
  · exact iff_of_true ⟨cbRemoveClient, s', w', hadv, hstrays, Or.inr ⟨rfl, hrt⟩⟩ ha
  · refine iff_of_false ?_ hno
    rintro ⟨a, s2, w2, hret, hstrays, -⟩
    cases hadv.symm.trans hret
    obtain hone | ⟨fd, k, hcall⟩ := hend
    · omega
    · cases hcall

theorem handlesData_register (hr : route s p = .ok (.register (keyHash p.key))) :
    HandlesData out remote s csocket p ↔ LookupLeaves out s.succ := by
  unfold HandlesData
  rw [handlePacketData_route out remote s csocket hdata hr, ← delivery_start out remote]
  obtain ⟨rt, succ, ip, w', hadv, hget, hstrays, hsent⟩ :=
    registerRequest_handled out remote s csocket hp (keyHash p.key)
  constructor
  · rintro ⟨a, s2, w2, hret, -, ⟨rfl, hashId, ip', addr, haddr, -, -, hmem⟩ | ⟨rfl, -⟩⟩
    · cases hadv.symm.trans hret
      rw [hsent] at hmem
      obtain ⟨addr', haddr', he⟩ := List.mem_map.mp hmem
      obtain rfl := (Prod.mk.inj he).1
      exact ⟨addr', haddr, Option.mem_toList.mp haddr'⟩
    · exact absurd (hadv.symm.trans hret) (by simp [cbOk, cbRemoveClient])
  · rintro ⟨addr, haddr, hsome⟩
    refine ⟨cbOk, _, w', hadv, hstrays, Or.inl ⟨rfl, keyHash p.key, ip, addr, haddr,
      pseudoHash_exact hp.key, hget, ?_⟩⟩
    rw [hsent, hsome]
    exact List.mem_cons_self

/-- A data packet is handled cleanly exactly when the successor could be reached
where its branch needs the successor. -/
theorem handlesData_iff : HandlesData out remote s csocket p ↔ SuccReached out remote s p := by
  unfold SuccReached
  obtain hr | hr | hr := route_data s hp hdata
  · rw [hr]
    exact iff_of_true (handlesData_own out remote s csocket hp hdata hr) trivial
  · rw [hr]
    exact handlesData_proxy out remote s csocket hp hdata hr
  · rw [hr]
    exact handlesData_register out remote s csocket hp hdata hr

end

def peer10 : PeerState :=
  { freshPeer with
    self := peerInit 10 "self" 1000, pred := peerInit 5 "pred" 1000, succ := peerInit 20 "succ" 1000 }

/-- GET for the key `d`, whose hash is 100. -/
def getD : Packet := { packetNew with flags := 4, keyLen := 1, key := [100] }

/-- Two addresses, of which only the second one answers. -/
def reaching : Outcomes where
  resolve _ _ := [.inet 0 1000, .inet 1 1000]
  inet := by
    rintro _ _ a (_ | ⟨_, _ | ⟨_, ⟨⟩⟩⟩) <;> rfl
  socket k := 7 + k
  connect k := if k = 0 then -1 else 0
  send _ := 0
  recv _ := []
  stray _ := none

/-- A LOOKUP is under way to the successor. -/
theorem handlesData_iff_getD : HandlesData reaching (fun _ => none) peer10 6 getD := by
  have hr : route peer10 getD = .ok (.register (keyHash getD.key)) := by decide
  rw [handlesData_iff reaching (fun _ => none) peer10 6 ⟨rfl, rfl⟩ rfl, SuccReached, hr]
  refine ⟨_, _, rfl, ⟨by decide, by decide⟩, by decide, fun ⟨j, hj, hconnects⟩ => ?_⟩
  obtain rfl : j = 0 := Nat.lt_one_iff.mp hj
  exact absurd hconnects.2 (by decide)

/-- Every name resolves to one address, and nobody listens there. -/
def refusing : Outcomes where
  resolve _ _ := [.inet 0 1000]
  inet := by
    rintro _ _ a (_ | ⟨_, ⟨⟩⟩)
    rfl
  socket _ := 7
  connect _ := -1
  send _ := -1
  recv _ := []
  stray _ := none

/-- The request waits in the table, and no LOOKUP for it is under way. -/
theorem refused_lookup_ignored : ¬ HandlesData refusing (fun _ => none) peer10 6 getD := by
  intro h
  have hr : route peer10 getD = .ok (.register (keyHash getD.key)) := by decide
  obtain ⟨res, rest, hres, ⟨-, hconnect⟩, -⟩ :=
    (handlesData_register refusing (fun _ => none) peer10 6 ⟨rfl, rfl⟩ rfl hr).mp h
  exact absurd hconnect (show ¬ (0 : Int) ≤ -1 by decide)

end RN2223.Praxis2

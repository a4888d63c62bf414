import RN2223.Praxis2.FailingNetwork

/-!
# The descriptors a packet opens and closes

Any packet, with any result of every call it makes: whether the sockets opened
while it is handled are closed once each, and nothing else is. The sockets of
`peer_connect` are closed by `peer_disconnect` in `forward`, and those of a proxied
request by `recvall` and by `peer_disconnect` behind it.
-/

namespace RN2223.Praxis2
open CMemory

/-- The own descriptors open after the events; none once a descriptor is closed that
is not among them. -/
def heldAfter : Finset Int → List FdEvent → Option (Finset Int)
  | held, [] => some held
  | held, .opened fd :: es => if fd ∈ held then none else heldAfter (insert fd held) es
  | held, .closed fd :: es => if fd ∈ held then heldAfter (held.erase fd) es else none

/-- Everything opened is closed once, and nothing else is. -/
def Balanced (es : List FdEvent) : Prop := heldAfter ∅ es = some ∅

instance (es : List FdEvent) : Decidable (Balanced es) := inferInstanceAs (Decidable (_ = _))

theorem heldAfter_append (held : Finset Int) (es es' : List FdEvent) :
    heldAfter held (es ++ es') = (heldAfter held es).bind fun held' => heldAfter held' es' := by
  induction es generalizing held with
  | nil => rfl
  | cons e es ih =>
    cases e with
    | opened fd =>
      simp only [List.cons_append, heldAfter]
      split
      · rfl
      · exact ih _
    | closed fd =>
      simp only [List.cons_append, heldAfter]
      split
      · exact ih _
      · rfl

theorem heldAfter_closed_twice (held : Finset Int) (fd : Int) :
    heldAfter held [.closed fd, .closed fd] = none := by
  simp [heldAfter]

/-- A second `close` is never made up for. -/
theorem not_balanced_of_closed_twice (es rest : List FdEvent) (fd : Int) :
    ¬ Balanced (es ++ [.closed fd, .closed fd] ++ rest) := by
  intro h
  rw [Balanced, heldAfter_append, heldAfter_append] at h
  cases hes : heldAfter ∅ es with
  | none =>
    rw [hes] at h
    cases h
  | some held =>
    rw [hes, Option.bind_some, heldAfter_closed_twice] at h
    cases h

/-! ### Connecting -/

section
variable (out : Outcomes)

theorem heldAfter_opened (k m : ℕ) {held held' : Finset Int}
    (h : heldAfter held (out.opened k m) = some held') :
    held'.card = held.card + (out.opened k m).length := by
  induction m generalizing k held with
  | zero =>
    cases h
    rfl
  | succ m ih =>
    rw [Outcomes.opened] at h ⊢
    by_cases hneg : out.socket k < 0
    · rw [openedBy, if_pos hneg, List.nil_append] at h ⊢
      exact ih (k + 1) h
    · rw [openedBy, if_neg hneg, List.singleton_append] at h ⊢
      rw [heldAfter] at h
      obtain ⟨hnot, h⟩ := Option.ite_none_left_eq_some.mp h
      rw [ih (k + 1) h, Finset.card_insert_of_notMem hnot, List.length_cons]
      omega

theorem opened_succ (k m : ℕ) :
    out.opened k (m + 1) = out.opened k m ++ openedBy (out.socket (k + m)) := by
  induction m generalizing k with
  | zero => exact List.append_nil _
  | succ m ih =>
    rw [Outcomes.opened, ih (k + 1), ← List.append_assoc, Nat.add_right_comm]
    rfl

theorem openedBy_eq_nil_iff (fd : Int) : openedBy fd = [] ↔ fd < 0 := by
  simp [openedBy]

theorem opened_eq_nil_iff (k m : ℕ) : out.opened k m = [] ↔ ∀ j < m, out.socket (k + j) < 0 := by
  induction m with
  | zero => exact iff_of_true rfl fun j hj => absurd hj (Nat.not_lt_zero j)
  | succ m ih =>
    rw [opened_succ, List.append_eq_nil_iff, ih, openedBy_eq_nil_iff, Nat.forall_lt_succ_right]

theorem balanced_opened_iff (k m : ℕ) : Balanced (out.opened k m) ↔ out.opened k m = [] := by
  constructor
  · intro h
    have hcard := heldAfter_opened out k m h
    rw [Finset.card_empty, Nat.zero_add] at hcard
    exact List.length_eq_zero_iff.mp hcard.symm
  · intro h
    rw [h]
    rfl

theorem balanced_opened_closed (m : ℕ) (hlast : 0 ≤ out.socket m) :
    Balanced (out.opened 0 (m + 1) ++ [.closed (out.socket m)]) ↔ out.opened 0 m = [] := by
  have hopened : out.opened 0 (m + 1) = out.opened 0 m ++ [.opened (out.socket m)] := by
    rw [opened_succ, Nat.zero_add, openedBy, if_neg (by omega)]
  constructor
  · intro h
    rw [Balanced, heldAfter_append] at h
    obtain ⟨held, hheld, hclosed⟩ := Option.bind_eq_some_iff.mp h
    have hcard := heldAfter_opened out 0 (m + 1) hheld
    rw [heldAfter] at hclosed
    obtain ⟨hmem, hempty⟩ := Option.ite_none_right_eq_some.mp hclosed
    have hone := Finset.card_erase_of_mem hmem
    rw [Option.some.inj hempty, Finset.card_empty] at hone
    have hpos := Finset.card_pos.mpr ⟨_, hmem⟩
    rw [hopened, List.length_append, List.length_singleton, Finset.card_empty] at hcard
    exact List.length_eq_zero_iff.mp (by omega)
  · intro h
    rw [hopened, h]
    simp [Balanced, heldAfter]

/-- The packet to `n` leaves on the only socket that is opened for it, or no socket
is opened at all. -/
def LeavesOnce (n : Peer) : Prop :=
  match out.resolve n.hostname n.port with
  | [] => True
  | _ :: rest => (∀ j < rest.length, out.socket j < 0) ∧
    (out.socket rest.length < 0 ∨ (Connects out rest.length ∧ 0 ≤ out.send 0))

theorem balanced_fdEvents_iff (remote : ℕ → Option SockAddr) (n : Peer) :
    Balanced (out.fdEvents (Network.start remote) n) ↔ LeavesOnce out n := by
  unfold Outcomes.fdEvents LeavesOnce
  cases hres : out.resolve n.hostname n.port with
  | nil => exact iff_of_true rfl trivial
  | cons res rest =>
    have hnil : out.opened 0 rest.length = [] ↔ ∀ j < rest.length, out.socket j < 0 := by
      simpa only [Nat.zero_add] using opened_eq_nil_iff out 0 rest.length
    simp only [Network.start, Nat.zero_add,
      reaches_iff (resolved_inet hres res List.mem_cons_self), ← hnil]
    by_cases hsent : Connects out rest.length ∧ 0 ≤ out.send 0
    · by_cases hheld : (∃ j < rest.length, Connects out j) → n.addr.family = afInet
      · rw [if_pos ⟨⟨hsent.1, hheld⟩, hsent.2⟩]
        exact (balanced_opened_closed out rest.length hsent.1.1).trans
          (and_iff_left (Or.inr hsent)).symm
      -- an earlier socket connected: it is open before and after
      · rw [if_neg fun h => hheld h.1.2, List.append_nil, balanced_opened_iff, opened_succ,
          List.append_eq_nil_iff, Nat.zero_add, openedBy_eq_nil_iff]
        obtain ⟨⟨j, hj, hconn⟩, -⟩ := Classical.not_imp.mp hheld
        have hopen : out.opened 0 rest.length ≠ [] := fun hnone =>
          absurd (hnil.mp hnone j hj) (Int.not_lt.mpr hconn.1)
        exact iff_of_false (fun h => hopen h.1) (fun h => hopen h.1)
    · have hnot : ¬ ((Connects out rest.length ∧
          ((∃ j < rest.length, Connects out j) → n.addr.family = afInet)) ∧ 0 ≤ out.send 0) :=
        fun h => hsent ⟨h.1.1, h.2⟩
      rw [if_neg hnot, List.append_nil, balanced_opened_iff, opened_succ, List.append_eq_nil_iff,
        Nat.zero_add, or_iff_left hsent, openedBy_eq_nil_iff]

end

/-! ### Handlers that return -/

section
variable {out : Outcomes} {s s' : PeerState} {w w' : Network}

theorem eval_returns {α : Type} {e : Except Fault α} {a : α}
    (h : (Sys.eval e : PeerM α).advance (network out) s w = (.ret a, s', w')) :
    e = .ok a ∧ s' = s ∧ w' = w := by
  cases e with
  | ok b =>
    cases h
    exact ⟨rfl, rfl, rfl⟩
  | error f => cases h

theorem recv_events {fd : Int} {b : Bytes} (h : network out w (.recv fd) = some (b, w')) :
    w'.events = w.events := by
  by_cases hasked : w.Asked fd
  · cases (recv_asked hasked).symm.trans h
    rfl
  · obtain ⟨c, -, hc⟩ := Option.map_eq_some_iff.mp ((recv_stray hasked).symm.trans h)
    cases hc
    rfl

theorem network_events {o : SysOp} {r : SysRes o} (h : network out w o = some (r, w')) :
    w.events <+: w'.events := by
  cases o with
  | getaddrinfo hostname port =>
    cases h
    exact List.prefix_rfl
  | socket =>
    cases h
    exact List.prefix_append _ _
  | connect fd addr =>
    cases h
    split
    · exact List.prefix_rfl
    · rw [Network.setPeer_events]
  | send fd b =>
    obtain ⟨r', w1, hsend, hevents, -⟩ := network_send out w fd b
    cases hsend.symm.trans h
    rw [hevents]
  | recv fd => rw [recv_events h]
  | close fd =>
    cases h
    exact List.prefix_append _ _
  | crash f => cases h

variable (out) in
theorem advance_events {α : Type} (k : PeerM α) (s : PeerState) (w : Network) :
    w.events <+: (k.advance (network out) s w).2.2.events :=
  Prog.advance_rel (R := fun w w' => w.events <+: w'.events) (fun _ => List.prefix_rfl)
    (fun _ _ _ => List.IsPrefix.trans) (fun _ _ _ _ => network_events) k s w

theorem returns_events {α : Type} {k : PeerM α} {a : α}
    (h : k.advance (network out) s w = (.ret a, s', w')) : w.events <+: w'.events := by
  have hprefix := advance_events out k s w
  rwa [h] at hprefix

theorem handleOwnRequest_events {csocket a : Int} {p : Packet}
    (h : (handleOwnRequest csocket p).advance (network out) s w = (.ret a, s', w')) :
    w'.events = w.events := by
  rw [handleOwnRequest, readState, Prog.read_bind, Prog.advance_get] at h
  obtain ⟨⟨ht, ack⟩, s1, w1, hexec, h1⟩ := Prog.advance_bind_ret h
  obtain ⟨-, rfl, rfl⟩ := eval_returns hexec
  simp only [modifyState, Prog.modify_bind, Prog.advance_get, Prog.advance_put] at h1
  obtain ⟨b, s2, w2, hser, h2⟩ := Prog.advance_bind_ret h1
  obtain ⟨-, rfl, rfl⟩ := eval_returns hser
  obtain ⟨r, w3, hsend, hevents, -⟩ := network_send out w2 csocket b
  rw [sendall_bind, Prog.advance_call _ _ hsend] at h2
  cases h2
  exact hevents

/-- A proxied request that gets its answer has its socket closed by `recvall` and
then once more. -/
theorem proxyRequest_closes {csocket : Int} {p : Packet} {n : Peer} {a : Int × Peer}
    (h : (proxyRequest csocket p n).advance (network out) s w = (.ret a, s', w')) :
    ∃ es fd, w'.events = w.events ++ es ++ [.closed fd, .closed fd] := by
  rw [proxyRequest] at h
  obtain ⟨⟨status, q⟩, s1, w1, hforward, h⟩ := Prog.advance_bind_ret h
  obtain ⟨es, hes⟩ := returns_events hforward
  refine ⟨es, q.socket, ?_⟩
  rw [hes]
  dsimp only at h
  cases hrecv : network out w1 (.recv q.socket) with
  | none => cases (Prog.advance_blocked _ s1 hrecv).symm.trans h
  | some r =>
    obtain ⟨b, w2⟩ := r
    have hw2 := recv_events hrecv
    have h := (Prog.advance_call _ s1 hrecv).symm.trans h
    obtain ⟨w3, hclose, hw3⟩ : ∃ w3, network out w2 (.close q.socket) = some ((), w3) ∧
      w3.events = w2.events ++ [.closed q.socket] := ⟨_, rfl, rfl⟩
    have h := (Prog.advance_call _ s1 hclose).symm.trans h
    obtain ⟨r, w4, hsend, hw4, -⟩ := network_send out w3 csocket b
    have h := (Prog.advance_call _ s1 hsend).symm.trans h
    cases h
    rw [← hw2]
    exact (congrArg (· ++ [.closed q.socket]) (hw4.trans hw3)).trans (List.append_assoc _ _ _)

theorem registerRequest_events {csocket a : Int} {p : Packet} {hashId : UInt16}
    (h : (registerRequest csocket p hashId).advance (network out) s w = (.ret a, s', w')) :
    w'.events = w.events ++ out.fdEvents w s.succ := by
  rw [registerRequest, readState, Prog.read_bind, Prog.advance_get] at h
  obtain ⟨rt, s1, w1, hadd, h1⟩ := Prog.advance_bind_ret h
  obtain ⟨-, rfl, rfl⟩ := eval_returns hadd
  simp only [modifyState, Prog.modify_bind, Prog.advance_get, Prog.advance_put] at h1
  obtain ⟨status, succ, ip, w2, hadv, -, -, hevents⟩ := lookupPeer_network out
    { s1 with rt := rt } w1 hashId
  rw [Prog.advance_bind hadv] at h1
  cases h1
  exact hevents

variable (out s w) in
theorem answerLookup_events (p : Packet) (n : Peer) : ∃ w',
    (answerLookup p n).advance (network out) s w = (.ret cbRemoveClient, s, w') ∧
    w'.events = w.events ++ out.fdEvents w (peerFromPacket p) := by
  obtain ⟨ip, hip⟩ := peerGetIp_network out s w n
  have hctrl : flagSet (replyPacket p.hashId n ip).flags pktFlagCtrl = true :=
    show flagSet (0 ||| pktFlagCtrl ||| pktFlagRply) pktFlagCtrl = true by decide
  have hser := packetSerialize_exact fun h => absurd (hctrl.symm.trans h) (by decide)
  obtain ⟨status, q, w', hadv, -, -, hevents, -⟩ :=
    forward_network out s w hser (peerFromPacket p)
  refine ⟨w', ?_, hevents hctrl⟩
  rw [answerLookup, Prog.advance_bind hip, Prog.ret_bind, Prog.advance_bind hadv]
  rfl

def lookupTarget (s : PeerState) (p : Packet) : Peer :=
  if peerIsResponsible s.pred.nodeId s.self.nodeId p.hashId ≠ 0 then peerFromPacket p
  else if peerIsResponsible s.self.nodeId s.succ.nodeId p.hashId ≠ 0 then peerFromPacket p
  else s.succ

variable (out s w) in
theorem handleLookup_events {p : Packet} (hctrl : flagSet p.flags pktFlagCtrl = true) : ∃ s' w',
    (handleLookup p).advance (network out) s w = (.ret cbRemoveClient, s', w') ∧
    w'.events = w.events ++ out.fdEvents w (lookupTarget s p) := by
  rw [handleLookup, readState, Prog.read_bind, Prog.advance_get, lookupTarget]
  split
  · obtain ⟨w', hadv, hevents⟩ := answerLookup_events out s w p s.self
    exact ⟨s, w', hadv, hevents⟩
  split
  · obtain ⟨w', hadv, hevents⟩ := answerLookup_events out s w p s.succ
    exact ⟨s, w', hadv, hevents⟩
  · have hser := packetSerialize_exact fun h => absurd (hctrl.symm.trans h) (by decide)
    obtain ⟨status, q, w', hadv, -, -, hevents, -⟩ :=
      forward_network out s w hser s.succ
    refine ⟨{ s with succ := q }, w', ?_, hevents hctrl⟩
    rw [Prog.advance_bind hadv]
    rfl

theorem proxyOpenRequests_closes {r : Request} {rs : List Request} {n n' : Peer}
    (h : (proxyOpenRequests (r :: rs) n).advance (network out) s w = (.ret n', s', w')) :
    ∃ es fd rest, w'.events = w.events ++ es ++ [.closed fd, .closed fd] ++ rest := by
  rw [proxyOpenRequests] at h
  obtain ⟨a, s1, w1, hproxy, h1⟩ := Prog.advance_bind_ret h
  obtain ⟨es, fd, hes⟩ := proxyRequest_closes hproxy
  obtain ⟨rest, hrest⟩ := returns_events h1
  exact ⟨es, fd, rest, by rw [← hrest, hes]⟩

end

/-! ### The balance of a packet -/

/-- No request is proxied, and the control packet that goes out, if any, leaves
through the one socket that is opened for it. -/
def Route.ClosesItsOwn (out : Outcomes) (s : PeerState) (p : Packet) : Route → Prop
  | .own => True
  | .proxy => False
  | .register _ => LeavesOnce out s.succ
  | .lookup => LeavesOnce out (lookupTarget s p)
  | .reply => getRequests s.rt p.hashId = []
  | .ignore => True

def ClosesItsOwn (out : Outcomes) (s : PeerState) (p : Packet) : Prop :=
  ∃ r, route s p = .ok r ∧ r.ClosesItsOwn out s p

section
variable {out : Outcomes} {remote : ℕ → Option SockAddr} {s s' : PeerState} {w' : Network}
  {csocket a : Int} {p : Packet}

theorem route_of_returns {w : Network}
    (h : (handlePacket csocket p).advance (network out) s w = (.ret a, s', w')) :
    ∃ r, route s p = .ok r := by
  have hexec := Prog.exec_of_advance (H := fun w o r w1 => network out w o = some (r, w1))
    (fun _ _ _ _ hr => hr) (p := handlePacket csocket p) (s := s) (w := w) (a := a) (by rw [h]; rfl)
  exact route_of_exec (fun w f r w1 hr => nomatch hr) hexec

theorem route_lookup_ctrl (h : route s p = .ok .lookup) : flagSet p.flags pktFlagCtrl = true := by
  by_contra hdata
  rw [route, if_neg hdata] at h
  obtain ⟨hashId, -, h⟩ := bind_eq_ok.mp h
  split at h
  · cases h
  · split at h <;> cases h

theorem run_balanced_iff {r : Route} (hr : route s p = .ok r)
    (h : (r.run csocket p).advance (network out) s (Network.start remote) = (.ret a, s', w')) :
    Balanced w'.events ↔ r.ClosesItsOwn out s p := by
  cases r with
  | own =>
    rw [handleOwnRequest_events h]
    exact iff_of_true rfl trivial
  | proxy =>
    rw [Route.run, proxyToSucc, readState, Prog.read_bind, Prog.advance_get] at h
    obtain ⟨b, s1, w1, hproxy, h1⟩ := Prog.advance_bind_ret h
    obtain ⟨es, fd, hes⟩ := proxyRequest_closes hproxy
    obtain ⟨rest, hrest⟩ := returns_events h1
    rw [← hrest, hes]
    exact iff_of_false (not_balanced_of_closed_twice _ _ _) id
  | register hashId =>
    rw [registerRequest_events h]
    exact balanced_fdEvents_iff out remote s.succ
  | lookup =>
    have hctrl := route_lookup_ctrl hr
    obtain ⟨s1, w1, hadv, hevents⟩ := handleLookup_events out s (Network.start remote) hctrl
    cases hadv.symm.trans h
    rw [hevents]
    exact balanced_fdEvents_iff out remote (lookupTarget s p)
  | reply =>
    obtain ⟨⟨⟩, s1, w1, hreply, h1⟩ := Prog.advance_bind_ret (p := handleReply p) h
    cases h1
    rw [handleReply, readState, Prog.read_bind, Prog.advance_get] at hreply
    obtain ⟨n', s2, w2, hproxy, h2⟩ := Prog.advance_bind_ret hreply
    cases h2
    rw [Route.ClosesItsOwn]
    cases hreqs : getRequests s.rt p.hashId with
    | nil =>
      rw [hreqs] at hproxy
      cases hproxy
      exact iff_of_true rfl rfl
    | cons r rs =>
      rw [hreqs] at hproxy
      obtain ⟨es, fd, rest, hes⟩ := proxyOpenRequests_closes hproxy
      rw [hes]
      exact iff_of_false (not_balanced_of_closed_twice _ _ _) (List.cons_ne_nil _ _)
  | ignore =>
    cases h
    exact iff_of_true rfl trivial

/-- The descriptors are in order exactly when nothing is proxied and no socket is
left over. -/
theorem handlePacket_balanced_iff
    (h : (handlePacket csocket p).advance (network out) s (Network.start remote) =
      (.ret a, s', w')) : Balanced w'.events ↔ ClosesItsOwn out s p := by
  obtain ⟨r, hr⟩ := route_of_returns h
  have hrun : (r.run csocket p).advance (network out) s (Network.start remote) =
      (.ret a, s', w') := by
    rw [← Prog.advance_atState, ← handlePacket_atState hr csocket, Prog.advance_atState]
    exact h
  have hiff := run_balanced_iff hr hrun
  constructor
  · intro hb
    exact ⟨r, hr, hiff.mp hb⟩
  · rintro ⟨r', hr', hclean⟩
    cases hr.symm.trans hr'
    exact hiff.mpr hclean

end

/-- Every name resolves, every call succeeds and the peer sends one byte back. -/
def accepting : Outcomes := { refusing with
  connect := fun _ => 0, send := fun _ => 0, recv := fun _ => [5] }

theorem handlePacket_balanced_iff_accepting :
    Balanced ((handlePacket 6 getD).advance (network accepting) peer10
      (Network.start fun _ => none)).2.2.events ↔ ClosesItsOwn accepting peer10 getD := by
  have h : (handlePacket 6 getD).advance (network accepting) peer10 (Network.start fun _ => none) =
      (.ret cbOk, _, _) := rfl
  exact handlePacket_balanced_iff h

/-- The socket of a refused connection stays open. -/
theorem refused_socket_open :
    ((handlePacket 6 getD).advance (network refusing) peer10
      (Network.start fun _ => none)).1.returned = some cbOk ∧
    ¬ Balanced ((handlePacket 6 getD).advance (network refusing) peer10
      (Network.start fun _ => none)).2.2.events := by
  have hevents : ((handlePacket 6 getD).advance (network refusing) peer10
      (Network.start fun _ => none)).2.2.events = [.opened 7] := by decide
  exact ⟨by rfl, by rw [hevents]; decide⟩

end RN2223.Praxis2

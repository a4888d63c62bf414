import Mathlib.Logic.Relation
import RN2223.Praxis2.PacketCodec
import RN2223.Praxis2.ReliableNet
import RN2223.Praxis2.Ring

/-!
# The journey of a LOOKUP round the ring

A LOOKUP leaves its originator as bytes, is decoded, checked and encoded again
at every peer it visits, and either meets the predecessor of the peer that
claims its hash or goes on for ever. Peers may be in any state in between: only
what they know of their neighbours counts.
-/

namespace RN2223.Praxis2
open CMemory CyclicOrder

variable {ι : Type} [Fintype ι]

/-! ### Addresses -/

/-- Where the peers of a ring live: their hostnames resolve to one address each,
and so does the text form of that address. -/
structure RingNet (R : LinkedRing ι) where
  ip : ι → UInt32
  resolve : Resolver
  resolve_hostname : ∀ i, resolve (R.hostname i) (R.port i) = [.inet (ip i) (R.port i)]
  resolve_literal : ∀ i, resolve (inetNtop (ip i)) (R.port i) = [.inet (ip i) (R.port i)]
  address_injective : Function.Injective fun i => SockAddr.inet (ip i) (R.port i)

namespace RingNet
variable {R : LinkedRing ι} (net : RingNet R)

def address (i : ι) : SockAddr := .inet (net.ip i) (R.port i)

theorem resolve_names {n : Peer} {i : ι} (h : R.Names n i) :
    net.resolve n.hostname n.port = [net.address i] := by
  rw [h.hostname, h.port, net.resolve_hostname]
  rfl

def lookup (o : ι) (hashId : UInt16) : Packet :=
  { packetNew with
    flags := pktFlagCtrl ||| pktFlagLkup, hashId := hashId, nodeId := R.id o,
    nodeIp := net.ip o, nodePort := R.port o }

def reply (c : ι) (hashId : UInt16) : Packet :=
  { packetNew with
    flags := pktFlagCtrl ||| pktFlagRply, hashId := hashId, nodeId := R.id c,
    nodeIp := net.ip c, nodePort := R.port c }

theorem lookup_ctrl (o : ι) (hashId : UInt16) :
    flagSet (net.lookup o hashId).flags pktFlagCtrl = true := by
  show flagSet (pktFlagCtrl ||| pktFlagLkup) pktFlagCtrl = true
  decide

theorem lookup_lkup (o : ι) (hashId : UInt16) :
    flagSet (net.lookup o hashId).flags pktFlagLkup = true := by
  show flagSet (pktFlagCtrl ||| pktFlagLkup) pktFlagLkup = true
  decide

theorem reply_ctrl (c : ι) (hashId : UInt16) :
    flagSet (net.reply c hashId).flags pktFlagCtrl = true := by
  show flagSet (pktFlagCtrl ||| pktFlagRply) pktFlagCtrl = true
  decide

theorem reply_lkup (c : ι) (hashId : UInt16) :
    flagSet (net.reply c hashId).flags pktFlagLkup = false := by
  show flagSet (pktFlagCtrl ||| pktFlagRply) pktFlagLkup = false
  decide

theorem reply_rply (c : ι) (hashId : UInt16) :
    flagSet (net.reply c hashId).flags pktFlagRply = true := by
  show flagSet (pktFlagCtrl ||| pktFlagRply) pktFlagRply = true
  decide

theorem decode_ctrl {p : Packet} (hc : flagSet p.flags pktFlagCtrl = true)
    (hp : p.onWire = p) : packetDecode p.wire p.wire.length = .ok (some p) := by
  rw [packetDecode_wire (by simp [hc]), hp]

theorem decode_lookup (o : ι) (hashId : UInt16) :
    packetDecode (net.lookup o hashId).wire (net.lookup o hashId).wire.length =
      .ok (some (net.lookup o hashId)) := by
  refine decode_ctrl (net.lookup_ctrl o hashId) ?_
  rw [Packet.onWire, net.lookup_ctrl o hashId]
  rfl

theorem decode_reply (c : ι) (hashId : UInt16) :
    packetDecode (net.reply c hashId).wire (net.reply c hashId).wire.length =
      .ok (some (net.reply c hashId)) := by
  refine decode_ctrl (net.reply_ctrl c hashId) ?_
  rw [Packet.onWire, net.reply_ctrl c hashId]
  rfl

end RingNet

/-! ### What a peer does with a LOOKUP -/

section
variable {R : LinkedRing ι} (net : RingNet R) {i : ι} {s s' : PeerState} {w w' : NetTrace}

theorem lookupPeer_reliable (hs : R.Wired i s) (hw : w.Quiet) (hashId : UInt16) (a : Int) :
    (lookupPeer hashId).Exec (reliable net.resolve) s w a s' w' ↔
      a = 0 ∧ s' = { s with succ := s.succ.closed } ∧
      w' = w.log [.sent (net.address (R.succ i)) (net.lookup i hashId).wire] := by
  have hpack : lookupPacket s.self (net.address i).ip hashId = net.lookup i hashId := by
    simp only [lookupPacket, hs.self.nodeId, hs.self.port]
    rfl
  simp only [lookupPeer, readState, modifyState, Prog.read_bind, Prog.exec_get, Prog.exec_bind,
    peerGetIp_reliable (net.resolve_names hs.self), and_assoc, exists_and_left, exists_eq_left,
    hpack, forward_ctrl_reliable (net.lookup_ctrl i hashId) (net.resolve_names hs.succ) hw,
    Prog.exec_modify, Int.lt_irrefl, if_false, Prog.pure_eq, Prog.exec_ret, exists_const]

theorem answerLookup_reliable {n : Peer} {c o : ι} (hn : R.Names n c) (hw : w.Quiet)
    (hashId : UInt16) (a : Int) :
    (answerLookup (net.lookup o hashId) n).Exec (reliable net.resolve) s w a s' w' ↔
      a = cbRemoveClient ∧ s' = s ∧
      w' = w.log [.sent (net.address o) (net.reply c hashId).wire] := by
  have hpack : replyPacket hashId n (net.address c).ip = net.reply c hashId := by
    simp only [replyPacket, hn.nodeId, hn.port]
    rfl
  have hhash : (net.lookup o hashId).hashId = hashId := rfl
  have hres : net.resolve (peerFromPacket (net.lookup o hashId)).hostname
      (peerFromPacket (net.lookup o hashId)).port = [net.address o] := net.resolve_literal o
  simp only [answerLookup, Prog.exec_bind, peerGetIp_reliable (net.resolve_names hn), and_assoc,
    exists_and_left, exists_eq_left, hhash, hpack,
    forward_ctrl_reliable (net.reply_ctrl c hashId) hres hw, Prog.pure_eq, Prog.exec_ret]

/-- The peer that claims the hash answers, so does its predecessor, and everyone
else passes the LOOKUP on unchanged. -/
theorem handlePacket_lookup (hs : R.Wired i s) (hw : w.Quiet) (csocket : Int) (o : ι)
    (hashId : UInt16) (a : Int) :
    (handlePacket csocket (net.lookup o hashId)).Exec (reliable net.resolve) s w a s' w' ↔
      a = cbRemoveClient ∧
      if R.Claims i hashId then
        s' = s ∧ w' = w.log [.sent (net.address o) (net.reply i hashId).wire]
      else if R.Claims (R.succ i) hashId then
        s' = s ∧ w' = w.log [.sent (net.address o) (net.reply (R.succ i) hashId).wire]
      else
        s' = { s with succ := s.succ.closed } ∧
        w' = w.log [.sent (net.address (R.succ i)) (net.lookup o hashId).wire] := by
  have hself : peerIsResponsible s.pred.nodeId s.self.nodeId (net.lookup o hashId).hashId ≠ 0 ↔
      R.Claims i hashId := by
    rw [hs.pred.nodeId, hs.self.nodeId]
    rfl
  have hsucc : peerIsResponsible s.self.nodeId s.succ.nodeId (net.lookup o hashId).hashId ≠ 0 ↔
      R.Claims (R.succ i) hashId := by
    rw [hs.self.nodeId, hs.succ.nodeId, Ring.Claims, R.pred_succ]
    rfl
  simp only [handlePacket, net.lookup_ctrl, if_true, handlePacketCtrl, readState, modifyState,
    Prog.read_bind, Prog.exec_get, net.lookup_lkup, hself, hsucc]
  split
  · rw [answerLookup_reliable net hs.self hw]
  · split
    · rw [answerLookup_reliable net hs.succ hw]
    · simp only [Prog.exec_bind,
        forward_ctrl_reliable (net.lookup_ctrl o hashId) (net.resolve_names hs.succ) hw, and_assoc,
        exists_and_left, exists_eq_left, Prog.exec_modify, Prog.pure_eq, Prog.exec_ret,
        exists_const]

end

/-! ### The messages one LOOKUP causes -/

structure Message where
  dest : SockAddr
  bytes : Bytes
  deriving DecidableEq, Repr

def Message.event (m : Message) : NetEvent := .sent m.dest m.bytes

def Message.carries (m : Message) (mask : UInt8) : Bool :=
  match packetDecode m.bytes m.bytes.length with
  | .ok (some p) => flagSet p.flags pktFlagCtrl && flagSet p.flags mask
  | _ => false

/-- Messages under way, and all messages `handle_packet_ctrl` has sent. -/
structure Transit where
  pending : List Message
  sent : List Message

def Transit.forwards (t : Transit) : ℕ := (t.sent.filter fun m => m.carries pktFlagLkup).length

def Transit.replies (t : Transit) : List Message := t.sent.filter fun m => m.carries pktFlagRply

section
variable {R : LinkedRing ι} (net : RingNet R)

inductive Originated (o : ι) (hashId : UInt16) : Transit → Prop where
  | lookup {s s' : PeerState} {w w' : NetTrace} {a : Int} {new : List Message} (hs : R.Wired o s)
    (hw : w.Quiet) (hrun : (lookupPeer hashId).Exec (reliable net.resolve) s w a s' w')
    (hnew : w' = w.log (new.map Message.event)) : Originated o hashId ⟨new, []⟩

/-- A pending LOOKUP reaches the peer it is addressed to. -/
inductive Transit.Step : Transit → Transit → Prop where
  | handle {pre post sent new : List Message} {m : Message} {p : Packet} {i : ι}
    {s s' : PeerState} {w w' : NetTrace} {csocket a : Int} (hdest : m.dest = net.address i)
    (hdecode : packetDecode m.bytes m.bytes.length = .ok (some p))
    (hlookup : m.carries pktFlagLkup = true) (hs : R.Wired i s) (hw : w.Quiet)
    (hrun : (handlePacket csocket p).Exec (reliable net.resolve) s w a s' w')
    (hnew : w' = w.log (new.map Message.event)) :
    Transit.Step ⟨pre ++ m :: post, sent⟩ ⟨pre ++ post ++ new, sent ++ new⟩

def Transit.Run : Transit → Transit → Prop := Relation.ReflTransGen (Transit.Step net)

def OnTheWay (o : ι) (hashId : UInt16) (t : Transit) : Prop :=
  ∃ t0, Originated net o hashId t0 ∧ Transit.Run net t0 t

/-! ### The invariant -/

def lookupTo (o : ι) (hashId : UInt16) (i : ι) : Message :=
  ⟨net.address i, (net.lookup o hashId).wire⟩

def replyTo (o : ι) (hashId : UInt16) (c : ι) : Message :=
  ⟨net.address o, (net.reply c hashId).wire⟩

/-- On its way to peer `i`, which a claiming peer is as far ahead of as the
forwards so far have not used up. -/
structure Travelling (o : ι) (hashId : UInt16) (t : Transit) : Prop where
  at_peer : ∃ i, t.pending = [lookupTo net o hashId i] ∧
    ∀ c, R.Claims c hashId → t.forwards + stepsTo R.pos c i = stepsTo R.pos c (R.succ o)
  unanswered : t.replies = []

structure Arrived (o : ι) (hashId : UInt16) (t : Transit) : Prop where
  at_claimant : ∃ c, R.Claims c hashId ∧ t.pending = [replyTo net o hashId c] ∧
    t.replies = [replyTo net o hashId c] ∧ t.forwards < Fintype.card ι

theorem lookupTo_carries (o : ι) (hashId : UInt16) (i : ι) :
    (lookupTo net o hashId i).carries pktFlagLkup = true ∧
    (lookupTo net o hashId i).carries pktFlagRply = false := by
  have hrply : flagSet (net.lookup o hashId).flags pktFlagRply = false := by
    show flagSet (pktFlagCtrl ||| pktFlagLkup) pktFlagRply = false
    decide
  simp [Message.carries, lookupTo, net.decode_lookup, net.lookup_ctrl, net.lookup_lkup, hrply]

theorem replyTo_carries (o : ι) (hashId : UInt16) (c : ι) :
    (replyTo net o hashId c).carries pktFlagLkup = false ∧
    (replyTo net o hashId c).carries pktFlagRply = true := by
  have hrply : flagSet (net.reply c hashId).flags pktFlagRply = true := by
    show flagSet (pktFlagCtrl ||| pktFlagRply) pktFlagRply = true
    decide
  simp [Message.carries, replyTo, net.decode_reply, net.reply_ctrl, net.reply_lkup, hrply]

theorem event_injective : Function.Injective Message.event := by
  rintro ⟨d, b⟩ ⟨d', b'⟩ he
  cases he
  rfl

theorem map_event_eq {new : List Message} {w : NetTrace} {m : Message}
    (h : w.log [m.event] = w.log (new.map Message.event)) : new = [m] := by
  have he := congrArg NetTrace.events h
  rw [log_events, log_events, List.append_cancel_left_eq] at he
  exact List.map_injective_iff.mpr event_injective (he.symm.trans rfl)

theorem originated_iff (o : ι) (hashId : UInt16) (t : Transit) :
    Originated net o hashId t ↔ t = ⟨[lookupTo net o hashId (R.succ o)], []⟩ := by
  constructor
  · rintro ⟨hs, hw, hrun, hnew⟩
    obtain ⟨-, -, hw'⟩ := (lookupPeer_reliable net hs hw hashId _).mp hrun
    rw [map_event_eq (m := lookupTo net o hashId (R.succ o)) (hw'.symm.trans hnew)]
  · rintro rfl
    have hquiet : NetTrace.Quiet ⟨fun _ => none, []⟩ := fun _ => rfl
    exact .lookup (R.start_wired o) hquiet
      ((lookupPeer_reliable net (R.start_wired o) hquiet hashId 0).mpr ⟨rfl, rfl, rfl⟩) rfl

open Classical in
noncomputable def nextMessage (o : ι) (hashId : UInt16) (i : ι) : Message :=
  if R.Claims i hashId then replyTo net o hashId i
  else if R.Claims (R.succ i) hashId then replyTo net o hashId (R.succ i)
  else lookupTo net o hashId (R.succ i)

theorem step_lookupTo_iff (o : ι) (hashId : UInt16) (i : ι) (sent : List Message) (t' : Transit) :
    Transit.Step net ⟨[lookupTo net o hashId i], sent⟩ t' ↔
      t' = ⟨[nextMessage net o hashId i], sent ++ [nextMessage net o hashId i]⟩ := by
  have hrun : ∀ {s s' : PeerState} {w w' : NetTrace} {csocket a : Int}, R.Wired i s → w.Quiet →
      (handlePacket csocket (net.lookup o hashId)).Exec (reliable net.resolve) s w a s' w' →
      w' = w.log [(nextMessage net o hashId i).event] := by
    intro s s' w w' csocket a hs hw he
    obtain ⟨-, he⟩ := (handlePacket_lookup net hs hw csocket o hashId a).mp he
    rw [nextMessage]
    split at he
    · next hi =>
      rw [if_pos hi]
      exact he.2
    · next hi =>
      rw [if_neg hi]
      split at he
      · next hsucc =>
        rw [if_pos hsucc]
        exact he.2
      · next hsucc =>
        rw [if_neg hsucc]
        exact he.2
  constructor
  · intro h
    generalize ht : (⟨[lookupTo net o hashId i], sent⟩ : Transit) = t at h
    cases h with
    | @handle pre post sent' new m p j s s' w w' csocket a hdest hdecode hlookup hs hw he hnew =>
      rw [Transit.mk.injEq] at ht
      obtain ⟨hone, rfl⟩ := ht
      have hlen := congrArg List.length hone
      simp only [List.length_append, List.length_cons, List.length_nil] at hlen
      have hpre : pre = [] := List.length_eq_zero_iff.mp (by omega)
      have hpost : post = [] := List.length_eq_zero_iff.mp (by omega)
      subst hpre hpost
      rw [List.nil_append, List.cons.injEq] at hone
      obtain ⟨rfl, -⟩ := hone
      have hij : i = j := net.address_injective hdest
      subst hij
      have hp := hdecode.symm.trans (net.decode_lookup o hashId)
      rw [Except.ok.injEq, Option.some.injEq] at hp
      subst hp
      rw [map_event_eq ((hrun hs hw he).symm.trans hnew)]
      rfl
  · rintro rfl
    have hw : NetTrace.Quiet ⟨fun _ => none, []⟩ := fun _ => rfl
    have hs := R.start_wired i
    obtain ⟨s', w', he⟩ : ∃ s' w', (handlePacket 4 (net.lookup o hashId)).Exec
        (reliable net.resolve) (R.start i) ⟨fun _ => none, []⟩ cbRemoveClient s' w' := by
      by_cases hi : R.Claims i hashId
      · exact ⟨_, _, (handlePacket_lookup net hs hw 4 o hashId _).mpr
          ⟨rfl, by rw [if_pos hi]; exact ⟨rfl, rfl⟩⟩⟩
      · by_cases hsucc : R.Claims (R.succ i) hashId
        · exact ⟨_, _, (handlePacket_lookup net hs hw 4 o hashId _).mpr
            ⟨rfl, by rw [if_neg hi, if_pos hsucc]; exact ⟨rfl, rfl⟩⟩⟩
        · exact ⟨_, _, (handlePacket_lookup net hs hw 4 o hashId _).mpr
            ⟨rfl, by rw [if_neg hi, if_neg hsucc]; exact ⟨rfl, rfl⟩⟩⟩
    have hnew : w' = (⟨fun _ => none, []⟩ : NetTrace).log
        ([nextMessage net o hashId i].map Message.event) := hrun hs hw he
    exact @Transit.Step.handle ι _ R net [] [] sent _ _ _ i _ _ _ _ 4 _ rfl
      (net.decode_lookup o hashId) (lookupTo_carries net o hashId i).1 hs hw he hnew

theorem nextMessage_cases (o : ι) (hashId : UInt16) (i : ι) :
    (∃ c, R.Claims c hashId ∧ nextMessage net o hashId i = replyTo net o hashId c) ∨
    (¬ R.Claims i hashId ∧ nextMessage net o hashId i = lookupTo net o hashId (R.succ i)) := by
  rw [nextMessage]
  by_cases hi : R.Claims i hashId
  · exact Or.inl ⟨i, hi, if_pos hi⟩
  · rw [if_neg hi]
    by_cases hsucc : R.Claims (R.succ i) hashId
    · exact Or.inl ⟨R.succ i, hsucc, if_pos hsucc⟩
    · exact Or.inr ⟨hi, if_neg hsucc⟩

theorem not_step_replyTo (o : ι) (hashId : UInt16) (c : ι) (sent : List Message) (t' : Transit) :
    ¬ Transit.Step net ⟨[replyTo net o hashId c], sent⟩ t' := by
  intro h
  generalize ht : (⟨[replyTo net o hashId c], sent⟩ : Transit) = t at h
  cases h with
  | @handle pre post sent' new m p j s s' w w' csocket a hdest hdecode hlookup hs hw he hnew =>
    rw [Transit.mk.injEq] at ht
    have hm : m ∈ [replyTo net o hashId c] := by
      rw [ht.1]
      exact List.mem_append_right _ (List.mem_cons_self ..)
    rw [List.mem_singleton.mp hm, (replyTo_carries net o hashId c).1] at hlookup
    cases hlookup

theorem travelling_start (o : ι) (hashId : UInt16) :
    Travelling net o hashId ⟨[lookupTo net o hashId (R.succ o)], []⟩ :=
  ⟨⟨R.succ o, rfl, fun _ _ => Nat.zero_add _⟩, rfl⟩

theorem forwards_append_lookup (o : ι) (hashId : UInt16) (i : ι) (pending sent : List Message) :
    Transit.forwards ⟨pending, sent ++ [lookupTo net o hashId i]⟩ =
      Transit.forwards ⟨pending, sent⟩ + 1 ∧
    Transit.replies ⟨pending, sent ++ [lookupTo net o hashId i]⟩ =
      Transit.replies ⟨pending, sent⟩ := by
  obtain ⟨hl, hr⟩ := lookupTo_carries net o hashId i
  simp [Transit.forwards, Transit.replies, List.filter_append, hl, hr]

theorem forwards_append_reply (o : ι) (hashId : UInt16) (c : ι) (pending sent : List Message) :
    Transit.forwards ⟨pending, sent ++ [replyTo net o hashId c]⟩ =
      Transit.forwards ⟨pending, sent⟩ ∧
    Transit.replies ⟨pending, sent ++ [replyTo net o hashId c]⟩ =
      Transit.replies ⟨pending, sent⟩ ++ [replyTo net o hashId c] := by
  obtain ⟨hl, hr⟩ := replyTo_carries net o hashId c
  simp [Transit.forwards, Transit.replies, List.filter_append, hl, hr]

theorem forwards_lt {o : ι} {hashId : UInt16} {t : Transit} (h : Travelling net o hashId t)
    {c : ι} (hc : R.Claims c hashId) : t.forwards < Fintype.card ι := by
  obtain ⟨i, -, hsteps⟩ := h.at_peer
  have hsum := hsteps c hc
  have hlt := stepsTo_lt R.pos c (R.succ o)
  omega

theorem arrived_of_reply {o : ι} {hashId : UInt16} {pending sent : List Message}
    (h : Travelling net o hashId ⟨pending, sent⟩) {c : ι} (hc : R.Claims c hashId) :
    Arrived net o hashId ⟨[replyTo net o hashId c], sent ++ [replyTo net o hashId c]⟩ := by
  obtain ⟨hf, hr⟩ := forwards_append_reply net o hashId c [replyTo net o hashId c] sent
  refine ⟨c, hc, rfl, hr.trans ?_, ?_⟩
  · have hnone := h.unanswered
    rw [Transit.replies] at hnone ⊢
    rw [hnone, List.nil_append]
  · rw [hf]
    exact (forwards_lt net h hc : Transit.forwards ⟨pending, sent⟩ < Fintype.card ι)

theorem travelling_of_lookup {o : ι} {hashId : UInt16} {i : ι} {sent : List Message}
    (h : Travelling net o hashId ⟨[lookupTo net o hashId i], sent⟩) (hi : ¬ R.Claims i hashId) :
    Travelling net o hashId ⟨[lookupTo net o hashId (R.succ i)],
      sent ++ [lookupTo net o hashId (R.succ i)]⟩ := by
  obtain ⟨⟨j, hj, hsteps⟩, hnone⟩ := h
  have hij : i = j := by
    rw [List.cons.injEq, lookupTo, lookupTo, Message.mk.injEq] at hj
    exact net.address_injective hj.1.1
  subst hij
  obtain ⟨hf, hr⟩ := forwards_append_lookup net o hashId (R.succ i)
    [lookupTo net o hashId (R.succ i)] sent
  refine ⟨⟨R.succ i, rfl, fun c hc => ?_⟩, hr.trans hnone⟩
  have hne : i ≠ c := fun he => hi (he ▸ hc)
  have hone : stepsTo R.pos c (R.succ i) + 1 = stepsTo R.pos c i :=
    stepsTo_step R.pos_injective (R.isSucc i) hne
  have hsum : Transit.forwards ⟨[lookupTo net o hashId (R.succ i)], sent⟩ +
      stepsTo R.pos c i = stepsTo R.pos c (R.succ o) := hsteps c hc
  rw [hf]
  omega

theorem travelling_step {o : ι} {hashId : UInt16} {t t' : Transit}
    (h : Travelling net o hashId t) (hstep : Transit.Step net t t') :
    Travelling net o hashId t' ∨ Arrived net o hashId t' := by
  obtain ⟨i, hp, -⟩ := h.at_peer
  obtain ⟨pending, sent⟩ := t
  have hp' : pending = [lookupTo net o hashId i] := hp
  subst hp'
  rw [(step_lookupTo_iff net o hashId i sent t').mp hstep]
  rcases nextMessage_cases net o hashId i with ⟨c, hc, hnext⟩ | ⟨hi, hnext⟩
  · rw [hnext]
    exact Or.inr (arrived_of_reply net h hc)
  · rw [hnext]
    exact Or.inl (travelling_of_lookup net h hi)

theorem onTheWay_cases {o : ι} {hashId : UInt16} {t : Transit} (h : OnTheWay net o hashId t) :
    Travelling net o hashId t ∨ Arrived net o hashId t := by
  obtain ⟨t0, h0, hrun⟩ := h
  rw [originated_iff] at h0
  subst h0
  induction hrun with
  | refl => exact Or.inl (travelling_start net o hashId)
  | @tail t t' _ hstep ih =>
    rcases ih with htravel | ⟨c, -, hp, -, -⟩
    · exact travelling_step net htravel hstep
    · obtain ⟨pending, sent⟩ := t
      have hp' : pending = [replyTo net o hashId c] := hp
      subst hp'
      exact absurd hstep (not_step_replyTo net o hashId c sent t')

/-- By induction on the steps left to a claiming peer. -/
theorem travelling_arrives {o : ι} {hashId : UInt16} {c : ι} (hc : R.Claims c hashId) (n : ℕ) :
    ∀ (i : ι) (sent : List Message), stepsTo R.pos c i = n →
      Travelling net o hashId ⟨[lookupTo net o hashId i], sent⟩ →
      ∃ t', Transit.Run net ⟨[lookupTo net o hashId i], sent⟩ t' ∧ Arrived net o hashId t' := by
  induction n with
  | zero =>
    intro i sent hn h
    have hi : i = c := stepsTo_eq_zero R.pos_injective hn
    subst hi
    have hstep := (step_lookupTo_iff net o hashId i sent _).mpr rfl
    rcases nextMessage_cases net o hashId i with ⟨c, hc', hnext⟩ | ⟨hi, -⟩
    · rw [hnext] at hstep
      exact ⟨_, .single hstep, arrived_of_reply net h hc'⟩
    · exact absurd hc hi
  | succ n ih =>
    intro i sent hn h
    have hstep := (step_lookupTo_iff net o hashId i sent _).mpr rfl
    rcases nextMessage_cases net o hashId i with ⟨c', hc', hnext⟩ | ⟨hi, hnext⟩
    · rw [hnext] at hstep
      exact ⟨_, .single hstep, arrived_of_reply net h hc'⟩
    · rw [hnext] at hstep
      have hne : i ≠ c := fun he => hi (he ▸ hc)
      have hone : stepsTo R.pos c (R.succ i) + 1 = stepsTo R.pos c i :=
        stepsTo_step R.pos_injective (R.isSucc i) hne
      obtain ⟨t', hrun, harr⟩ := ih (R.succ i) _ (by omega) (travelling_of_lookup net h hi)
      exact ⟨t', .head hstep hrun, harr⟩

/-! ### Answered or not -/

theorem onTheWay_run {o : ι} {hashId : UInt16} {t t' : Transit} (h : OnTheWay net o hashId t)
    (hrun : Transit.Run net t t') : OnTheWay net o hashId t' := by
  obtain ⟨t0, h0, hrun0⟩ := h
  exact ⟨t0, h0, hrun0.trans hrun⟩

theorem exists_onTheWay (o : ι) (hashId : UInt16) : ∃ t, OnTheWay net o hashId t :=
  ⟨_, _, (originated_iff net o hashId _).mpr rfl, .refl⟩

/-- A LOOKUP is answered if and only if some peer claims its hash, after fewer
forwards than there are peers, by one REPLY to its originator that names the
peer which claims the hash. -/
theorem lookup_answered_iff (o : ι) (hashId : UInt16) :
    (∃ t, OnTheWay net o hashId t) ∧
    ((∀ t, OnTheWay net o hashId t → ∃ t', Transit.Run net t t' ∧ t'.replies ≠ []) ↔
      ∃ c, R.Claims c hashId) ∧
    (∀ t, OnTheWay net o hashId t → (∃ c, R.Claims c hashId) →
      t.forwards ≤ Fintype.card ι - 1) ∧
    (∀ t, OnTheWay net o hashId t → t.replies ≠ [] → (∀ t', ¬ Transit.Step net t t') ∧
      ∃ c b q, R.Claims c hashId ∧ t.replies = [⟨.inet (net.ip o) (R.port o), b⟩] ∧
        packetDecode b b.length = .ok (some q) ∧ q.hashId = hashId ∧ q.nodeId = R.id c ∧
        q.nodeIp = net.ip c ∧ q.nodePort = R.port c) := by
  refine ⟨exists_onTheWay net o hashId, ⟨fun hall => ?_, ?_⟩, ?_, ?_⟩
  · obtain ⟨t, ht⟩ := exists_onTheWay net o hashId
    obtain ⟨t', hrun, hne⟩ := hall t ht
    rcases onTheWay_cases net (onTheWay_run net ht hrun) with htravel | ⟨c, hc, -⟩
    · exact absurd htravel.unanswered hne
    · exact ⟨c, hc⟩
  · rintro ⟨c, hc⟩ t ht
    rcases onTheWay_cases net ht with htravel | ⟨c, -, -, hr, -⟩
    · obtain ⟨i, hp, -⟩ := htravel.at_peer
      obtain ⟨pending, sent⟩ := t
      have hp' : pending = [lookupTo net o hashId i] := hp
      subst hp'
      obtain ⟨t', hrun, c', -, -, hr, -⟩ := travelling_arrives net hc _ i sent rfl htravel
      exact ⟨t', hrun, by simp [hr]⟩
    · exact ⟨t, .refl, by simp [hr]⟩
  · rintro t ht ⟨c, hc⟩
    rcases onTheWay_cases net ht with htravel | ⟨c, -, -, -, hlt⟩
    · have hlt := forwards_lt net htravel hc
      omega
    · omega
  · intro t ht hne
    rcases onTheWay_cases net ht with htravel | ⟨c, hc, hp, hr, -⟩
    · exact absurd htravel.unanswered hne
    · obtain ⟨pending, sent⟩ := t
      have hp' : pending = [replyTo net o hashId c] := hp
      subst hp'
      exact ⟨fun t' => not_step_replyTo net o hashId c sent t', c,
        (net.reply c hashId).wire, net.reply c hashId, hc, hr, net.decode_reply c hashId,
        rfl, rfl, rfl, rfl⟩

end

def scratchNet : RingNet scratchLinked where
  ip := fun _ => 2130706433
  resolve := numericResolver [2130706433]
  resolve_hostname := fun _ => numericResolver_singleton 2130706433 _
  resolve_literal := fun _ => numericResolver_singleton 2130706433 _
  address_injective := by
    unfold scratchLinked SockAddr.inet
    decide

/-- A hash of the largest id's interval, looked up by the peer behind it. -/
theorem lookup_answered_scratch : ∃ t, OnTheWay scratchNet 3 150 t ∧ t.replies ≠ [] := by
  obtain ⟨⟨t, ht⟩, hiff, -, -⟩ := lookup_answered_iff scratchNet 3 150
  obtain ⟨t', hrun, hne⟩ := hiff.mpr ⟨3, by decide⟩ t ht
  exact ⟨t', onTheWay_run scratchNet ht hrun, hne⟩

end RN2223.Praxis2

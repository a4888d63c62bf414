import Mathlib.Data.List.Induction
import RN2223.Praxis2.Requests
import RN2223.Praxis2.ReliableNet

/-!
# The life of an open request

Histories of requests being registered and REPLY packets being handled, and
which REPLY proxies which request.
-/

namespace RN2223.Praxis2
open CMemory

/-! ### Proxying a queue -/

def proxyEvents (addr : SockAddr) : List Request → List Bytes → List NetEvent
  | r :: rs, answer :: answers =>
    .sent addr r.packet.wire :: .received addr answer :: .wrote r.socket answer ::
      proxyEvents addr rs answers
  | _, _ => []

structure Request.Proxyable (r : Request) : Prop where
  exact : r.packet.Exact
  isData : flagSet r.packet.flags pktFlagCtrl = false

section
variable {resolve : Resolver} {addr : SockAddr}

theorem proxyOpenRequests_events {rs : List Request} (hrs : ∀ r ∈ rs, r.Proxyable) {n : Peer}
    (hres : resolve n.hostname n.port = [addr]) {s s' : PeerState} {w w' : NetTrace}
    (hw : w.Quiet) {a : Peer}
    (he : (proxyOpenRequests rs n).Exec (reliable resolve) s w a s' w') :
    ∃ answers, answers.length = rs.length ∧ s'.rt = s.rt ∧
      w' = w.log (proxyEvents addr rs answers) := by
  induction rs generalizing n s w with
  | nil =>
    obtain ⟨-, rfl, rfl⟩ := he
    refine ⟨[], rfl, rfl, ?_⟩
    simp [proxyEvents, NetTrace.log]
  | cons r rest ih =>
    have hr := hrs r (List.mem_cons_self ..)
    rw [proxyOpenRequests, Prog.exec_bind] at he
    obtain ⟨_, _, _, h1, h2⟩ := he
    obtain ⟨answer, rfl, rfl, rfl⟩ :=
      (proxyRequest_reliable hr.isData hr.exact hres hw r.socket _).mp h1
    obtain ⟨answers, hlen, hrt, hw'⟩ := ih (fun r' h => hrs r' (List.mem_cons_of_mem _ h))
      (n := n.closed) hres (quiet_log hw _) h2
    refine ⟨answer :: answers, by simp [hlen], hrt, ?_⟩
    rw [hw', log_log]
    rfl

theorem proxyOpenRequests_runs {rs : List Request} (hrs : ∀ r ∈ rs, r.Proxyable) {n : Peer}
    (hres : resolve n.hostname n.port = [addr]) (s : PeerState) {w : NetTrace} (hw : w.Quiet) :
    ∃ a s' w', (proxyOpenRequests rs n).Exec (reliable resolve) s w a s' w' := by
  induction rs generalizing n s w with
  | nil => exact ⟨n, s, w, rfl, rfl, rfl⟩
  | cons r rest ih =>
    have hr := hrs r (List.mem_cons_self ..)
    obtain ⟨a, s', w', hrest⟩ := ih (fun r' h => hrs r' (List.mem_cons_of_mem _ h)) (n := n.closed)
      hres { s with srv := serverCloseSocket s.srv r.socket }
      (quiet_log hw [.sent addr r.packet.wire, .received addr [], .wrote r.socket []])
    refine ⟨a, s', w', ?_⟩
    rw [proxyOpenRequests, Prog.exec_bind]
    exact ⟨_, _, _, (proxyRequest_reliable hr.isData hr.exact hres hw r.socket _).mpr
      ⟨[], rfl, rfl, rfl⟩, hrest⟩

end

/-! ### Histories -/

/-- What `handle_packet_data` hands to `add_request`. -/
structure Registration where
  hashId : UInt16
  request : Request
  proxyable : request.Proxyable

/-- A control packet that takes the REPLY branch of `handle_packet_ctrl`. -/
structure Reply where
  packet : Packet
  isReply : flagSet packet.flags pktFlagRply = true
  notLookup : flagSet packet.flags pktFlagLkup = false

def Reply.hashId (p : Reply) : UInt16 := p.packet.hashId

def Reply.addr (p : Reply) : SockAddr := .inet p.packet.nodeIp p.packet.nodePort

inductive QueueEvent where
  | register (r : Registration)
  | reply (p : Reply)

def QueueEvent.run : QueueEvent → PeerM Unit
  | .register r => do
    let s ← readState
    let rt ← Sys.eval (addRequest s.rt r.hashId r.request.socket r.request.packet)
    modifyState fun s => { s with rt := rt }
  | .reply p => do
    let _ ← handlePacketCtrl p.packet
    return ()

structure Handled where
  event : QueueEvent
  before : PeerState
  after : PeerState
  events : List NetEvent

inductive History (resolve : Resolver) (s0 : PeerState) :
    List Handled → PeerState → NetTrace → Prop where
  | start {w : NetTrace} (hw : w.Quiet) : History resolve s0 [] s0 w
  | next {hs : List Handled} {w w' : NetTrace} (x : Handled)
    (hprev : History resolve s0 hs x.before w)
    (hrun : x.event.run.Exec (reliable resolve) x.before w () x.after w')
    (hevents : w' = w.log x.events) : History resolve s0 (hs ++ [x]) x.after w'

/-- The request registered at `i` and not replied to since. -/
def Waiting (hs : List Handled) (hashId : UInt16) (i : ℕ) (r : Registration) : Prop :=
  (∃ x, hs[i]? = some x ∧ x.event = .register r) ∧ r.hashId = hashId ∧
    ∀ (k : ℕ) (y : Handled) (p : Reply), i < k → hs[k]? = some y → y.event = .reply p →
      p.hashId ≠ hashId

/-- The REPLY at `j` is the first one for its hash after the registration at `i`. -/
def FirstReply (hs : List Handled) (j : ℕ) (p : Reply) (i : ℕ) (r : Registration) : Prop :=
  i < j ∧ (∃ x, hs[j]? = some x ∧ x.event = .reply p) ∧ Waiting (hs.take j) p.hashId i r

theorem firstReply_unique {hs : List Handled} {i j j' : ℕ} {p p' : Reply} {r : Registration}
    (h : FirstReply hs j p i r) (h' : FirstReply hs j' p' i r) : j = j' := by
  have hle : ∀ {j j' p p'}, FirstReply hs j p i r → FirstReply hs j' p' i r → ¬ j < j' := by
    intro j j' p p' h h' hlt
    obtain ⟨hij, ⟨x, hx, hxe⟩, -, hp, -⟩ := h
    obtain ⟨-, -, -, hp', hnone⟩ := h'
    refine hnone j x p hij ?_ hxe (hp.symm.trans hp')
    rw [List.getElem?_take_of_lt hlt, hx]
  have h1 := hle h h'
  have h2 := hle h' h
  omega

/-- What one event does: a registration joins the end of its own queue, and a
REPLY proxies, in order, the requests it is the first REPLY for, and empties
its own queue. -/
def Handled.Right (x : Handled) (hs : List Handled) (j : ℕ) : Prop :=
  match x.event with
  | .register r => x.events = [] ∧
      getRequests x.after.rt r.hashId = getRequests x.before.rt r.hashId ++ [r.request] ∧
      ∀ h, h ≠ r.hashId → getRequests x.after.rt h = getRequests x.before.rt h
  | .reply p => (∃ (q : List (ℕ × Registration)) (answers : List Bytes),
        q.Pairwise (fun a b => a.1 < b.1) ∧ (∀ i r, (i, r) ∈ q ↔ FirstReply hs j p i r) ∧
        answers.length = q.length ∧
        x.events = proxyEvents p.addr (q.map fun a => a.2.request) answers) ∧
      getRequests x.after.rt p.hashId = [] ∧
      ∀ h, h ≠ p.hashId → getRequests x.after.rt h = getRequests x.before.rt h

/-! ### One event -/

theorem register_exec (resolve : Resolver) (r : Registration) {s s' : PeerState}
    {w w' : NetTrace} : (QueueEvent.register r).run.Exec (reliable resolve) s w () s' w' ↔
      ∃ rt, addRequest s.rt r.hashId r.request.socket r.request.packet = .ok rt ∧
        s' = { s with rt := rt } ∧ w' = w := by
  obtain ⟨rt, hadd, -⟩ := addRequest_spec s.rt r.hashId r.request.socket r.proxyable.exact
  simp only [QueueEvent.run, readState, modifyState, Prog.read_bind, Prog.exec_get, hadd, eval_ok,
    Prog.ret_bind, Prog.exec_modify, Except.ok.injEq, exists_eq_left']

theorem reply_exec (resolve : Resolver) (p : Reply) {s s' : PeerState} {w w' : NetTrace} :
    (QueueEvent.reply p).run.Exec (reliable resolve) s w () s' w' ↔ ∃ a s1,
      (proxyOpenRequests (getRequests s.rt p.hashId) (peerFromPacket p.packet)).Exec
        (reliable resolve) s w a s1 w' ∧
      s' = { s1 with rt := clearRequests s1.rt p.hashId } := by
  simp only [QueueEvent.run, handlePacketCtrl, readState, Prog.read_bind, Prog.get_bind,
    Prog.exec_get, p.notLookup, p.isReply, Bool.false_eq_true, if_false, if_true, handleReply,
    modifyState, Prog.exec_bind, Prog.exec_modify, Prog.pure_eq, Prog.exec_ret, Reply.hashId]
  constructor
  · rintro ⟨_, _, _, ⟨_, _, _, ⟨a, s1, w1, he, rfl, rfl⟩, rfl, rfl, rfl⟩, -, rfl, rfl⟩
    exact ⟨a, s1, he, rfl⟩
  · rintro ⟨a, s1, he, rfl⟩
    exact ⟨_, _, _, ⟨(), _, _, ⟨a, s1, w', he, rfl, rfl⟩, rfl, rfl, rfl⟩, trivial, rfl, rfl⟩

/-! ### The invariant -/

/-- The queues of the table are the waiting requests in order of registration. -/
structure Queued (hs : List Handled) (s : PeerState) (w : NetTrace) : Prop where
  quiet : w.Quiet
  unique : s.rt.Unique
  queue : ∀ hashId, ∃ q : List (ℕ × Registration), q.Pairwise (fun a b => a.1 < b.1) ∧
    (∀ i r, (i, r) ∈ q ↔ Waiting hs hashId i r) ∧
    getRequests s.rt hashId = q.map fun a => a.2.request

theorem waiting_lt {hs : List Handled} {hashId : UInt16} {i : ℕ} {r : Registration}
    (h : Waiting hs hashId i r) : i < hs.length := by
  obtain ⟨⟨x, hx, -⟩, -⟩ := h
  exact (List.getElem?_eq_some_iff.mp hx).1

theorem getElem?_concat_iff {α : Type} {l : List α} {x y : α} {k : ℕ} :
    (l ++ [x])[k]? = some y ↔ l[k]? = some y ∨ (k = l.length ∧ y = x) := by
  rcases Nat.lt_trichotomy k l.length with hk | rfl | hk
  · rw [List.getElem?_append_left hk]
    constructor
    · exact Or.inl
    · rintro (h | ⟨rfl, -⟩)
      · exact h
      · exact absurd hk (Nat.lt_irrefl _)
  · rw [List.getElem?_concat_length, List.getElem?_eq_none (Nat.le_refl _)]
    simp [eq_comm]
  · rw [List.getElem?_eq_none (by simp; omega), List.getElem?_eq_none (by omega)]
    simp
    omega

theorem waiting_register {hs : List Handled} {x : Handled} {r0 : Registration}
    (hx : x.event = .register r0) (hashId : UInt16) (i : ℕ) (r : Registration) :
    Waiting (hs ++ [x]) hashId i r ↔
      Waiting hs hashId i r ∨ (i = hs.length ∧ r = r0 ∧ r0.hashId = hashId) := by
  constructor
  · rintro ⟨⟨y, hy, hye⟩, hr, hnone⟩
    rcases getElem?_concat_iff.mp hy with hy | ⟨hi, rfl⟩
    · exact Or.inl ⟨⟨y, hy, hye⟩, hr, fun k z p hik hz =>
        hnone k z p hik (getElem?_concat_iff.mpr (Or.inl hz))⟩
    · rw [hx, QueueEvent.register.injEq] at hye
      exact Or.inr ⟨hi, hye.symm, hye ▸ hr⟩
  · rintro (⟨⟨y, hy, hye⟩, hr, hnone⟩ | ⟨rfl, rfl, hr⟩)
    · refine ⟨⟨y, getElem?_concat_iff.mpr (Or.inl hy), hye⟩, hr, fun k z p hik hz hze => ?_⟩
      rcases getElem?_concat_iff.mp hz with hz | ⟨-, rfl⟩
      · exact hnone k z p hik hz hze
      · rw [hx] at hze
        cases hze
    · refine ⟨⟨x, getElem?_concat_iff.mpr (Or.inr ⟨rfl, rfl⟩), hx⟩, hr, fun k z p hik hz => ?_⟩
      rcases getElem?_concat_iff.mp hz with hz | ⟨rfl, -⟩
      · have hlt := (List.getElem?_eq_some_iff.mp hz).1
        omega
      · omega

theorem waiting_reply {hs : List Handled} {x : Handled} {p : Reply} (hx : x.event = .reply p)
    (hashId : UInt16) (i : ℕ) (r : Registration) :
    Waiting (hs ++ [x]) hashId i r ↔ Waiting hs hashId i r ∧ p.hashId ≠ hashId := by
  constructor
  · rintro ⟨⟨y, hy, hye⟩, hr, hnone⟩
    rcases getElem?_concat_iff.mp hy with hy | ⟨-, rfl⟩
    · have hi := (List.getElem?_eq_some_iff.mp hy).1
      exact ⟨⟨⟨y, hy, hye⟩, hr, fun k z p' hik hz =>
        hnone k z p' hik (getElem?_concat_iff.mpr (Or.inl hz))⟩,
        hnone hs.length x p hi (getElem?_concat_iff.mpr (Or.inr ⟨rfl, rfl⟩)) hx⟩
    · rw [hx] at hye
      cases hye
  · rintro ⟨⟨⟨y, hy, hye⟩, hr, hnone⟩, hp⟩
    refine ⟨⟨y, getElem?_concat_iff.mpr (Or.inl hy), hye⟩, hr, fun k z p' hik hz hze => ?_⟩
    rcases getElem?_concat_iff.mp hz with hz | ⟨-, rfl⟩
    · exact hnone k z p' hik hz hze
    · rw [hx, QueueEvent.reply.injEq] at hze
      rwa [← hze]

theorem queued_start {s : PeerState} (h : s.rt = []) {w : NetTrace} (hw : w.Quiet) :
    Queued [] s w := by
  refine ⟨hw, by rw [h]; exact List.Pairwise.nil, fun hashId => ⟨[], List.Pairwise.nil, ?_, ?_⟩⟩
  · intro i r
    constructor
    · intro hm
      exact absurd hm List.not_mem_nil
    · rintro ⟨⟨x, hx, -⟩, -⟩
      simp at hx
  · rw [h]
    rfl

theorem queue_proxyable {hs : List Handled} {s : PeerState} {w : NetTrace} (h : Queued hs s w)
    (hashId : UInt16) : ∀ r ∈ getRequests s.rt hashId, r.Proxyable := by
  obtain ⟨q, -, -, hq⟩ := h.queue hashId
  intro r hr
  rw [hq, List.mem_map] at hr
  obtain ⟨a, -, rfl⟩ := hr
  exact a.2.proxyable

theorem queued_register {hs : List Handled} {x : Handled} {r0 : Registration}
    (hx : x.event = .register r0) {w : NetTrace} (h : Queued hs x.before w)
    (hqueue : getRequests x.after.rt r0.hashId =
      getRequests x.before.rt r0.hashId ++ [r0.request])
    (hother : ∀ h', h' ≠ r0.hashId → getRequests x.after.rt h' = getRequests x.before.rt h')
    (hunique : x.after.rt.Unique) : Queued (hs ++ [x]) x.after w := by
  refine ⟨h.quiet, hunique, fun hashId => ?_⟩
  obtain ⟨q, hsorted, hmem, hq⟩ := h.queue hashId
  by_cases hh : hashId = r0.hashId
  · subst hh
    refine ⟨q ++ [(hs.length, r0)], ?_, fun i r => ?_, ?_⟩
    · refine List.pairwise_append.mpr ⟨hsorted, List.pairwise_singleton _ _, ?_⟩
      rintro ⟨i, r⟩ hir b hb
      rw [List.mem_singleton.mp hb]
      exact waiting_lt ((hmem i r).mp hir)
    · rw [waiting_register hx, List.mem_append, hmem, List.mem_singleton, Prod.mk.injEq]
      simp
    · rw [hqueue, hq]
      simp
  · refine ⟨q, hsorted, fun i r => ?_, (hother hashId hh).trans hq⟩
    rw [waiting_register hx, hmem]
    have hne : ¬ r0.hashId = hashId := fun he => hh he.symm
    simp [hne]

theorem queued_reply {hs : List Handled} {x : Handled} {p : Reply} (hx : x.event = .reply p)
    {w w' : NetTrace} (h : Queued hs x.before w) (hquiet : w'.Quiet)
    (hempty : getRequests x.after.rt p.hashId = [])
    (hother : ∀ h', h' ≠ p.hashId → getRequests x.after.rt h' = getRequests x.before.rt h')
    (hunique : x.after.rt.Unique) : Queued (hs ++ [x]) x.after w' := by
  refine ⟨hquiet, hunique, fun hashId => ?_⟩
  by_cases hh : hashId = p.hashId
  · subst hh
    refine ⟨[], List.Pairwise.nil, fun i r => ?_, hempty⟩
    rw [waiting_reply hx]
    simp
  · obtain ⟨q, hsorted, hmem, hq⟩ := h.queue hashId
    refine ⟨q, hsorted, fun i r => ?_, (hother hashId hh).trans hq⟩
    rw [waiting_reply hx, hmem]
    have hne : p.hashId ≠ hashId := fun he => hh he.symm
    simp [hne]

/-! ### Whole histories -/

/-- The address of every REPLY survives the conversion to text and back. -/
def Resolves (resolve : Resolver) (p : Reply) : Prop :=
  resolve (inetNtop p.packet.nodeIp) p.packet.nodePort = [p.addr]

theorem reply_step {resolve : Resolver} {hs : List Handled} {x : Handled} {p : Reply}
    (hx : x.event = .reply p) (hres : Resolves resolve p) {w w' : NetTrace}
    (h : Queued hs x.before w) (hrun : x.event.run.Exec (reliable resolve) x.before w () x.after w')
    (hevents : w' = w.log x.events) :
    Queued (hs ++ [x]) x.after w' ∧ x.Right (hs ++ [x]) hs.length := by
  rw [hx] at hrun
  obtain ⟨a, s1, he, hafter⟩ := (reply_exec resolve p).mp hrun
  obtain ⟨answers, hlen, hrt, hw'⟩ := proxyOpenRequests_events (queue_proxyable h p.hashId)
    (n := peerFromPacket p.packet) hres h.quiet he
  have hempty : getRequests x.after.rt p.hashId = [] := by
    rw [hafter, hrt]
    exact getRequests_clear_self h.unique p.hashId
  have hother : ∀ h', h' ≠ p.hashId →
      getRequests x.after.rt h' = getRequests x.before.rt h' := by
    intro h' hne
    rw [hafter, hrt]
    exact getRequests_clear_ne x.before.rt hne
  have hunique : x.after.rt.Unique := by
    rw [hafter, hrt]
    exact clearRequests_unique h.unique p.hashId
  have hquiet : w'.Quiet := by
    rw [hw']
    exact quiet_log h.quiet _
  refine ⟨queued_reply hx h hquiet hempty hother hunique, ?_⟩
  obtain ⟨q, hsorted, hmem, hq⟩ := h.queue p.hashId
  rw [Handled.Right, hx]
  refine ⟨⟨q, answers, hsorted, fun i r => ?_, ?_, ?_⟩, hempty, hother⟩
  · rw [hmem]
    have htake : (hs ++ [x]).take hs.length = hs := List.take_left' rfl
    constructor
    · intro hwait
      exact ⟨waiting_lt hwait, ⟨x, List.getElem?_concat_length, hx⟩, by rwa [htake]⟩
    · rintro ⟨-, -, hwait⟩
      rwa [htake] at hwait
  · rw [hlen, hq, List.length_map]
  · rw [hw'] at hevents
    have hev := congrArg NetTrace.events hevents
    rw [log_events, log_events, List.append_cancel_left_eq] at hev
    rw [← hev, hq]

theorem register_step {resolve : Resolver} {hs : List Handled} {x : Handled} {r : Registration}
    (hx : x.event = .register r) {w w' : NetTrace} (h : Queued hs x.before w)
    (hrun : x.event.run.Exec (reliable resolve) x.before w () x.after w')
    (hevents : w' = w.log x.events) :
    Queued (hs ++ [x]) x.after w' ∧ x.Right (hs ++ [x]) hs.length := by
  rw [hx] at hrun
  obtain ⟨rt, hadd, hafter, hw'⟩ := (register_exec resolve r).mp hrun
  obtain ⟨rt', hadd', hunique, hqueue, hother⟩ := addRequest_spec x.before.rt r.hashId
    r.request.socket r.proxyable.exact
  have hrt : x.after.rt = rt' := by
    rw [hadd', Except.ok.injEq] at hadd
    rw [hafter, hadd]
  rw [← hrt] at hunique hqueue hother
  rw [hw']
  refine ⟨queued_register hx h hqueue hother (hunique h.unique), ?_⟩
  rw [Handled.Right, hx]
  refine ⟨?_, hqueue, hother⟩
  rw [hw'] at hevents
  have hev := congrArg NetTrace.events hevents
  rw [log_events] at hev
  exact List.append_cancel_left (hev.symm.trans (List.append_nil _).symm)

theorem right_append {hs : List Handled} {x y : Handled} {j : ℕ} (hj : j < hs.length)
    (h : x.Right hs j) : x.Right (hs ++ [y]) j := by
  unfold Handled.Right at h ⊢
  split
  · next r he =>
    rw [he] at h
    exact h
  · next p he =>
    rw [he] at h
    obtain ⟨⟨q, answers, hsorted, hmem, hrest⟩, hafter⟩ := h
    refine ⟨⟨q, answers, hsorted, fun i r => (hmem i r).trans ?_, hrest⟩, hafter⟩
    rw [FirstReply, FirstReply, List.getElem?_append_left hj,
      List.take_append_of_le_length (Nat.le_of_lt hj)]

theorem history_queued {resolve : Resolver} {s0 s : PeerState} (h0 : s0.rt = [])
    {hs : List Handled} {w : NetTrace} (h : History resolve s0 hs s w)
    (hres : ∀ x ∈ hs, ∀ p, x.event = .reply p → Resolves resolve p) :
    Queued hs s w ∧ ∀ (j : ℕ) (x : Handled), hs[j]? = some x → x.Right hs j := by
  induction h with
  | start hw => exact ⟨queued_start h0 hw, fun j x hx => by simp at hx⟩
  | @next hs w w' x hprev hrun hevents ih =>
    obtain ⟨hq, hall⟩ := ih fun y hy => hres y (List.mem_append_left _ hy)
    have hstep : Queued (hs ++ [x]) x.after w' ∧ x.Right (hs ++ [x]) hs.length := by
      cases hx : x.event with
      | register r => exact register_step hx hq hrun hevents
      | reply p => exact reply_step hx (hres x (by simp) p hx) hq hrun hevents
    refine ⟨hstep.1, fun j y hy => ?_⟩
    rcases getElem?_concat_iff.mp hy with hy | ⟨rfl, rfl⟩
    · exact right_append (List.getElem?_eq_some_iff.mp hy).1 (hall j y hy)
    · exact hstep.2

/-- Every sequence of events can happen. -/
theorem exists_history {resolve : Resolver} {s0 : PeerState} (h0 : s0.rt = [])
    (es : List QueueEvent) (hres : ∀ p, .reply p ∈ es → Resolves resolve p) :
    ∃ hs s w, History resolve s0 hs s w ∧ hs.map Handled.event = es := by
  induction es using List.reverseRecOn with
  | nil => exact ⟨[], s0, ⟨fun _ => none, []⟩, .start fun _ => rfl, rfl⟩
  | append_singleton es e ih =>
    obtain ⟨hs, s, w, hh, hes⟩ := ih fun p hp => hres p (List.mem_append_left _ hp)
    have hevent : ∀ x ∈ hs, ∀ p, x.event = .reply p → Resolves resolve p := by
      intro x hx p hp
      have hm : x.event ∈ hs.map Handled.event := List.mem_map_of_mem hx
      rw [hes, hp] at hm
      exact hres p (List.mem_append_left _ hm)
    obtain ⟨hq, -⟩ := history_queued h0 hh hevent
    cases e with
    | register r =>
      obtain ⟨rt, hadd, -⟩ := addRequest_spec s.rt r.hashId r.request.socket r.proxyable.exact
      let x : Handled := ⟨.register r, s, { s with rt := rt }, []⟩
      refine ⟨hs ++ [x], _, w, .next x hh ((register_exec resolve r).mpr ⟨rt, hadd, rfl, rfl⟩) ?_,
        by simp [hes, x]⟩
      simp [NetTrace.log, x]
    | reply p =>
      have hp := hres p (by simp)
      obtain ⟨a, s1, w', he⟩ := proxyOpenRequests_runs (queue_proxyable hq p.hashId)
        (n := peerFromPacket p.packet) hp s hq.quiet
      obtain ⟨answers, -, -, hw'⟩ := proxyOpenRequests_events (queue_proxyable hq p.hashId)
        (n := peerFromPacket p.packet) hp hq.quiet he
      let x : Handled := ⟨.reply p, s, { s1 with rt := clearRequests s1.rt p.hashId },
        proxyEvents p.addr (getRequests s.rt p.hashId) answers⟩
      exact ⟨hs ++ [x], _, w', .next x hh ((reply_exec resolve p).mpr ⟨a, s1, he, rfl⟩) hw',
        by simp [hes, x]⟩

/-- In every history from an empty table each registered request is proxied by
the first REPLY for its hash behind it and by no other, in order of
registration, and a REPLY leaves its own queue empty and the others alone. -/
theorem openRequests_proxied_once (resolve : Resolver) (s0 : PeerState) (h0 : s0.rt = [])
    (es : List QueueEvent) (hres : ∀ p, .reply p ∈ es → Resolves resolve p) :
    (∃ hs s w, History resolve s0 hs s w ∧ hs.map Handled.event = es) ∧
    ∀ hs s w, History resolve s0 hs s w → hs.map Handled.event = es →
      (∀ (j : ℕ) (x : Handled), hs[j]? = some x → x.Right hs j) ∧
      ∀ i r j p j' p', FirstReply hs j p i r → FirstReply hs j' p' i r → j = j' := by
  refine ⟨exists_history h0 es hres, fun hs s w hh hes => ⟨?_, ?_⟩⟩
  · refine (history_queued h0 hh fun x hx p hp => ?_).2
    have hm : x.event ∈ hs.map Handled.event := List.mem_map_of_mem hx
    rw [hes, hp] at hm
    exact hres p hm
  · exact fun i r j p j' p' h h' => firstReply_unique h h'

def getPacket300 : Packet := { packetNew with flags := 4, keyLen := 2, key := [1, 44] }

def waitingGet (socket : Int) : Registration where
  hashId := 300
  request := ⟨getPacket300, socket⟩
  proxyable :=
    ⟨(by decide : getPacket300.Exact), (by decide : flagSet getPacket300.flags pktFlagCtrl = false)⟩

def replyFor300 : Reply where
  packet := { packetNew with
    flags := 130, hashId := 300, nodeId := 400, nodeIp := 2130706433, nodePort := 4000 }
  isReply := by decide
  notLookup := by decide

theorem openRequests_proxied_once_two :
    let es := [.register (waitingGet 5), .register (waitingGet 6), .reply replyFor300]
    (∃ hs s w, History (numericResolver [2130706433]) freshPeer hs s w ∧
      hs.map Handled.event = es) ∧
    ∀ hs s w, History (numericResolver [2130706433]) freshPeer hs s w →
      hs.map Handled.event = es →
      (∀ (j : ℕ) (x : Handled), hs[j]? = some x → x.Right hs j) ∧
      ∀ i r j p j' p', FirstReply hs j p i r → FirstReply hs j' p' i r → j = j' := by
  refine openRequests_proxied_once (numericResolver [2130706433]) freshPeer rfl _ fun p hp => ?_
  have he : p = replyFor300 := by
    simpa using hp
  subst he
  exact numericResolver_singleton 2130706433 4000

end RN2223.Praxis2

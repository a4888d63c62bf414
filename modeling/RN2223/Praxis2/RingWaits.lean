import RN2223.Lib.WaitGraph
import RN2223.Praxis2.RingRun

/-!
# Peers that wait for one another

A peer inside `proxy_request` serves nobody until its answer is there. When the
peer it has asked waits for it in turn, directly or through others, none of them
gets on. A cycle comes about by the request that closes it and in no other way.
-/

namespace RN2223.Praxis2
open CMemory Relation

variable {ι : Type} [Fintype ι] {R : LinkedRing ι} {net : RingNet R} {i j : ι}

/-! ### Waiting -/

section
variable (w : Links ι)

/-- The connection behind the number leads to peer `j`, and its answer is not
complete. -/
def Links.Unanswered (fd : Int) (j : ι) : Prop :=
  ∃ c l, w.fds fd = some (.up c) ∧ w.conns c = some l ∧ l.target = j ∧ l.downClosed = false

/-- The program is in `recvall` and waits for peer `j`. -/
def WaitsFor (j : ι) : PeerM Unit → Prop
  | .call (.recv fd) _ => w.Unanswered fd j
  | _ => False

/-- The program takes the answer of peer `j` and has another open request of a REPLY
for that peer. -/
def HasNext (j : ι) (p : PeerM Unit) : Prop :=
  ∃ csocket hashId r rest n c l,
    p = relay r.socket n >>= afterReply csocket hashId r rest ∧ rest ≠ [] ∧
    w.fds n.socket = some (.up c) ∧ w.conns c = some l ∧ l.target = j

end

/-- Peer `i` asks peer `j` when it handles the packet: its successor, or the peer a
REPLY names if there are open requests. -/
def Asked (net : RingNet R) (i : ι) (s : PeerState) (p : Packet) (j : ι) : Prop :=
  (route s p = .ok .proxy ∧ j = R.succ i) ∨
  (route s p = .ok .reply ∧ getRequests s.rt p.hashId ≠ [] ∧
    net.resolve (peerFromPacket p).hostname (peerFromPacket p).port = [net.address j])

namespace RingState
variable (x : RingState ι)

/-- Peer `i` is inside `proxy_request` and waits for the answer of peer `j`. -/
def Waits (i j : ι) : Prop := ∃ q, x.running i = some q ∧ WaitsFor (x.links i) j q

end RingState

/-- In this step peer `i` sends a request to peer `j`, to wait for the answer. -/
def RingEvent.Asks (net : RingNet R) (x : RingState ι) (i j : ι) : RingEvent ι → Prop
  | .deliver i' _ p => i' = i ∧ Asked net i (x.peer i) p j
  | .resume i' => i' = i ∧ ∃ p, x.running i = some p ∧ HasNext (x.links i) j p
  | _ => False

/-- No request is sent to a peer that waits, directly or through others, for the
sender. -/
def RingEvent.Safe (net : RingNet R) (x : RingState ι) (e : RingEvent ι) : Prop :=
  ∀ i j, e.Asks net x i j → ¬ ReflTransGen x.Waits j i

/-! ### What a handler waits for -/

def Links.Keeps (w w' : Links ι) : Prop :=
  ∀ c l, w.conns c = some l → ∃ l', w'.conns c = some l' ∧ l'.target = l.target ∧
    l'.downClosed = l.downClosed

section
variable {s s' : PeerState} {w w' w'' : Links ι} {q : PeerM Unit} {csocket : Int} {n : Peer}

omit [Fintype ι] in
theorem Links.Keeps.trans (h : w.Keeps w') (h' : w'.Keeps w'') : w.Keeps w'' := by
  intro c l hl
  obtain ⟨l1, hl1, ht1, hd1⟩ := h c l hl
  obtain ⟨l2, hl2, ht2, hd2⟩ := h' c l1 hl1
  exact ⟨l2, hl2, ht2.trans ht1, hd2.trans hd1⟩

omit [Fintype ι] in
theorem Links.keeps_setConn {c : ℕ} {l l' : Link ι} (hl : w.conns c = some l)
    (ht : l'.target = l.target) (hd : l'.downClosed = l.downClosed) : w.Keeps (w.setConn c l') := by
  intro d ld hld
  by_cases hdc : d = c
  · rw [hdc, hl, Option.some.injEq] at hld
    rw [hdc, ← hld]
    exact ⟨l', Function.update_self .., ht, hd⟩
  · exact ⟨ld, by rw [setConn_conns, Function.update_of_ne hdc, hld], rfl, rfl⟩

omit [Fintype ι] in
theorem Links.keeps_new {c : ℕ} (hc : w.conns c = none) (l : Link ι) : w.Keeps (w.setConn c l) := by
  intro d ld hld
  have hdc : d ≠ c := fun he => by
    rw [he, hc] at hld
    cases hld
  exact ⟨ld, by rw [setConn_conns, Function.update_of_ne hdc, hld], rfl, rfl⟩

theorem not_waits {p : PeerM Unit} (hp : NeverWaits p)
    (hrun : p.Until SysOp.Waits (linkCall net i) s w q s' w') (j : ι) : ¬ WaitsFor w' j q := by
  obtain ⟨a, rfl, -⟩ := (Prog.until_free hp).mp hrun
  exact id

theorem neverWaits_finish (csocket rsp : Int) : NeverWaits (finish csocket rsp) := by
  rw [finish]
  split
  · exact neverWaits_serverRemoveClient csocket
  · trivial

omit [Fintype ι] in
theorem relay_waitsFor {m : ι} {fd : Int} {d : ℕ} {p : Packet} {f : Int × Peer → PeerM Unit} :
    WaitsFor ((w.setConn d (.sent i m p)).setFd fd (some (.up d))) j
      (relay csocket { n with socket := fd, addrLen := 16 } >>= f) ↔ j = m := by
  constructor
  · rintro ⟨c, l, hc, hl, rfl, -⟩
    rw [Links.setFd_fds, Function.update_self, Option.some.injEq, LinkEnd.up.injEq] at hc
    rw [Links.setFd_conns, Links.setConn_conns, ← hc, Function.update_self,
      Option.some.injEq] at hl
    rw [← hl]
    rfl
  · rintro rfl
    exact ⟨d, _, Function.update_self .., Function.update_self .., rfl, rfl⟩

theorem relay_injective {a a' : Int} {n n' : Peer} {f f' : Int × Peer → PeerM Unit}
    (h : relay a n >>= f = relay a' n' >>= f') : n.socket = n'.socket ∧
      f (cbRemoveClient, n.closed) = f' (cbRemoveClient, n'.closed) := by
  rw [relay_bind, relay_bind] at h
  injection h with hop hk
  injection hop with hsocket
  have hrecv := congrFun hk []
  injection hrecv with _ hk
  have hclose := congrFun hk ()
  injection hclose with _ hk
  have hsend := congrFun hk 0
  injection hsend with _ hk
  exact ⟨hsocket, congrFun hk ()⟩

theorem replyLoop_waits {hashId : UInt16} {rs : List Request} {m : ι}
    (hres : net.resolve n.hostname n.port = [net.address m])
    (hrs : ∀ req ∈ rs, ∃ r : ClientRequest, req.packet = r.packet)
    (hrun : (replyLoop csocket hashId rs n).Until SysOp.Waits (linkCall net i) s w q s' w') :
    (∀ j, WaitsFor w' j q ↔ rs ≠ [] ∧ j = m) ∧ ((∃ j, WaitsFor w' j q) → w.Keeps w') := by
  cases rs with
  | nil =>
    have hnone := not_waits (neverWaits_finish csocket cbRemoveClient) hrun
    exact ⟨fun j => iff_of_false (hnone j) fun h => h.1 rfl, fun ⟨j, hj⟩ => absurd hj (hnone j)⟩
  | cons req rest =>
    obtain ⟨r, hr⟩ := hrs req List.mem_cons_self
    rw [replyLoop_cons, hr] at hrun
    obtain ⟨fd, d, -, -, hd, rfl, rfl, rfl⟩ := relay_waits r.isData r.exact hres hrun
    refine ⟨fun j => ?_, fun _ => Links.keeps_new hd _⟩
    rw [relay_waitsFor]
    exact (and_iff_right (List.cons_ne_nil req rest)).symm

omit [Fintype ι] in
/-- Where there are open requests the peer connects, whatever else it does. -/
theorem replyLoop_calls (csocket : Int) (hashId : UInt16) {rs : List Request} (hrs : rs ≠ [])
    (n : Peer) : ∃ o k, replyLoop csocket hashId rs n = .call o k := by
  cases rs with
  | nil => exact absurd rfl hrs
  | cons r rest =>
    rw [replyLoop_cons, forward]
    cases packetSerialize r.packet with
    | error f => exact ⟨_, _, rfl⟩
    | ok b => exact ⟨_, _, rfl⟩

theorem neverWaits_afterProxy (csocket : Int) (x : Int × Peer) :
    NeverWaits (afterProxy csocket x) :=
  Prog.only_bind (neverWaits_modify _) fun _ => neverWaits_finish csocket x.1

omit [Fintype ι] in
theorem afterReply_ne {hashId : UInt16} {r : Request} {rest : List Request} (hrest : rest ≠ [])
    (x : Int × Peer) (f : PeerState → PeerState) (k : PeerState → PeerM Unit) :
    afterReply csocket hashId r rest x ≠ .get fun s => .put (f s) (.get k) := by
  intro h
  change Prog.get (fun s => .put _ (replyLoop csocket hashId rest x.2)) = _ at h
  obtain ⟨o, k', hcall⟩ := replyLoop_calls csocket hashId hrest x.2
  rw [hcall] at h
  injection h with hstate
  have hput := congrFun hstate freshPeer
  injection hput with _ hrun
  cases hrun

omit [Fintype ι] in
theorem not_hasNext_proxying (csocket : Int) (n : Peer) (j : ι) :
    ¬ HasNext w j (relay csocket n >>= afterProxy csocket) := by
  rintro ⟨csocket', hashId, r, rest, n', c, l, hp, hrest, -⟩
  obtain ⟨-, hprog⟩ := relay_injective hp
  exact afterReply_ne hrest _ (fun s => { s with succ := n.closed }) _ hprog.symm

omit [Fintype ι] in
theorem hasNext_replying_iff {hashId : UInt16} {r : Request} {rest : List Request} {c : ℕ}
    {l : Link ι} (hup : w.fds n.socket = some (.up c)) (hl : w.conns c = some l) :
    HasNext w j (relay r.socket n >>= afterReply csocket hashId r rest) ↔
      rest ≠ [] ∧ j = l.target := by
  constructor
  · rintro ⟨csocket', hashId', r', rest', n', c', l', hp, hrest', hup', hl', rfl⟩
    obtain ⟨hsocket, hprog⟩ := relay_injective hp
    rw [← hsocket, hup, Option.some.injEq, LinkEnd.up.injEq] at hup'
    rw [← hup', hl, Option.some.injEq] at hl'
    refine ⟨fun hrest => ?_, by rw [hl']⟩
    subst hrest
    exact afterReply_ne hrest' _
      (fun s => { s with srv := serverCloseSocket s.srv r.socket }) _ hprog.symm
  · rintro ⟨hrest, rfl⟩
    exact ⟨csocket, hashId, r, rest, n, c, l, rfl, hrest, hup, hl, rfl⟩

/-! ### What a step makes a peer wait for -/

variable {W : Paths ι} {queue : UInt16 → List Request}

omit [Fintype ι] in
theorem Serves.requests {fds : Int → Option LinkEnd} {clients : List Client}
    (h : Serves i fds clients queue W) (hashId : UInt16) :
    ∀ req ∈ queue hashId, ∃ r : ClientRequest, req.packet = r.packet := by
  intro req hreq
  obtain ⟨k, r, -, -, hr, -⟩ := h.waiting hashId req hreq
  exact ⟨r, hr⟩

theorem deliver_not_waits {p : Packet} {r : Route} (hr : route s p = .ok r)
    (hnever : NeverWaits (r.run csocket p)) (hproxy : r ≠ .proxy) (hreply : r ≠ .reply)
    (hrun : (serverDeliverPacket csocket p).Until SysOp.Waits (linkCall net i) s w q s' w') :
    ∀ j, ¬ WaitsFor w' j q ∧ ¬ Asked net i s p j := by
  intro j
  refine ⟨not_waits (Prog.only_bind hnever (neverWaits_finish csocket)) (deliver_runs hr hrun) j, ?_⟩
  rintro (⟨hp, -⟩ | ⟨hp, -⟩) <;> cases hr.symm.trans hp
  · exact hproxy rfl
  · exact hreply rfl

theorem reply_waits {m : ι} {hashId : UInt16}
    (hrs : ∀ req ∈ getRequests s.rt hashId, ∃ r : ClientRequest, req.packet = r.packet)
    (hrun : (serverDeliverPacket csocket (net.reply m hashId)).Until SysOp.Waits (linkCall net i) s
      w q s' w') :
    (∀ j, WaitsFor w' j q ↔ Asked net i s (net.reply m hashId) j) ∧
      ((∃ j, WaitsFor w' j q) → w.Keeps w') := by
  have hreply := deliver_runs (route_reply net s m hashId) hrun
  rw [handleReply_eq, Prog.until_get] at hreply
  obtain ⟨hwaits, hkeeps⟩ := replyLoop_waits (net.resolve_literal m) hrs hreply
  refine ⟨fun j => ?_, hkeeps⟩
  rw [hwaits j, Asked, route_reply]
  constructor
  · rintro ⟨hne, rfl⟩
    exact Or.inr ⟨rfl, hne, net.resolve_literal j⟩
  · rintro (⟨hp, -⟩ | ⟨-, hne, hres⟩)
    · cases hp
    · refine ⟨hne, net.address_injective ?_⟩
      have haddr := hres.symm.trans (net.resolve_literal m)
      rwa [List.cons.injEq, and_iff_left rfl] at haddr

/-- After a packet the peer waits for the one it had to ask. -/
theorem deliver_waits {c : ℕ} {l : Link ι} {p : Packet}
    (h : Current net i (getRequests s.rt) s w W) (hdown : w.fds csocket = some (.down c))
    (hl : w.conns c = some l) (hp : packetDecode l.up l.up.length = .ok (some p))
    (hrun : (serverDeliverPacket csocket p).Until SysOp.Waits (linkCall net i) s
      (w.setConn c { l with up := [] }) q s' w') :
    (∀ j, WaitsFor w' j q ↔ Asked net i s p j) ∧ ((∃ j, WaitsFor w' j q) → w.Keeps w') := by
  have hlW : W.conns c = some l := h.conns ▸ hl
  have hread : w.Keeps (w.setConn c { l with up := [] }) := Links.keeps_setConn hl rfl rfl
  have hnone : (∀ j, ¬ WaitsFor w' j q ∧ ¬ Asked net i s p j) →
      (∀ j, WaitsFor w' j q ↔ Asked net i s p j) ∧ ((∃ j, WaitsFor w' j q) → w.Keeps w') :=
    fun hno => ⟨fun j => iff_of_false (hno j).1 (hno j).2, fun ⟨j, hj⟩ => absurd hj (hno j).1⟩
  obtain ⟨r, hrole, rfl⟩ | ⟨r, k, hrole, rfl⟩ | ⟨hrole, hcontrol⟩ := h.ok.readable hlW hp
  · have hroute := route_wired h.knows.wired r.exact r.isData
    by_cases hown : R.Claims i (keyHash r.packet.key)
    · rw [if_pos hown] at hroute
      exact hnone (deliver_not_waits hroute (neverWaits_handleOwnRequest _ _)
        (fun he => by cases he) (fun he => by cases he) hrun)
    · rw [if_neg hown] at hroute
      by_cases hnext : R.Claims (R.succ i) (keyHash r.packet.key)
      · rw [if_pos hnext] at hroute
        have hproxy := deliver_runs hroute hrun
        rw [Route.run, proxyToSucc_eq, Prog.until_get] at hproxy
        obtain ⟨fd, d, -, -, hd, rfl, rfl, rfl⟩ :=
          relay_waits r.isData r.exact (net.resolve_names h.knows.wired.succ) hproxy
        refine ⟨fun j => ?_, fun _ => hread.trans (Links.keeps_new hd _)⟩
        rw [relay_waitsFor, Asked, hroute]
        simp
      · rw [if_neg hnext] at hroute
        exact hnone (deliver_not_waits hroute (neverWaits_registerRequest _ _ _)
          (fun he => by cases he) (fun he => by cases he) hrun)
  · obtain ⟨-, -, -, hclaim, -⟩ := h.ok.fit hrole hlW
    obtain ⟨l', hl', ht, -⟩ := h.serves.owned csocket c hdown
    obtain rfl : l' = l := Option.some.inj (hl'.symm.trans hlW)
    have hroute := route_wired h.knows.wired r.exact r.isData
    rw [if_pos (show R.Claims i (keyHash r.packet.key) from ht ▸ hclaim)] at hroute
    exact hnone (deliver_not_waits hroute (neverWaits_handleOwnRequest _ _)
      (fun he => by cases he) (fun he => by cases he) hrun)
  · cases hcontrol with
    | lookup o hashId =>
      exact hnone (deliver_not_waits (route_lookup net s o hashId) (neverWaits_handleLookup _)
        (fun he => by cases he) (fun he => by cases he) hrun)
    | reply m hashId hm =>
      obtain ⟨hwaits, hkeeps⟩ := reply_waits (h.serves.requests hashId) hrun
      exact ⟨hwaits, fun hj => hread.trans (hkeeps hj)⟩

theorem resume_waits {p : PeerM Unit} (hat : At net i s w.fds W p queue)
    (h : Current net i queue s w W)
    (hrun : p.Resumes SysOp.Waits (linkCall net i) s w q s' w') :
    (∀ j, WaitsFor w' j q ↔ HasNext w j p) ∧ ((∃ j, WaitsFor w' j q) → w.Keeps w') := by
  cases hat with
  | idle => exact hrun.elim
  | @proxying csocket n c k r hup hdown hrole hn =>
    obtain ⟨lk, hlk, -⟩ := h.serves.owned csocket k hdown
    obtain ⟨l, hl, hck, -⟩ := h.ok.relayed hrole
    obtain ⟨-, hrun⟩ := relay_resumes hup (h.conns ▸ hl) hdown (h.conns ▸ hlk) hck hrun
    have hnone := not_waits (neverWaits_afterProxy csocket _) hrun
    exact ⟨fun j => iff_of_false (hnone j) (not_hasNext_proxying csocket n j),
      fun ⟨j, hj⟩ => absurd hj (hnone j)⟩
  | @replying csocket hashId req rest n c k e r m hup hdown hrole htarget hres hm hctl hspent =>
    obtain ⟨lk, hlk, -⟩ := h.serves.owned req.socket k hdown
    obtain ⟨l, hl, hck, -⟩ := h.ok.relayed hrole
    obtain ⟨l', hl', rfl⟩ := htarget
    obtain rfl : l' = l := Option.some.inj (hl'.symm.trans hl)
    rw [h.conns] at hl hlk
    obtain ⟨-, hrun⟩ := relay_resumes hup hl hdown hlk hck hrun
    have hrs : ∀ req' ∈ rest, ∃ r' : ClientRequest, req'.packet = r'.packet := by
      have hall := h.serves.requests hashId
      rwa [Function.update_self] at hall
    obtain ⟨hwaits, hkeeps⟩ := replyLoop_waits (n := n.closed) hres hrs hrun
    refine ⟨fun j => ?_, fun hj => Links.Keeps.trans ?_ (hkeeps hj)⟩
    · rw [hwaits j, hasNext_replying_iff hup hl]
    · have hlk' : (w.setConn c { l' with upClosed := true }).conns k = some lk := by
        rw [Links.setConn_conns, Function.update_of_ne hck.symm, hlk]
      have hpeer : w.Keeps (w.setConn c { l' with upClosed := true }) :=
        Links.keeps_setConn hl rfl rfl
      have hclient : (w.setConn c { l' with upClosed := true }).Keeps
          ((w.setConn c { l' with upClosed := true }).setConn k
            { lk with down := lk.down ++ l'.down }) := Links.keeps_setConn hlk' rfl rfl
      exact hpeer.trans hclient

theorem At.reads {fds : Int → Option LinkEnd} {fd : Int} {f : Bytes → PeerM Unit}
    (h : At net i s fds W q queue) (hq : q = .call (.recv fd) f) :
    ∃ c k r, fds fd = some (.up c) ∧ W.role k = some (.relayed r c) := by
  cases h with
  | idle => cases hq
  | @proxying _ _ c k r hup _ hrole =>
    rw [relay_bind] at hq
    injection hq with hop
    injection hop with hfd
    exact ⟨c, k, r, hfd ▸ hup, hrole⟩
  | @replying _ _ _ _ _ c k _ r _ hup _ hrole =>
    rw [relay_bind] at hq
    injection hq with hop
    injection hop with hfd
    exact ⟨c, k, r, hfd ▸ hup, hrole⟩

end

namespace RingState
variable [DecidableEq ι] {x x' : RingState ι} {W W' : Paths ι} {a b : ι}

omit [DecidableEq ι] in
theorem Inv.waits_of (h : Inv net x W) (hf : W.Frame R j W') (hconns : W'.conns = x'.conns)
    (hrun : x'.running a = x.running a) (hfds : x'.fds a = x.fds a) (hw : x'.Waits a b) :
    x.Waits a b := by
  obtain ⟨q, hq, hwait⟩ := hw
  rw [hrun] at hq
  refine ⟨q, hq, ?_⟩
  obtain ⟨queue, hat, -⟩ := h.waiting hq
  match q, hat, hwait with
  | .call (.recv fd) f, hat, ⟨c, l', hfd, hl', ht, hd⟩ =>
    obtain ⟨c', k, r, hup, hrole⟩ := hat.reads rfl
    obtain ⟨l, hl, -⟩ := h.ok.relayed hrole
    have hfd' : x.fds a fd = some (.up c) := hfds ▸ hfd
    obtain rfl : c' = c := by
      rw [hup, Option.some.injEq, LinkEnd.up.injEq] at hfd'
      exact hfd'
    obtain ⟨l2, hl2, hg⟩ := hf.links c' l hl
    obtain rfl : l2 = l' := by
      have hl'' : x'.conns c' = some l' := hl'
      rw [← hconns, hl2, Option.some.injEq] at hl''
      exact hl''
    refine ⟨c', l, hup, (congrFun h.conns c').symm.trans hl, hg.target.symm.trans ht, ?_⟩
    cases hopen : l.downClosed with
    | false => rfl
    | true => cases hd.symm.trans (hg.downClosed hopen)

omit [DecidableEq ι] [Fintype ι] in
theorem waits_keeps (hkeeps : (x.links i).Keeps (x'.links i)) (hrun : x'.running a = x.running a)
    (hfds : x'.fds a = x.fds a) (hw : x.Waits a b) : x'.Waits a b := by
  obtain ⟨q, hq, hwait⟩ := hw
  refine ⟨q, hrun.trans hq, ?_⟩
  match q, hwait with
  | .call (.recv fd) f, ⟨c, l, hfd, hl, ht, hd⟩ =>
    obtain ⟨l', hl', ht', hd'⟩ := hkeeps c l hl
    exact ⟨c, l', (congrFun hfds fd).trans hfd, hl', ht'.trans ht, hd'.trans hd⟩

omit [Fintype ι] in
theorem after_waits {q : PeerM Unit} {s' : PeerState} {w' : Links ι} {executed : List Packet} :
    ({ x.after i q s' w' with executed := executed } : RingState ι).Waits i b ↔ WaitsFor w' b q := by
  have hlinks : ({ x.after i q s' w' with executed := executed } : RingState ι).links i = w' := by
    simp [after, links]
  have hrun : ({ x.after i q s' w' with executed := executed } : RingState ι).running i =
      q.unfinished := Function.update_self ..
  rw [Waits, hlinks, hrun]
  cases q with
  | ret a =>
    refine iff_of_false ?_ id
    rintro ⟨q, hq, -⟩
    cases hq
  | _ => simp [Prog.unfinished]

omit [DecidableEq ι] in
theorem acyclic_iff_of_quiet {e : RingEvent ι} (hacyclic : Acyclic x.Waits)
    (hsub : ∀ a b, x'.Waits a b → x.Waits a b) (hno : ∀ i j, ¬ e.Asks net x i j) :
    Acyclic x'.Waits ↔ e.Safe net x :=
  iff_of_true (fun a hcycle => hacyclic a (TransGen.mono hsub a a hcycle)) fun i j hasks => absurd hasks (hno i j)

/-- A step of one peer closes a cycle if and only if the peer asks one that waits for
it. -/
theorem acyclic_iff_of_move {e : RingEvent ι} {q : PeerM Unit} {s' : PeerState} {w' : Links ι}
    (executed : List Packet) (hacyclic : Acyclic x.Waits)
    (hsub : ∀ a b, a ≠ i → ({ x.after i q s' w' with executed := executed } : RingState ι).Waits a b →
      x.Waits a b)
    (hwaits : ∀ j, WaitsFor w' j q ↔ e.Asks net x i j)
    (hkeeps : (∃ j, WaitsFor w' j q) → (x.links i).Keeps w')
    (honly : ∀ i' j, e.Asks net x i' j → i' = i) :
    Acyclic ({ x.after i q s' w' with executed := executed } : RingState ι).Waits ↔
      e.Safe net x := by
  have hlinks : ({ x.after i q s' w' with executed := executed } : RingState ι).links i = w' := by
    simp [after, links]
  rw [acyclic_iff_of_changes_at (i := i) hacyclic hsub fun c hc a b hne hab => ?_]
  · constructor
    · intro hnew i' j hasks
      obtain rfl := honly i' j hasks
      exact hnew j (after_waits.mpr ((hwaits j).mpr hasks))
    · intro hsafe b hb
      exact hsafe i b ((hwaits b).mp (after_waits.mp hb))
  · refine waits_keeps (i := i) ?_ (Function.update_of_ne hne ..) (Function.update_of_ne hne ..) hab
    rw [hlinks]
    exact hkeeps ⟨c, after_waits.mp hc⟩

omit [Fintype ι] in
theorem after_same {a i : ι} (hne : a ≠ i) (q : PeerM Unit) (s' : PeerState) (w' : Links ι) :
    (x.after i q s' w').running a = x.running a ∧ (x.after i q s' w').fds a = x.fds a :=
  ⟨Function.update_of_ne hne .., Function.update_of_ne hne ..⟩

theorem step_acyclic_iff {e : RingEvent ι} (hinv : Inv net x W) (hacyclic : Acyclic x.Waits)
    (hs : Step net x e x') : Acyclic x'.Waits ↔ e.Safe net x := by
  obtain ⟨W', hinv', k, hframe⟩ := hinv.step hs
  have hconns := hinv'.conns
  -- whoever does not move still waits for the same peer
  have hothers : ∀ i, (∀ a, a ≠ i → x'.running a = x.running a ∧ x'.fds a = x.fds a) →
      ∀ a b, a ≠ i → x'.Waits a b → x.Waits a b := by
    intro i hsame a b hne hw
    obtain ⟨hrunning, hfds⟩ := hsame a hne
    exact hinv.waits_of hframe hconns hrunning hfds hw
  have hdone : ∀ {i : ι} {s' : PeerState} {w' : Links ι},
      (∀ a b, a ≠ i → (x.after i (.ret ()) s' w').Waits a b → x.Waits a b) →
      (∀ i' j, ¬ e.Asks net x i' j) →
      (Acyclic (x.after i (.ret ()) s' w').Waits ↔ e.Safe net x) := by
    intro i s' w' hsub hno
    refine acyclic_iff_of_move x.executed hacyclic hsub
      (fun j => iff_of_false id (hno i j)) (fun ⟨j, hj⟩ => hj.elim)
      fun i' j hasks => absurd hasks (hno i' j)
  cases hs with
  | invoke c r entry hc =>
    exact acyclic_iff_of_quiet hacyclic
      (fun a b hw => hinv.waits_of hframe hconns rfl rfl hw) fun _ _ => id
  | respond c l hc hsource hopen hdone =>
    exact acyclic_iff_of_quiet hacyclic
      (fun a b hw => hinv.waits_of hframe hconns rfl rfl hw) fun _ _ => id
  | deliver i cl p c l q s' w' hidle hcl hfd hc hp hrun =>
    obtain ⟨hwaits, hkeeps⟩ := deliver_waits (hinv.idle hidle) hfd hc hp hrun
    refine acyclic_iff_of_move _ hacyclic (hothers i fun a hne => after_same hne q s' w')
      (fun j => ?_) hkeeps fun i' j hasks => hasks.1.symm
    rw [hwaits j]
    exact (and_iff_right rfl).symm
  | resume i p q s' w' hwait hrun =>
    obtain ⟨queue, hat, hcurrent⟩ := hinv.waiting hwait
    obtain ⟨hwaits, hkeeps⟩ := resume_waits hat hcurrent hrun
    refine acyclic_iff_of_move x.executed hacyclic
      (hothers i fun a hne => after_same hne q s' w') (fun j => ?_) hkeeps
      fun i' j hasks => hasks.1.symm
    rw [hwaits j]
    constructor
    · exact fun hnext => ⟨rfl, p, hwait, hnext⟩
    · rintro ⟨-, p', hp', hnext⟩
      rwa [Option.some.inj (hwait.symm.trans hp')]
  | accept i c fd l s' w' hidle hc ht hnew hfd hrun =>
    exact hdone (hothers i fun a hne => after_same hne _ s' w') fun _ _ => id
  | sweep i s' w' hidle hrun =>
    exact hdone (hothers i fun a hne => after_same hne _ s' w') fun _ _ => id
  | hangup i cl c l s' w' hidle hcl hfd hc hup hclosed hrun =>
    exact hdone (hothers i fun a hne => after_same hne _ s' w') fun _ _ => id

/-- Runs all of whose steps meet `ok`. -/
inductive Run (net : RingNet R) (ok : RingState ι → RingEvent ι → Prop) : RingState ι → Prop where
  | start : Run net ok (start R)
  | step {x x' : RingState ι} (e : RingEvent ι) (h : Run net ok x) (hs : Step net x e x')
    (hok : ok x e) : Run net ok x'

theorem Run.reachable {ok : RingState ι → RingEvent ι → Prop} (h : Run net ok x) :
    Reachable net x := by
  induction h with
  | start => exact .start
  | step e _ hs _ ih => exact .step e ih hs

end RingState

/-- As long as no request is sent to a peer that waits for the sender, peers do not
wait for one another in a cycle, and the first request of another kind closes one. -/
theorem safeRun_acyclic [DecidableEq ι] {x : RingState ι}
    (h : RingState.Run net (fun x e => e.Safe net x) x) : Acyclic x.Waits ∧
      ∀ e x', RingState.Step net x e x' → (Acyclic x'.Waits ↔ e.Safe net x) := by
  have hacyclic : Acyclic x.Waits := by
    induction h with
    | start =>
      intro a hcycle
      obtain ⟨b, ⟨q, hq, -⟩, -⟩ := TransGen.head'_iff.mp hcycle
      cases hq
    | step e hrun hs hsafe ih =>
      obtain ⟨W, hinv⟩ := RingState.reachable_inv hrun.reachable
      exact (RingState.step_acyclic_iff hinv ih hs).mpr hsafe
  obtain ⟨W, hinv⟩ := RingState.reachable_inv h.reachable
  exact ⟨hacyclic, fun e x' hs => RingState.step_acyclic_iff hinv hacyclic hs⟩

/-! ### Two requests that cross -/

def pairLinked : LinkedRing Bool where
  id b := if b then 20 else 10
  pred b := !b
  two_le_card := by decide
  id_injective := by decide
  isPred := by
    unfold CyclicOrder.IsPred
    decide
  succ b := !b
  isSucc := by
    unfold CyclicOrder.IsPred
    decide
  hostname _ := inetNtop 2130706433
  port b := if b then 4711 else 4710

def pairNet : RingNet pairLinked where
  ip _ := 2130706433
  resolve := numericResolver [2130706433]
  resolve_hostname _ := numericResolver_singleton 2130706433 _
  resolve_literal _ := numericResolver_singleton 2130706433 _
  address_injective := by
    unfold pairLinked SockAddr.inet
    decide

def askedLink (b : UInt8) (target : Bool) : Link Bool :=
  { Link.fresh none target with up := (getOf b).packet.wire }

/-- A client of peer 10 has asked for hash 15, and one of peer 20 for hash 25. -/
def bothAsked : RingState Bool :=
  let x := (RingState.start pairLinked).asking 0 (getOf 15) false
  let x := (x.accepting false 0 (askedLink 15 false) 4).asking 1 (getOf 25) true
  x.accepting true 1 (askedLink 25 true) 4

/-- Peer 10 has sent its request to peer 20. -/
def crossing : RingState Bool :=
  bothAsked.delivering pairNet false (newClient 4) (getOf 15).packet 0
    { askedLink 15 false with accepted := true } true 5 2

/-- And peer 20 has sent its own to peer 10. -/
def crossed : RingState Bool :=
  crossing.delivering pairNet true (newClient 4) (getOf 25).packet 1
    { askedLink 25 true with accepted := true } false 5 3

theorem bothAsked_run : RingState.Run pairNet (fun x e => e.Safe pairNet x) bothAsked := by
  refine .step _ (.step _ (.step _ (.step (.invoke 0 (getOf 15) false) .start
    (.invoke _ 0 (getOf 15) false rfl) fun _ _ => False.elim)
    (RingState.step_accepting (c := 0) _ rfl rfl rfl rfl ?_) fun _ _ => False.elim)
    (.invoke _ 1 (getOf 25) true rfl) fun _ _ => False.elim)
    (RingState.step_accepting (c := 1) _ rfl rfl rfl rfl ?_) fun _ _ => False.elim
  all_goals decide

theorem step_crossing :
    RingState.Step pairNet bothAsked (.deliver false (newClient 4) (getOf 15).packet) crossing := by
  refine RingState.step_delivering _ rfl ?_ ?_ rfl ?_ ?_
  · decide
  · rfl
  · decide
  · trivial

theorem crossing_run : RingState.Run pairNet (fun x e => e.Safe pairNet x) crossing := by
  refine .step _ bothAsked_run step_crossing fun i j hasks hpath => ?_
  have hidle : ∀ a, bothAsked.running a = none := by
    intro a
    cases a <;> rfl
  obtain rfl | ⟨b, ⟨q, hq, -⟩, -⟩ := hpath.cases_head
  · obtain ⟨rfl, ⟨-, hj⟩ | ⟨hroute, -⟩⟩ := hasks
    · cases hj
    · revert hroute
      decide
  · cases (hidle j).symm.trans hq

theorem step_crossed :
    RingState.Step pairNet crossing (.deliver true (newClient 4) (getOf 25).packet) crossed := by
  refine RingState.step_delivering _ rfl ?_ ?_ rfl ?_ ?_
  · decide
  · rfl
  · decide
  · trivial

theorem safeRun_acyclic_crossing : Acyclic crossing.Waits ∧ ∀ e x',
    RingState.Step pairNet crossing e x' → (Acyclic x'.Waits ↔ e.Safe pairNet crossing) :=
  safeRun_acyclic crossing_run

/-- Each peer is inside `proxy_request` and waits for the other one. -/
theorem crossed_deadlocked : RingState.Reachable pairNet crossed ∧ crossed.Waits false true ∧
    crossed.Waits true false ∧ ¬ Acyclic crossed.Waits := by
  have hup : crossed.Waits false true := ⟨_, rfl, 2, _, rfl, rfl, rfl, rfl⟩
  have hback : crossed.Waits true false := ⟨_, rfl, 3, _, rfl, rfl, rfl, rfl⟩
  refine ⟨.step _ crossing_run.reachable step_crossed, hup, hback, fun hacyclic => ?_⟩
  exact hacyclic false (.tail (.single hup) hback)

end RN2223.Praxis2

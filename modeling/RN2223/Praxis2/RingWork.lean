import RN2223.Lib.Draining
import RN2223.Praxis2.RingProgress

/-!
# The work left in a ring

Every packet on its way and every client a peer keeps stands for a number of steps
that is left, a LOOKUP for more the further it is from the peer that claims its hash.
Whatever a peer does with one of them takes more away than it adds.
-/

namespace RN2223.Praxis2
open CMemory CyclicOrder

variable {ι : Type} [Fintype ι] {R : LinkedRing ι} {net : RingNet R} {i j : ι} {w w' : Links ι}
  {csocket : Int} {s s' : PeerState} {W : Paths ι} {q : PeerM Unit} {n : Peer} {hashId : UInt16}

/-! ### How far a LOOKUP has to go -/

namespace LinkedRing
variable {m : ι}

/-- From peer `j` to the peer that claims the hash. -/
def hops (R : LinkedRing ι) (j : ι) (hashId : UInt16) : ℕ :=
  ∑ m with R.Claims m hashId, stepsTo R.pos m j

theorem hops_eq (hm : R.Claims m hashId) (j : ι) : R.hops j hashId = stepsTo R.pos m j := by
  have hone : (Finset.univ.filter fun m => R.Claims m hashId) = {m} := by
    ext m'
    rw [Finset.mem_filter, Finset.mem_singleton]
    exact ⟨fun h => R.claims_unique h.2 hm, fun h => ⟨Finset.mem_univ m', h ▸ hm⟩⟩
  rw [hops, hone, Finset.sum_singleton]

theorem hops_lt (h : R.CoveredOnce hashId) (j : ι) : R.hops j hashId < Fintype.card ι := by
  obtain ⟨m, hm, -⟩ := h
  rw [R.hops_eq ((hm m).mpr rfl)]
  exact stepsTo_lt _ _ _

theorem hops_succ (h : R.CoveredOnce hashId) (hj : ¬ R.Claims j hashId) :
    R.hops (R.succ j) hashId + 1 = R.hops j hashId := by
  obtain ⟨m, hm, -⟩ := h
  have hclaim := (hm m).mpr rfl
  rw [R.hops_eq hclaim, R.hops_eq hclaim]
  exact stepsTo_step R.pos_injective (R.isSucc j) fun he => hj (he ▸ hclaim)

/-- A packet at peer `j`: a request of the own is one step, another one becomes a LOOKUP,
and a REPLY sends off the first of the open requests. -/
def packetWork (R : LinkedRing ι) (j : ι) (p : Packet) : ℕ :=
  if flagSet p.flags pktFlagCtrl then
    if flagSet p.flags pktFlagLkup then 3 * R.hops j p.hashId + 7 else 4
  else if R.Claims j (keyHash p.key) then 1 else 3 * Fintype.card ι + 10

/-- If it has to be looked for, some peer claims its hash. -/
def Answerable (R : LinkedRing ι) (p : Packet) : Prop :=
  if flagSet p.flags pktFlagCtrl then flagSet p.flags pktFlagLkup → R.CoveredOnce p.hashId
  else R.CoveredOnce (keyHash p.key)

theorem packetWork_request (j : ι) (r : ClientRequest) : R.packetWork j r.packet =
    if R.Claims j (keyHash r.key) then 1 else 3 * Fintype.card ι + 10 := by
  rw [packetWork, r.isData, if_neg Bool.false_ne_true]
  rfl

theorem answerable_request (r : ClientRequest) :
    R.Answerable r.packet ↔ R.CoveredOnce (keyHash r.key) := by
  rw [Answerable, r.isData, if_neg Bool.false_ne_true]
  rfl

theorem packetWork_lookup (net : RingNet R) (j o : ι) (hashId : UInt16) :
    R.packetWork j (net.lookup o hashId) = 3 * R.hops j hashId + 7 := by
  rw [packetWork, if_pos (net.lookup_ctrl o hashId), if_pos (net.lookup_lkup o hashId)]
  rfl

theorem answerable_lookup (net : RingNet R) (o : ι) (hashId : UInt16) :
    R.Answerable (net.lookup o hashId) ↔ R.CoveredOnce hashId := by
  rw [Answerable, if_pos (net.lookup_ctrl o hashId), forall_prop_of_true (net.lookup_lkup o hashId)]
  rfl

theorem packetWork_reply (net : RingNet R) (j m : ι) (hashId : UInt16) :
    R.packetWork j (net.reply m hashId) = 4 := by
  rw [packetWork, if_pos (net.reply_ctrl m hashId), net.reply_lkup, if_neg Bool.false_ne_true]

theorem answerable_reply (net : RingNet R) (m : ι) (hashId : UInt16) :
    R.Answerable (net.reply m hashId) := by
  rw [Answerable, if_pos (net.reply_ctrl m hashId), net.reply_lkup]
  exact fun h => absurd h Bool.false_ne_true

theorem coveredOnce_of_claims (h : R.Claims m hashId) : R.CoveredOnce hashId :=
  (R.coveredOnce_iff hashId).mpr ((R.claims_iff m hashId).mp h).1

end LinkedRing

/-! ### Connections -/

def Link.unread (l : Link ι) : Option Packet :=
  match packetDecode l.up l.up.length with
  | .ok p => p
  | .error _ => none

/-- A client gets one answer and takes it. -/
def Link.work (R : LinkedRing ι) (l : Link ι) : ℕ :=
  (if l.accepted then 0 else 2) + l.unread.elim 0 (R.packetWork l.target) +
    match l.source with
    | some _ => 0
    | none => (if l.down = [] then 4 else 0) + if l.upClosed then 0 else 1

omit [Fintype ι] in
theorem Link.unread_eq {l : Link ι} {p : Packet}
    (hp : packetDecode l.up l.up.length = .ok (some p)) : l.unread = some p := by
  rw [Link.unread, hp]

theorem Link.work_sent {l : Link ι} {p : Packet} (hs : l.source = some i) (ha : l.accepted = false)
    (hp : packetDecode l.up l.up.length = .ok (some p)) :
    l.work R = 2 + R.packetWork l.target p := by
  rw [Link.work, ha, Link.unread_eq hp, hs]
  rfl

theorem Link.work_read {l : Link ι} {p : Packet} (hp : packetDecode l.up l.up.length = .ok (some p)) :
    ({ l with up := [] } : Link ι).work R + R.packetWork l.target p = l.work R := by
  have hread : ({ l with up := [] } : Link ι).unread = none := rfl
  rw [Link.work, Link.work, hread, Link.unread_eq hp]
  simp only [Option.elim]
  omega

theorem Link.work_answered {l : Link ι} (hs : l.source = none) (hd : l.down = []) {b : Bytes}
    (hb : b ≠ []) : ({ l with down := l.down ++ b } : Link ι).work R + 4 = l.work R := by
  have hdown : l.down ++ b ≠ [] := List.append_ne_nil_of_right_ne_nil _ hb
  simp only [Link.work, Link.unread, hs, if_neg hdown, if_pos hd]
  omega

theorem Link.work_write (l : Link ι) {b : Bytes} (hb : b ≠ []) :
    ({ l with down := l.down ++ b } : Link ι).work R ≤ l.work R := by
  have hdown : l.down ++ b ≠ [] := List.append_ne_nil_of_right_ne_nil _ hb
  simp only [Link.work, Link.unread, if_neg hdown]
  cases l.source with
  | some _ => exact le_rfl
  | none => exact Nat.add_le_add_left (Nat.add_le_add_right (Nat.zero_le _) _) _

/-- There are only finitely many connections, and what has to be looked for can be
found. -/
structure Links.Orderly (R : LinkedRing ι) (w : Links ι) : Prop where
  limited : w.Limited
  answerable : ∀ c l p, w.conns c = some l → l.unread = some p → R.Answerable p

/-- What peer `i` and the connections stand for. -/
noncomputable def workAt (R : LinkedRing ι) (s : PeerState) (w : Links ι) : ℕ :=
  totalLoad (Link.work R) w.conns + s.srv.clients.length

def Spends (R : LinkedRing ι) (m : ℤ) (s : PeerState) (w : Links ι) (s' : PeerState)
    (w' : Links ι) : Prop :=
  w.Orderly R → w'.Orderly R ∧ (workAt R s' w' : ℤ) ≤ workAt R s w + m

namespace Spends
variable {m m' : ℤ} {s1 : PeerState} {w1 : Links ι} {c : ℕ} {l l' : Link ι}

theorem trans (h : Spends R m s w s1 w1) (h' : Spends R m' s1 w1 s' w') :
    Spends R (m + m') s w s' w' := by
  intro hw
  obtain ⟨hw1, hle⟩ := h hw
  obtain ⟨hw', hle'⟩ := h' hw1
  exact ⟨hw', by omega⟩

theorem mono (h : Spends R m s w s' w') (hm : m ≤ m') : Spends R m' s w s' w' := by
  intro hw
  obtain ⟨hw', hle⟩ := h hw
  exact ⟨hw', by omega⟩

theorem refl (s : PeerState) (w : Links ι) : Spends R 0 s w s w := fun hw => ⟨hw, by omega⟩

/-- The peer's own data changes. -/
theorem state (s s' : PeerState) (w : Links ι) :
    Spends R (s'.srv.clients.length - s.srv.clients.length) s w s' w :=
  fun hw => ⟨hw, by simp only [workAt]; omega⟩

theorem setFd (s : PeerState) (w : Links ι) (fd : Int) (e : Option LinkEnd) :
    Spends R 0 s w s (w.setFd fd e) :=
  fun hw => ⟨⟨(w.extends_setFd fd e).limited hw.limited, hw.answerable⟩, by
    simp only [workAt, Links.setFd_conns]
    omega⟩

theorem setConn (s : PeerState) (w : Links ι) (c : ℕ) (l : Link ι)
    (hl : ∀ p, l.unread = some p → R.Answerable p) :
    Spends R (l.work R - (w.conns c).elim 0 (Link.work R)) s w s (w.setConn c l) := by
  intro hw
  have htotal := totalLoad_update (Link.work R) hw.limited.conns c (some l)
  refine ⟨⟨⟨hw.limited.fds, finite_update hw.limited.conns c (some l)⟩, fun d ld p hd hp => ?_⟩, ?_⟩
  · by_cases hdc : d = c
    · rw [hdc, Links.setConn_conns, Function.update_self, Option.some.injEq] at hd
      exact hl p (hd ▸ hp)
    · rw [Links.setConn_conns, Function.update_of_ne hdc] at hd
      exact hw.answerable d ld p hd hp
  · simp only [workAt, Links.setConn_conns]
    rw [Option.elim_some] at htotal
    omega

theorem new (s : PeerState) {p : Packet} (hc : w.conns c = none) (hs : l.source = some i)
    (ha : l.accepted = false) (hp : packetDecode l.up l.up.length = .ok (some p))
    (hans : R.Answerable p) : Spends R (2 + R.packetWork l.target p) s w s (w.setConn c l) := by
  have h := setConn s w c l fun p' hp' => by
    rw [Link.unread_eq hp, Option.some.injEq] at hp'
    exact hp' ▸ hans
  rw [hc, Link.work_sent hs ha hp] at h
  exact h.mono (by simp)

/-- What has not been read stays, or is read. -/
theorem relink (s : PeerState) (l' : Link ι) (hl : w.conns c = some l)
    (hup : l'.up = l.up ∨ l'.up = []) :
    Spends R (l'.work R - l.work R) s w s (w.setConn c l') := by
  intro hw
  have h := setConn (R := R) s w c l' fun p hp => by
    obtain hup | hup := hup
    · rw [Link.unread, hup] at hp
      exact hw.answerable c l p hl hp
    · rw [Link.unread, hup] at hp
      cases hp
  rw [hl] at h
  exact h hw

end Spends

/-! ### What a peer does -/

section
variable {c : ℕ} {l : Link ι}

theorem remove_spends (hfd : w.fds csocket = some (.down c)) (hc : w.conns c = some l) {a : Unit}
    (he : (serverRemoveClient csocket).Exec (linkCall net i) s w a s' w') :
    Spends R 0 s w s' w' ∧
      ((∃ cl ∈ s.srv.clients, cl.socket = csocket) → Spends R (-1) s w s' w') := by
  obtain ⟨rfl, rfl⟩ | ⟨hnone, rfl, rfl⟩ := serverRemoveClient_cases hfd hc he
  · have hclose : Spends R 0 s w s ((w.setConn c { l with downClosed := true }).setFd csocket none) :=
      ((Spends.relink s { l with downClosed := true } hc (Or.inl rfl)).trans
        (.setFd s _ csocket none)).mono (by simp [Link.work, Link.unread])
    have hgone := Spends.state (R := R) s { s with srv := unlinkClient s.srv csocket }
      ((w.setConn c { l with downClosed := true }).setFd csocket none)
    have hlen : (unlinkClient s.srv csocket).clients.length ≤ s.srv.clients.length :=
      List.length_eraseP_le
    refine ⟨(hclose.trans hgone).mono (by dsimp only; omega), fun ⟨cl, hcl, hs⟩ => ?_⟩
    have hone : (unlinkClient s.srv csocket).clients.length = s.srv.clients.length - 1 :=
      List.length_eraseP_of_mem hcl (by simpa using hs)
    have hpos := List.length_pos_of_mem hcl
    exact (hclose.trans hgone).mono (by dsimp only; omega)
  · exact ⟨.refl s' w', fun ⟨cl, hcl, hs⟩ => absurd hs (hnone cl hcl)⟩

theorem finish_spends (hfd : w.fds csocket = some (.down c)) (hc : w.conns c = some l)
    (hrun : (finish csocket cbRemoveClient).Until SysOp.Waits (linkCall net i) s w q s' w') :
    Spends R 0 s w s' w' := by
  obtain ⟨a, rfl, he⟩ := (Prog.until_free (neverWaits_serverRemoveClient csocket)).mp hrun
  exact (remove_spends hfd hc he).1

/-- A packet is sent off; the peer goes on with what is left of its handler. -/
theorem request_spends {m : ι} {r : ClientRequest} (hm : R.Claims m (keyHash r.key)) {fd : Int}
    {d : ℕ} (hd : w.conns d = none) (s : PeerState) :
    Spends R 3 s w s ((w.setConn d (.sent i m r.packet)).setFd fd (some (.up d))) := by
  have hsend := Spends.new (R := R) (l := .sent i m r.packet) s hd rfl rfl r.decode
    ((LinkedRing.answerable_request r).mpr (LinkedRing.coveredOnce_of_claims hm))
  have htarget : (Link.sent i m r.packet).target = m := rfl
  rw [LinkedRing.packetWork_request, htarget, if_pos hm] at hsend
  exact (hsend.trans (.setFd s _ fd (some (.up d)))).mono (by simp)

theorem own_spends {r : ClientRequest} {f : Bytes → Option Bytes} (hf : Represents s.ht f)
    (hfd : w.fds csocket = some (.down c)) (hl : w.conns c = some l)
    (hrun : (handleOwnRequest csocket r.packet >>= finish csocket).Until SysOp.Waits
      (linkCall net i) s w q s' w') : Spends R 0 s w s' w' := by
  obtain ⟨a, s1, w1, he, hrun⟩ := (Prog.until_bind (neverWaits_handleOwnRequest _ _)).mp hrun
  obtain ⟨ht', -, rfl, rfl, rfl⟩ := handleOwnRequest_links hfd hl r.toOwnRequest hf he
  have hanswer := Spends.relink (R := R) s
    { l with down := l.down ++ (r.ack (f r.key)).wire } hl (Or.inl rfl)
  have hless := Link.work_write (R := R) l (wire_ne_nil (r.ack (f r.key)))
  have hfinish := finish_spends (R := R) (s := { s with ht := ht' })
    (w := w.setConn c { l with down := l.down ++ (r.ack (f r.key)).wire }) hfd
    (Function.update_self ..) hrun
  exact ((hanswer.trans (.state s { s with ht := ht' } _)).trans hfinish).mono (by dsimp only; omega)

theorem proxy_spends {r : ClientRequest} (hs : R.Wired i s)
    (hnext : R.Claims (R.succ i) (keyHash r.key))
    (hrun : (proxyToSucc csocket r.packet >>= finish csocket).Until SysOp.Waits (linkCall net i)
      s w q s' w') : Spends R 3 s w s' w' := by
  rw [proxyToSucc_eq, Prog.until_get] at hrun
  obtain ⟨fd, d, -, hfree, hd, rfl, rfl, rfl⟩ :=
    relay_waits r.isData r.exact (net.resolve_names hs.succ) hrun
  exact request_spends hnext hd s'

theorem lookup_sent_spends (net : RingNet R) (hc : R.CoveredOnce hashId) (hi : ¬ R.Claims i hashId) (o : ι) {d : ℕ}
    (hd : w.conns d = none) (s : PeerState) : Spends R (3 * R.hops i hashId + 6) s w s
      (w.setConn d { Link.sent i (R.succ i) (net.lookup o hashId) with upClosed := true }) := by
  have hsend := Spends.new (R := R) (i := i)
    (l := { Link.sent i (R.succ i) (net.lookup o hashId) with upClosed := true }) s hd rfl rfl
    (net.decode_lookup o hashId) ((LinkedRing.answerable_lookup net o hashId).mpr hc)
  rw [LinkedRing.packetWork_lookup] at hsend
  have hhops : R.hops (R.succ i) hashId + 1 = R.hops i hashId := LinkedRing.hops_succ hc hi
  refine hsend.mono ?_
  have htarget : ({ Link.sent i (R.succ i) (net.lookup o hashId) with upClosed := true } :
      Link ι).target = R.succ i := rfl
  rw [htarget]
  omega

theorem reply_sent_spends (m o : ι) (hashId : UInt16) {d : ℕ} (hd : w.conns d = none)
    (s : PeerState) : Spends R 6 s w s
      (w.setConn d { Link.sent i o (net.reply m hashId) with upClosed := true }) := by
  have hsend := Spends.new (R := R) (i := i)
    (l := { Link.sent i o (net.reply m hashId) with upClosed := true }) s hd rfl rfl
    (net.decode_reply m hashId) (LinkedRing.answerable_reply net m hashId)
  rw [LinkedRing.packetWork_reply] at hsend
  exact hsend.mono (by norm_num)

theorem register_spends {r : ClientRequest} (hs : R.Wired i s)
    (hc : R.CoveredOnce (keyHash r.key)) (hown : ¬ R.Claims i (keyHash r.key))
    (hrun : (registerRequest csocket r.packet (keyHash r.key) >>= finish csocket).Until
      SysOp.Waits (linkCall net i) s w q s' w') :
    Spends R (3 * Fintype.card ι + 6) s w s' w' := by
  obtain ⟨a, s1, w1, he, hrun⟩ := (Prog.until_bind (neverWaits_registerRequest _ _ _)).mp hrun
  obtain ⟨rt', -, rfl, rfl, d, hd, rfl⟩ := registerRequest_links hs r.exact _ he
  obtain ⟨rfl, rfl, rfl⟩ := hrun
  have hsend := (lookup_sent_spends net hc hown i hd s).trans
    (.state s { s with rt := rt', succ := s.succ.closed } _)
  have hlt := LinkedRing.hops_lt hc i
  exact hsend.mono (by dsimp only; omega)

theorem handleLookup_spends {o : ι} (hs : R.Wired i s)
    (hc : R.CoveredOnce hashId) {a : Int}
    (he : (handleLookup (net.lookup o hashId)).Exec (linkCall net i) s w a s' w') :
    Spends R (3 * R.hops i hashId + 6) s w s' w' := by
  rw [handleLookup, readState, Prog.read_bind, Prog.exec_get] at he
  split at he
  · obtain ⟨rfl, rfl, d, hd, rfl⟩ := answerLookup_links hs.self hashId he
    exact (reply_sent_spends i o hashId hd s').mono (by omega)
  · next hself =>
    have hi : ¬ R.Claims i hashId := by
      rw [hs.pred.nodeId, hs.self.nodeId] at hself
      exact hself
    split at he
    · obtain ⟨rfl, rfl, d, hd, rfl⟩ := answerLookup_links hs.succ hashId he
      exact (reply_sent_spends _ o hashId hd s').mono (by omega)
    · rw [Prog.exec_bind] at he
      obtain ⟨x, s1, w1, hfwd, he⟩ := he
      obtain ⟨rfl, rfl, d, hd, rfl⟩ :=
        forward_ctrl_links (net.lookup_ctrl o hashId) (net.resolve_names hs.succ) hfwd
      obtain ⟨rfl, rfl, rfl⟩ := he
      exact ((lookup_sent_spends net hc hi o hd s1).trans
        (.state s1 { s1 with succ := s1.succ.closed } _)).mono (by dsimp only; omega)

theorem lookup_spends {o : ι} (hs : R.Wired i s) (hc : R.CoveredOnce hashId)
    (hfd : w.fds csocket = some (.down c)) (hl : w.conns c = some l)
    (hrun : (handleLookup (net.lookup o hashId) >>= finish csocket).Until SysOp.Waits
      (linkCall net i) s w q s' w') : Spends R (3 * R.hops i hashId + 6) s w s' w' := by
  obtain ⟨a, s1, w1, he, hfinish⟩ := (Prog.until_bind (neverWaits_handleLookup _)).mp hrun
  have hlookup := handleLookup_spends hs hc he
  obtain ⟨rfl, -, -, d, l1, hd, rfl, -⟩ := handleLookup_sends hs o hashId he
  have hcd : c ≠ d := fun hcd => by
    rw [hcd, hd] at hl
    cases hl
  have hl' : (w.setConn d l1).conns c = some l := by
    rw [Links.setConn_conns, Function.update_of_ne hcd, hl]
  exact (hlookup.trans (finish_spends (w := w.setConn d l1) hfd hl' hfinish)).mono (by omega)

/-- Sending off the first of the open requests. -/
theorem replyLoop_spends {rs : List Request} {m : ι}
    (hm : R.Claims m hashId) (hres : net.resolve n.hostname n.port = [net.address m])
    (hrs : ∀ req ∈ rs, ∃ r : ClientRequest, req.packet = r.packet ∧ keyHash r.key = hashId)
    (hctl : w.fds csocket = some (.down c)) (hl : w.conns c = some l)
    (hrun : (replyLoop csocket hashId rs n).Until SysOp.Waits (linkCall net i) s w q s' w') :
    Spends R 3 s w s' w' := by
  cases rs with
  | nil =>
    have hclear := Spends.state (R := R) s { s with rt := clearRequests s.rt hashId } w
    have hfinish := finish_spends (R := R) (s := { s with rt := clearRequests s.rt hashId }) hctl hl
      hrun
    exact (hclear.trans hfinish).mono (by dsimp only; omega)
  | cons req rest =>
    obtain ⟨r, hr, hkey⟩ := hrs req List.mem_cons_self
    rw [replyLoop_cons, hr] at hrun
    obtain ⟨fd, d, -, hfree, hd, rfl, rfl, rfl⟩ := relay_waits r.isData r.exact hres hrun
    exact request_spends (hkey ▸ hm) hd s'

/-- The answer is passed on to the client. -/
theorem passOn_spends {k : ℕ} {lk : Link ι} {r : ClientRequest} (hok : W.Ok net)
    (hconns : W.conns = w.conns) (hrole : W.role k = some (.relayed r c))
    (hl : w.conns c = some l) (hdone : l.downClosed = true) (hlk : w.conns k = some lk) (fd : Int)
    (s : PeerState) : Spends R (-4) s w s (((w.setConn c { l with upClosed := true }).setConn k
      { lk with down := lk.down ++ l.down }).setFd fd none) := by
  obtain ⟨l', hl', hck, hserved⟩ := hok.relayed hrole
  obtain rfl : l' = l := Option.some.inj (hl'.symm.trans ((congrFun hconns c).trans hl))
  obtain ⟨b, hserved⟩ := hserved hdone
  obtain ⟨hsource, -, -, hdown, -, hphase⟩ := hok.fit hserved hl'
  obtain ⟨hclient, -, -, hsilent, -⟩ := hok.fit hrole ((congrFun hconns k).trans hlk)
  obtain ⟨f, hf⟩ := AtomicObject.reachable_executed hok.obj hphase
  have hanswer : l'.down ≠ [] := by
    rw [hdown, hf]
    exact wire_ne_nil _
  have hlk' : (w.setConn c { l' with upClosed := true }).conns k = some lk := by
    rw [Links.setConn_conns, Function.update_of_ne hck.symm, hlk]
  have hpeer : ({ l' with upClosed := true } : Link ι).work R = l'.work R := by
    obtain ⟨a, ha⟩ := Option.ne_none_iff_exists'.mp hsource
    simp only [Link.work, Link.unread, ha]
  have hwork := Link.work_answered (R := R) hclient hsilent.down hanswer
  have htake := Spends.relink (R := R) s { l' with upClosed := true } hl (Or.inl rfl)
  have hgive := Spends.relink (R := R) s { lk with down := lk.down ++ l'.down } hlk' (Or.inl rfl)
  exact ((htake.trans hgive).trans (.setFd s _ fd none)).mono (by omega)

theorem data_spends {cl : Client} {r : ClientRequest} (h : Knows R i s W)
    (hfd : w.fds cl.socket = some (.down c)) (hl : w.conns c = some l)
    (hc : R.CoveredOnce (keyHash r.key))
    (hrun : (serverDeliverPacket cl.socket r.packet).Until SysOp.Waits (linkCall net i) s w q s' w') :
    Spends R (R.packetWork i r.packet - 1) s w s' w' := by
  have hs := h.wired
  have hroute := route_wired hs r.exact r.isData
  rw [LinkedRing.packetWork_request]
  by_cases hown : R.Claims i (keyHash r.key)
  · have hown' : R.Claims i (keyHash r.packet.key) := hown
    rw [if_pos hown'] at hroute
    obtain ⟨f, hf, -⟩ := h.store
    rw [if_pos hown]
    exact (own_spends hf hfd hl (deliver_runs hroute hrun)).mono (by norm_num)
  · have hown' : ¬ R.Claims i (keyHash r.packet.key) := hown
    rw [if_neg hown'] at hroute
    rw [if_neg hown]
    by_cases hnext : R.Claims (R.succ i) (keyHash r.packet.key)
    · rw [if_pos hnext] at hroute
      exact (proxy_spends hs hnext (deliver_runs hroute hrun)).mono (by push_cast; omega)
    · rw [if_neg hnext] at hroute
      exact (register_spends hs hc hown (deliver_runs hroute hrun)).mono (by push_cast; omega)

theorem deliver_spends {cl : Client} {p : Packet} (h : Current net i (getRequests s.rt) s w W)
    (hfd : w.fds cl.socket = some (.down c)) (hl : w.conns c = some l)
    (hp : packetDecode l.up l.up.length = .ok (some p))
    (hrun : (serverDeliverPacket cl.socket p).Until SysOp.Waits (linkCall net i) s
      (w.setConn c { l with up := [] }) q s' w') : Spends R (-1) s w s' w' := by
  intro horderly
  have hlW : W.conns c = some l := h.conns ▸ hl
  obtain ⟨l', hl', ht, -⟩ := h.serves.owned cl.socket c hfd
  obtain rfl : l' = l := Option.some.inj (hl'.symm.trans hlW)
  have hans := horderly.answerable c l' p hl (Link.unread_eq hp)
  have hread : Spends R (-R.packetWork i p) s w s (w.setConn c { l' with up := [] }) := by
    have hwork := Link.work_read (R := R) hp
    have hat : R.packetWork l'.target p = R.packetWork i p := by rw [ht]
    exact (Spends.relink s { l' with up := [] } hl (Or.inr rfl)).mono (by omega)
  have hread_fd : (w.setConn c { l' with up := [] }).fds cl.socket = some (.down c) := hfd
  have hread_l : (w.setConn c { l' with up := [] }).conns c = some { l' with up := [] } :=
    Function.update_self ..
  have hdone : Spends R (R.packetWork i p - 1) s (w.setConn c { l' with up := [] }) s' w' →
      w'.Orderly R ∧ (workAt R s' w' : ℤ) ≤ workAt R s w + -1 :=
    fun hhandled => ((hread.trans hhandled).mono (by omega)) horderly
  obtain ⟨r, -, rfl⟩ | ⟨r, k, -, rfl⟩ | ⟨-, hcontrol⟩ := h.ok.readable hlW hp
  · exact hdone (data_spends h.knows hread_fd hread_l ((LinkedRing.answerable_request r).mp hans) hrun)
  · exact hdone (data_spends h.knows hread_fd hread_l ((LinkedRing.answerable_request r).mp hans) hrun)
  · refine hdone ?_
    cases hcontrol with
    | lookup o hashId =>
      have hcovered := (LinkedRing.answerable_lookup net o hashId).mp hans
      have hrun' := deliver_runs (route_lookup net s o hashId) hrun
      rw [LinkedRing.packetWork_lookup]
      exact (lookup_spends h.knows.wired hcovered hread_fd hread_l hrun').mono (by push_cast; omega)
    | reply m hashId hm =>
      have hreply := deliver_runs (route_reply net s m hashId) hrun
      rw [handleReply_eq, Prog.until_get] at hreply
      rw [LinkedRing.packetWork_reply]
      exact (replyLoop_spends hm (net.resolve_literal m) (fun req hreq => by
        obtain ⟨k, r, -, -, hr, hkey⟩ := h.serves.waiting hashId req hreq
        exact ⟨r, hr, hkey⟩) hread_fd hread_l hreply).mono (by norm_num)

omit [Fintype ι] in
theorem Links.setConn_some {e : ℕ} (h : ∃ l, w.conns e = some l) (c : ℕ) (l : Link ι) :
    ∃ l', (w.setConn c l).conns e = some l' := by
  by_cases hec : e = c
  · exact ⟨l, by rw [hec]; exact Function.update_self ..⟩
  · obtain ⟨l', hl'⟩ := h
    exact ⟨l', (Function.update_of_ne hec ..).trans hl'⟩

theorem resume_spends {p : PeerM Unit} {queue : UInt16 → List Request}
    (hat : At net i s w.fds W p queue) (h : Current net i queue s w W)
    (hrun : p.Resumes SysOp.Waits (linkCall net i) s w q s' w') : Spends R (-1) s w s' w' := by
  have howned : ∀ fd c, w.fds fd = some (.down c) → ∃ l, w.conns c = some l := by
    intro fd c hfd
    obtain ⟨l, hl, -⟩ := h.serves.owned fd c hfd
    exact ⟨l, h.conns ▸ hl⟩
  cases hat with
  | idle => exact hrun.elim
  | @proxying csocket n c k r hup hdown hrole hn =>
    obtain ⟨l, hl, hck, -⟩ := h.ok.relayed hrole
    obtain ⟨lk, hlk⟩ := howned csocket k hdown
    have hl' : w.conns c = some l := h.conns ▸ hl
    obtain ⟨hdone, hrun⟩ := relay_resumes hup hl' hdown hlk hck hrun
    have hpass := passOn_spends (R := R) h.ok h.conns hrole hl' hdone hlk n.socket s
    have hsucc := Spends.state (R := R) s { s with succ := n.closed } (((w.setConn c
      { l with upClosed := true }).setConn k { lk with down := lk.down ++ l.down }).setFd n.socket none)
    have hfinish := finish_spends (R := R) (s := { s with succ := n.closed })
      ((update_none_down hup _ _).mpr hdown) (Function.update_self ..) hrun
    exact ((hpass.trans hsucc).trans hfinish).mono (by dsimp only; omega)
  | @replying csocket hashId req rest n c k e r m hup hdown hrole htarget hres hm hctl hspent =>
    obtain ⟨l, hl, hck, -⟩ := h.ok.relayed hrole
    obtain ⟨lk, hlk⟩ := howned req.socket k hdown
    have hl' : w.conns c = some l := h.conns ▸ hl
    obtain ⟨hdone, hrun⟩ := relay_resumes hup hl' hdown hlk hck hrun
    have hpass := passOn_spends (R := R) h.ok h.conns hrole hl' hdone hlk n.socket s
    have hmark := Spends.state (R := R) s { s with srv := serverCloseSocket s.srv req.socket }
      (((w.setConn c { l with upClosed := true }).setConn k
        { lk with down := lk.down ++ l.down }).setFd n.socket none)
    have hlen : (serverCloseSocket s.srv req.socket).clients.length = s.srv.clients.length := by
      have hsockets := congrArg List.length (markSocket_sockets s.srv.clients req.socket)
      rwa [List.length_map, List.length_map] at hsockets
    obtain ⟨le', hle'⟩ := Links.setConn_some (Links.setConn_some (howned csocket e hctl) c
      { l with upClosed := true }) k { lk with down := lk.down ++ l.down }
    have hloop := replyLoop_spends (R := R) (n := n.closed)
      (s := { s with srv := serverCloseSocket s.srv req.socket })
      (w := ((w.setConn c { l with upClosed := true }).setConn k
        { lk with down := lk.down ++ l.down }).setFd n.socket none) hm hres (fun req' hreq' => by
        obtain ⟨k', r', -, -, hr, hkey⟩ := h.serves.waiting hashId req'
          (by rwa [Function.update_self])
        exact ⟨r', hr, hkey⟩) ((update_none_down hup _ _).mpr hctl) hle' hrun
    exact ((hpass.trans hmark).trans hloop).mono (by dsimp only; omega)

theorem removeMarked_spends {cs : List Client}
    (hcs : ∀ cl ∈ cs, cl ∈ s.srv.clients ∧
      ∃ c l, w.fds cl.socket = some (.down c) ∧ w.conns c = some l)
    (hd : (cs.map Client.socket).Nodup)
    (he : (removeMarked cs).Exec (linkCall net i) s w () s' w') :
    Spends R 0 s w s' w' ∧ ((∃ cl ∈ cs, cl.state = .remove) → Spends R (-1) s w s' w') := by
  induction cs generalizing s w with
  | nil =>
    obtain ⟨-, rfl, rfl⟩ := he
    refine ⟨.refl s' w', ?_⟩
    rintro ⟨cl, hcl, -⟩
    exact absurd hcl List.not_mem_nil
  | cons cl next ih =>
    rw [List.map_cons, List.nodup_cons] at hd
    have hnext := fun cl' hcl' => hcs cl' (List.mem_cons_of_mem _ hcl')
    rw [removeMarked] at he
    split at he
    · obtain ⟨_, s1, w1, hremove, he⟩ := Prog.exec_bind.mp he
      obtain ⟨hcl, c, l, hfd, hl⟩ := hcs cl List.mem_cons_self
      have hone := (remove_spends (R := R) hfd hl hremove).2 ⟨cl, hcl, rfl⟩
      have hrest := ih (s := s1) (w := w1) (fun cl' hcl' => by
        obtain ⟨hcl1, c', l', hfd', hl'⟩ := hnext cl' hcl'
        have hne : cl'.socket ≠ cl.socket := fun hs => hd.1 (hs ▸ List.mem_map_of_mem hcl')
        obtain ⟨rfl, rfl⟩ | ⟨-, rfl, rfl⟩ := serverRemoveClient_cases hfd hl hremove
        · obtain ⟨l1, hl1⟩ := Links.setConn_some ⟨l', hl'⟩ c { l with downClosed := true }
          exact ⟨(List.mem_eraseP_of_neg (by simpa using hne)).mpr hcl1, c', l1,
            (Function.update_of_ne hne ..).trans hfd', hl1⟩
        · exact ⟨hcl1, c', l', hfd', hl'⟩) hd.2 he
      exact ⟨(hone.trans hrest.1).mono (by norm_num), fun _ => hone.trans hrest.1⟩
    · next hkeep =>
      obtain ⟨hall, hmarked⟩ := ih hnext hd.2 he
      refine ⟨hall, ?_⟩
      rintro ⟨cl', hcl', hstate⟩
      obtain rfl | hcl' := List.mem_cons.mp hcl'
      · exact absurd hstate hkeep
      · exact hmarked ⟨cl', hcl', hstate⟩

theorem sweep_spends (h : Current net i (getRequests s.rt) s w W)
    (he : serverSweep.Exec (linkCall net i) s w () s' w') : Spends R 0 s w s' w' ∧
      ((∃ cl ∈ s.srv.clients, cl.state = .remove) → Spends R (-1) s w s' w') := by
  rw [serverSweep, readState, Prog.read_bind, Prog.exec_get] at he
  refine removeMarked_spends (fun cl hcl => ⟨hcl, ?_⟩) h.serves.distinct he
  obtain ⟨c, hfd⟩ := h.serves.opened cl hcl
  obtain ⟨l, hl, -⟩ := h.serves.owned _ c hfd
  exact ⟨c, l, hfd, h.conns ▸ hl⟩

theorem accept_spends {fd : Int} (hl : w.conns c = some l) (hnew : l.accepted = false)
    (he : (serverAddClient fd).Exec (linkCall net i) s
      ((w.setConn c { l with accepted := true }).setFd fd (some (.down c))) () s' w') :
    Spends R (-1) s w s' w' := by
  obtain ⟨rfl, rfl⟩ := Prog.exec_modify.mp he
  have hwork : ({ l with accepted := true } : Link ι).work R + 2 = l.work R := by
    simp only [Link.work, Link.unread, hnew, if_true, Bool.false_eq_true, if_false]
    omega
  have haccept := Spends.relink (R := R) s { l with accepted := true } hl (Or.inl rfl)
  have hclient := Spends.state (R := R) s { s with srv := { s.srv with
    clients := newClient fd :: s.srv.clients, nClients := s.srv.nClients + 1 } }
    ((w.setConn c { l with accepted := true }).setFd fd (some (.down c)))
  exact ((haccept.trans (.setFd s _ fd (some (.down c)))).trans hclient).mono
    (by dsimp only; rw [List.length_cons]; push_cast; omega)

end

end RN2223.Praxis2

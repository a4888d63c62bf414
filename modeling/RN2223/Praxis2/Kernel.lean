import Mathlib.Data.List.Forall2
import Mathlib.Logic.Function.Basic
import RN2223.Praxis2.Peer

/-!
# The socket numbers of one process

What the operating system keeps for a peer: which numbers are open and what is
behind them. Any call may fail, a new socket gets any number that is free, and
the log has what was sent and received.
-/

namespace RN2223.Praxis2
open CMemory

/-- What is behind an open number: a standard stream, the listening socket, a
connection the peer opened, or the connection of a client. -/
inductive Endpoint where
  | std
  | listener
  | outgoing (connected : Bool)
  | client (conn : ℕ)
  deriving DecidableEq, Repr

inductive IoEvent where
  | sent (target : Option Endpoint) (bytes : Bytes)
  | got (bytes : Bytes)
  deriving DecidableEq, Repr

def IoEvent.toClient : IoEvent → Option (ℕ × Bytes)
  | .sent (some (.client conn)) bytes => some (conn, bytes)
  | _ => none

structure Kernel where
  fds : Int → Option Endpoint
  log : List IoEvent

namespace Kernel

def setFd (w : Kernel) (fd : Int) (e : Option Endpoint) : Kernel :=
  { w with fds := Function.update w.fds fd e }

def logged (w : Kernel) (es : List IoEvent) : Kernel := { w with log := w.log ++ es }

@[simp] theorem setFd_log (w : Kernel) (fd : Int) (e : Option Endpoint) :
    (w.setFd fd e).log = w.log := rfl

@[simp] theorem logged_fds (w : Kernel) (es : List IoEvent) : (w.logged es).fds = w.fds := rfl

@[simp] theorem logged_log (w : Kernel) (es : List IoEvent) :
    (w.logged es).log = w.log ++ es := rfl

@[simp] theorem setFd_self (w : Kernel) (fd : Int) (e : Option Endpoint) :
    (w.setFd fd e).fds fd = e := by
  simp [setFd]

theorem setFd_ne (w : Kernel) {fd x : Int} (h : x ≠ fd) (e : Option Endpoint) :
    (w.setFd fd e).fds x = w.fds x := by
  simp [setFd, h]

end Kernel

/-- The calls of a peer. `recv` on anything but a connection never ends the loop
of `recvall`. -/
def kernel (w : Kernel) : (o : SysOp) → SysRes o → Kernel → Prop
  | .getaddrinfo _ _, _, w' => w' = w
  | .socket, r, w' => (r = -1 ∧ w' = w) ∨
      (0 ≤ r ∧ w.fds r = none ∧ w' = w.setFd r (some (.outgoing false)))
  | .connect fd _, r, w' => (r = -1 ∧ w' = w) ∨
      (r = 0 ∧ w.fds fd = some (.outgoing false) ∧ w' = w.setFd fd (some (.outgoing true)))
  | .send fd buffer, _, w' => w' = w.logged [.sent (w.fds fd) buffer]
  | .recv fd, r, w' => (w.fds fd = some (.outgoing true) ∨ ∃ k, w.fds fd = some (.client k)) ∧
      w' = w.logged [.got r]
  | .close fd, _, w' => w' = w.setFd fd none
  | .crash _, _, _ => False

/-! ### Opening sockets -/

/-- Every open number stays what it is, and new ones are the peer's own. -/
structure Kernel.Opens (w w' : Kernel) : Prop where
  kept : ∀ fd e, w.fds fd = some e → w'.fds fd = some e
  fresh : ∀ fd e, w'.fds fd = some e → w.fds fd = some e ∨ ∃ b, e = .outgoing b
  minusOne : w.fds (-1) = none → w'.fds (-1) = none

/-- A number the peer opened since, or the one that stands for no socket. -/
def Kernel.Fresh (w w' : Kernel) (fd : Int) : Prop :=
  fd = -1 ∨ (w.fds fd = none ∧ ∃ b, w'.fds fd = some (.outgoing b))

theorem opens_refl (w : Kernel) : w.Opens w := ⟨fun _ _ h => h, fun _ _ h => Or.inl h, id⟩

theorem opens_trans {w w1 w2 : Kernel} (h : w.Opens w1) (h' : w1.Opens w2) : w.Opens w2 := by
  refine ⟨fun fd e he => h'.kept fd e (h.kept fd e he), fun fd e he => ?_,
    fun hm => h'.minusOne (h.minusOne hm)⟩
  rcases h'.fresh fd e he with h1 | hb
  · exact h.fresh fd e h1
  · exact Or.inr hb

theorem opens_logged {w w' : Kernel} (h : w.Opens w') (es : List IoEvent) : w.Opens (w'.logged es) :=
  ⟨h.kept, h.fresh, h.minusOne⟩

theorem opens_setFd {w w1 : Kernel} (h : w.Opens w1) {fd : Int} (hfree : w.fds fd = none)
    {e : Option Endpoint} (he : e = none ∨ (0 ≤ fd ∧ ∃ b, e = some (.outgoing b))) :
    w.Opens (w1.setFd fd e) := by
  refine ⟨fun x e' hx => ?_, fun x e' hx => ?_, fun hm => ?_⟩
  · have hne : x ≠ fd := fun hxe => by
      rw [hxe, hfree] at hx
      cases hx
    rw [Kernel.setFd_ne w1 hne]
    exact h.kept x e' hx
  · by_cases hxe : x = fd
    · rw [hxe, Kernel.setFd_self] at hx
      rcases he with rfl | ⟨-, b, rfl⟩
      · cases hx
      · cases hx
        exact Or.inr ⟨b, rfl⟩
    · rw [Kernel.setFd_ne w1 hxe] at hx
      exact h.fresh x e' hx
  · by_cases hxe : (-1 : Int) = fd
    · rw [hxe, Kernel.setFd_self]
      rcases he with rfl | ⟨hpos, -⟩
      · rfl
      · omega
    · rw [Kernel.setFd_ne w1 hxe]
      exact h.minusOne hm

theorem fresh_of_opens {w w1 w2 : Kernel} (h : w.Opens w1) {fd : Int} (hf : w1.Fresh w2 fd) :
    w.Fresh w2 fd := by
  rcases hf with rfl | ⟨hnone, hb⟩
  · exact Or.inl rfl
  · refine Or.inr ⟨?_, hb⟩
    cases hw : w.fds fd with
    | none => rfl
    | some e =>
      rw [h.kept fd e hw] at hnone
      cases hnone

theorem opens_close {w w' : Kernel} (h : w.Opens w') (hm : w.fds (-1) = none) {fd : Int}
    (hf : w.Fresh w' fd) : w.Opens (w'.setFd fd none) := by
  refine opens_setFd h ?_ (Or.inl rfl)
  rcases hf with rfl | ⟨hnone, -⟩
  · exact hm
  · exact hnone

section
variable {s s' : PeerState} {w w' : Kernel}

/-- Each round of the loop leaves one more socket open, the last of them in the
record. -/
theorem peerConnectLoop_kernel (pas : List SockAddr) (res : SockAddr) (p : Peer) (c : Bool)
    {a : Bool × Peer}
    (he : (peerConnectLoop pas res p c : PeerM _).Exec kernel s w a s' w') :
    s' = s ∧ w'.log = w.log ∧ w.Opens w' ∧
      (w.Fresh w' a.2.socket ∨ (pas = [] ∧ a = (c, p) ∧ w' = w)) := by
  induction pas generalizing res p c w with
  | nil =>
    obtain ⟨rfl, rfl, rfl⟩ := he
    exact ⟨rfl, rfl, opens_refl _, Or.inr ⟨rfl, rfl, rfl⟩⟩
  | cons pa pas ih =>
    have hround : ∀ (res : SockAddr) (p : Peer) (c : Bool) (w1 : Kernel), w.Opens w1 →
        w.Fresh w1 p.socket → w1.log = w.log →
        (peerConnectLoop pas res p c : PeerM _).Exec kernel s w1 a s' w' →
        s' = s ∧ w'.log = w.log ∧ w.Opens w' ∧ w.Fresh w' a.2.socket := by
      intro res p c w1 hopens hfresh hlog he
      obtain ⟨hs, hlog', hopens', hlast⟩ := ih res p c he
      refine ⟨hs, hlog'.trans hlog, opens_trans hopens hopens', ?_⟩
      rcases hlast with hlast | ⟨-, rfl, rfl⟩
      · exact fresh_of_opens hopens hlast
      · exact hfresh
    suffices h : s' = s ∧ w'.log = w.log ∧ w.Opens w' ∧ w.Fresh w' a.2.socket from
      ⟨h.1, h.2.1, h.2.2.1, Or.inl h.2.2.2⟩
    rw [peerConnectLoop, Prog.exec_bind] at he
    obtain ⟨fd, _, w1, ⟨_, _, hsock, rfl, rfl, rfl⟩, he⟩ := he
    rcases hsock with ⟨rfl, rfl⟩ | ⟨hpos, hfree, rfl⟩
    · simp only [show (-1 : Int) < 0 by decide, if_true] at he
      exact hround _ _ _ _ (opens_refl _) (Or.inl rfl) rfl he
    · have hnew : w.Opens (w.setFd fd (some (.outgoing false))) :=
        opens_setFd (opens_refl w) hfree (Or.inr ⟨hpos, false, rfl⟩)
      rw [if_neg (Int.not_lt.mpr hpos), Prog.exec_bind] at he
      obtain ⟨status, _, w2, ⟨_, _, hconn, rfl, rfl, rfl⟩, he⟩ := he
      rcases hconn with ⟨rfl, rfl⟩ | ⟨rfl, -, rfl⟩
      · simp only [show (-1 : Int) < 0 by decide, if_true] at he
        exact hround _ _ _ _ hnew (Or.inr ⟨hfree, false, Kernel.setFd_self _ _ _⟩) rfl he
      · simp only [Int.lt_irrefl, if_false] at he
        exact hround _ _ _ _ (opens_setFd hnew hfree (Or.inr ⟨hpos, true, rfl⟩))
          (Or.inr ⟨hfree, true, Kernel.setFd_self _ _ _⟩) rfl he

theorem peerGetIp_kernel {n : Peer} {a : UInt32}
    (he : (peerGetIp n : PeerM _).Exec kernel s w a s' w') : s' = s ∧ w' = w := by
  rw [peerGetIp, Prog.exec_bind] at he
  obtain ⟨res, _, _, ⟨_, _, rfl, rfl, rfl, rfl⟩, he⟩ := he
  cases res with
  | nil => exact ⟨he.2.1, he.2.2⟩
  | cons r rest => exact ⟨he.2.1, he.2.2⟩

theorem peerConnect_kernel {n : Peer} {a : Int × Peer}
    (he : (peerConnect n : PeerM _).Exec kernel s w a s' w') :
    s' = s ∧ w'.log = w.log ∧ w.Opens w' ∧
      (w.Fresh w' a.2.socket ∨ (a = (-1, n) ∧ w' = w)) := by
  rw [peerConnect, Prog.exec_bind] at he
  obtain ⟨res, _, _, ⟨_, _, rfl, rfl, rfl, rfl⟩, he⟩ := he
  cases res with
  | nil =>
    obtain ⟨rfl, rfl, rfl⟩ := he
    exact ⟨rfl, rfl, opens_refl _, Or.inr ⟨rfl, rfl⟩⟩
  | cons r rest =>
    obtain ⟨⟨c, n'⟩, s1, w1, hloop, rfl, rfl, rfl⟩ := Prog.exec_bind.mp he
    obtain ⟨hs, hlog, hopens, hlast⟩ := peerConnectLoop_kernel _ _ _ _ hloop
    refine ⟨hs, hlog, hopens, ?_⟩
    rcases hlast with hlast | ⟨hnil, -⟩
    · exact Or.inl hlast
    · cases hnil

/-! ### Talking to another peer -/

def SentOnly (pack : Packet) (es : List IoEvent) : Prop :=
  ∀ e ∈ es, ∃ target b, packetSerialize pack = .ok b ∧ e = .sent target b ∧
    ∀ k, target ≠ some (.client k)

theorem sentOnly_nil (pack : Packet) : SentOnly pack [] := fun _ he => absurd he List.not_mem_nil

theorem fresh_not_client {w w' : Kernel} (h : w.Opens w') (hm : w.fds (-1) = none) {fd : Int}
    (hf : w.Fresh w' fd) (k : ℕ) : w'.fds fd ≠ some (.client k) := by
  intro hk
  rcases hf with rfl | ⟨-, b, hb⟩
  · rw [h.minusOne hm] at hk
    cases hk
  · rw [hb] at hk
    cases hk

/-- Where `forward` leaves the record it was given: it has a new number, or none,
or no address was found for it. -/
theorem forward_kernel {n : Peer} {pack : Packet} (hm : w.fds (-1) = none) {a : Int × Peer}
    (he : (forward n pack).Exec kernel s w a s' w') :
    s' = s ∧ w.Opens w' ∧ (∃ pre, SentOnly pack pre ∧ w'.log = w.log ++ pre) ∧
      (w.Fresh w' a.2.socket ∨ a.2.socket = n.socket) := by
  rw [forward] at he
  cases hser : packetSerialize pack with
  | error f =>
    rw [hser] at he
    obtain ⟨_, _, hcrash, -⟩ := he
    exact hcrash.elim
  | ok b =>
    rw [hser, eval_ok, Prog.ret_bind, Prog.exec_bind] at he
    obtain ⟨⟨status, n1⟩, s1, w1, hconn, he⟩ := he
    obtain ⟨rfl, hlog, hopens, hlast⟩ := peerConnect_kernel hconn
    dsimp only at he hlast
    by_cases hst : status < 0
    · rw [if_pos hst] at he
      obtain ⟨rfl, rfl, rfl⟩ := he
      refine ⟨rfl, hopens, ⟨[], sentOnly_nil pack, by simpa using hlog⟩, ?_⟩
      rcases hlast with hlast | ⟨hn, -⟩
      · exact Or.inl hlast
      · exact Or.inr (congrArg Peer.socket (congrArg Prod.snd hn))
    · rw [if_neg hst] at he
      have hfresh : w.Fresh w1 n1.socket := by
        rcases hlast with hlast | ⟨hn, -⟩
        · exact hlast
        · rw [Prod.mk.injEq] at hn
          exact absurd (by rw [hn.1]; decide) hst
      rw [Prog.exec_bind] at he
      obtain ⟨sent, s2, w2, ⟨_, _, rfl, rfl, rfl, rfl⟩, he⟩ := he
      have hpre : SentOnly pack [.sent (w1.fds n1.socket) b] := by
        intro e hmem
        exact ⟨_, b, hser, List.mem_singleton.mp hmem, fresh_not_client hopens hm hfresh⟩
      have hopens' := opens_logged hopens [.sent (w1.fds n1.socket) b]
      by_cases hsent : sent < 0
      · rw [if_pos hsent] at he
        obtain ⟨rfl, rfl, rfl⟩ := he
        exact ⟨rfl, hopens', ⟨_, hpre, by rw [Kernel.logged_log, hlog]⟩, Or.inl hfresh⟩
      · rw [if_neg hsent] at he
        by_cases hctrl : flagSet pack.flags pktFlagCtrl
        · rw [if_pos hctrl, Prog.exec_bind] at he
          obtain ⟨n2, s3, w3, hdis, rfl, rfl, rfl⟩ := he
          obtain ⟨_, _, rfl, rfl, rfl, rfl⟩ := hdis
          refine ⟨rfl, opens_close hopens' hm hfresh, ⟨_, hpre, ?_⟩, Or.inl (Or.inl rfl)⟩
          rw [Kernel.setFd_log, Kernel.logged_log, hlog]
        · rw [if_neg hctrl] at he
          obtain ⟨rfl, rfl, rfl⟩ := he
          exact ⟨rfl, hopens', ⟨_, hpre, by rw [Kernel.logged_log, hlog]⟩, Or.inl hfresh⟩

/-- The open numbers after a connection through `fd` was used up: `fd` may be
gone, every other one is still what it was. -/
structure Kernel.Uses (w w' : Kernel) (fd : Int) : Prop where
  kept : ∀ x e, w.fds x = some e → (x = fd ∧ e = .outgoing true) ∨ w'.fds x = some e
  fresh : ∀ x e, w'.fds x = some e → w.fds x = some e ∨ ∃ b, e = .outgoing b
  minusOne : w.fds (-1) = none → w'.fds (-1) = none

theorem opens_of_uses {fd : Int} (h : w.Uses w' fd) (hfd : w.fds fd ≠ some (.outgoing true)) :
    w.Opens w' := by
  refine ⟨fun x e hx => ?_, h.fresh, h.minusOne⟩
  rcases h.kept x e hx with ⟨rfl, rfl⟩ | hx'
  · exact absurd hx hfd
  · exact hx'

/-- The events of one proxied request: the packet goes out, one answer comes
back, and that answer is written to `target`. -/
def Proxied (p : Packet) (target : Option Endpoint) (es : List IoEvent) : Prop :=
  ∃ pre answer, SentOnly p pre ∧ es = pre ++ [.got answer, .sent target answer]

theorem proxyRequest_kernel {n : Peer} {p : Packet} {csocket : Int} (hm : w.fds (-1) = none)
    (hn : ∀ k, w.fds n.socket ≠ some (.client k)) {a : Int × Peer}
    (he : (proxyRequest csocket p n).Exec kernel s w a s' w') :
    s' = s ∧ w.Uses w' n.socket ∧ a.1 = cbRemoveClient ∧ a.2.socket = -1 ∧
      ∃ target es, Proxied p target es ∧ w'.log = w.log ++ es ∧
        ∀ k, w.fds csocket = some (.client k) → target = some (.client k) := by
  rw [proxyRequest, Prog.exec_bind] at he
  obtain ⟨⟨status, n1⟩, s1, w1, hfwd, he⟩ := he
  obtain ⟨rfl, hopens, ⟨pre, hpre, hlog⟩, hlast⟩ := forward_kernel hm hfwd
  obtain ⟨answer, _, _, ⟨_, _, ⟨hrecv, rfl⟩, _, _, rfl, rfl, rfl, rfl⟩, he⟩ := Prog.exec_bind.mp he
  obtain ⟨sent, _, _, ⟨_, _, rfl, rfl, rfl, rfl⟩, _, _, rfl, rfl, rfl, rfl⟩ :=
    Prog.exec_bind.mp he
  dsimp only at hrecv hlast ⊢
  -- what is read from is a connection the peer opened
  have hfd : w1.fds n1.socket = some (.outgoing true) := by
    rcases hrecv with hfd | ⟨k, hk⟩
    · exact hfd
    · exfalso
      rcases hlast with hfresh | hsame
      · exact fresh_not_client hopens hm hfresh k hk
      · rw [hsame] at hk
        rcases hopens.fresh _ _ hk with hk' | ⟨b, hb⟩
        · exact hn k hk'
        · cases hb
  refine ⟨rfl, ⟨fun x e hx => ?_, fun x e hx => ?_, fun _ => ?_⟩, rfl, rfl,
    ((w1.logged [.got answer]).setFd n1.socket none).fds csocket, _,
    ⟨pre, answer, hpre, rfl⟩, ?_, fun k hk => ?_⟩
  · by_cases hxfd : x = n1.socket
    · subst hxfd
      rcases hlast with (hneg | ⟨hnone, -⟩) | hsame
      · rw [hneg, hm] at hx
        cases hx
      · rw [hnone] at hx
        cases hx
      · refine Or.inl ⟨hsame, ?_⟩
        rw [hopens.kept _ _ hx] at hfd
        exact Option.some.inj hfd
    · refine Or.inr ?_
      rw [Kernel.setFd_ne _ hxfd, Kernel.logged_fds, Kernel.setFd_ne _ hxfd, Kernel.logged_fds]
      exact hopens.kept x e hx
  · by_cases hxfd : x = n1.socket
    · subst hxfd
      rw [Kernel.setFd_self] at hx
      cases hx
    · rw [Kernel.setFd_ne _ hxfd, Kernel.logged_fds, Kernel.setFd_ne _ hxfd, Kernel.logged_fds] at hx
      exact hopens.fresh x e hx
  · have hne : (-1 : Int) ≠ n1.socket := fun h => by
      rw [← h, hopens.minusOne hm] at hfd
      cases hfd
    rw [Kernel.setFd_ne _ hne, Kernel.logged_fds, Kernel.setFd_ne _ hne, Kernel.logged_fds]
    exact hopens.minusOne hm
  · simp only [Kernel.setFd_log, Kernel.logged_log, hlog, List.append_assoc, List.cons_append,
      List.nil_append]
  · have hk1 := hopens.kept _ _ hk
    have hne : csocket ≠ n1.socket := fun h => by
      rw [h, hfd] at hk1
      cases hk1
    rw [Kernel.setFd_ne _ hne, Kernel.logged_fds]
    exact hk1

/-! ### Proxying the open requests -/

def Kernel.Issued (w : Kernel) (r : Request) (q : ℕ × Packet) : Prop :=
  r.packet = q.2 ∧ w.fds r.socket = some (.client q.1)

/-- One request after the other is proxied for its own connection. -/
inductive Relayed : List (ℕ × Packet) → List IoEvent → Prop where
  | nil : Relayed [] []
  | cons {k : ℕ} {p : Packet} {q : List (ℕ × Packet)} {es es' : List IoEvent}
    (h : Proxied p (some (.client k)) es) (hrest : Relayed q es') :
    Relayed ((k, p) :: q) (es ++ es')

theorem issued_opens (h : w.Opens w') {r : Request} {q : ℕ × Packet} (hq : w.Issued r q) :
    w'.Issued r q :=
  ⟨hq.1, h.kept _ _ hq.2⟩

def markAll (srv : Server) (rs : List Request) : Server :=
  rs.foldl (fun srv r => serverCloseSocket srv r.socket) srv

theorem proxyOpenRequests_kernel {rs : List Request} {q : List (ℕ × Packet)} {n : Peer}
    (hq : List.Forall₂ w.Issued rs q) (hm : w.fds (-1) = none)
    (hn : n.socket = -1 ∨ w.fds n.socket = some .std) {a : Peer}
    (he : (proxyOpenRequests rs n).Exec kernel s w a s' w') :
    s' = { s with srv := markAll s.srv rs } ∧ w.Opens w' ∧
      ∃ es, Relayed q es ∧ w'.log = w.log ++ es := by
  induction rs generalizing q n s w with
  | nil =>
    cases hq
    obtain ⟨-, rfl, rfl⟩ := he
    exact ⟨rfl, opens_refl _, [], .nil, (List.append_nil _).symm⟩
  | cons r rs ih =>
    obtain ⟨q, qs, hr, hrest, rfl⟩ := List.forall₂_cons_left_iff.mp hq
    have hnot : ∀ e, w.fds n.socket = some e → e = .std := by
      intro e hfd
      rcases hn with hneg | hstd
      · rw [hneg, hm] at hfd
        cases hfd
      · exact Option.some.inj (hfd.symm.trans hstd)
    rw [proxyOpenRequests, Prog.exec_bind] at he
    obtain ⟨⟨status, n1⟩, s1, w1, hproxy, he⟩ := he
    obtain ⟨rfl, huses, -, hclosed, target, es, hes, hlog, htarget⟩ := proxyRequest_kernel hm
      (fun k hk => nomatch hnot _ hk) hproxy
    have hopens := opens_of_uses huses fun hk => nomatch hnot _ hk
    obtain ⟨hs, hopens', es', hes', hlog'⟩ := ih
      (hrest.imp fun _ _ h => issued_opens hopens h) (hopens.minusOne hm) (Or.inl hclosed) he
    refine ⟨hs, opens_trans hopens hopens', es ++ es', ?_, ?_⟩
    · have hproxied : Proxied q.2 (some (.client q.1)) es := by
        rw [← hr.1, ← htarget _ hr.2]
        exact hes
      exact .cons hproxied hes'
    · rw [hlog', hlog, List.append_assoc]

/-! ### The handlers -/

/-- The open numbers and the record of the successor after a handler. -/
structure HandlerFrame (s s' : PeerState) (w w' : Kernel) : Prop where
  uses : w.Uses w' s.succ.socket
  succ : w.Fresh w' s'.succ.socket ∨ (s'.succ.socket = s.succ.socket ∧ w.Opens w')

theorem uses_of_opens (h : w.Opens w') (fd : Int) : w.Uses w' fd :=
  ⟨fun x e hx => Or.inr (h.kept x e hx), h.fresh, h.minusOne⟩

theorem frame_of_opens (h : w.Opens w')
    (hsucc : w.Fresh w' s'.succ.socket ∨ s'.succ.socket = s.succ.socket) :
    HandlerFrame s s' w w' :=
  ⟨uses_of_opens h _, hsucc.imp_right fun he => ⟨he, h⟩⟩

theorem sentOnly_noClient {p : Packet} {es : List IoEvent} (h : SentOnly p es) :
    ∀ e ∈ es, e.toClient = none := by
  intro e he
  obtain ⟨target, b, -, rfl, hnot⟩ := h e he
  unfold IoEvent.toClient
  split
  · next conn bytes heq =>
    rw [IoEvent.sent.injEq] at heq
    exact absurd heq.1 (hnot conn)
  · rfl

/-- What a handler sends to clients: the answer to the connection the packet
came from, the answers to the connections that wait for them, or nothing. -/
def Route.Sends (issuers : UInt16 → List (ℕ × Packet)) (conn : ℕ) (p : Packet) :
    Route → List IoEvent → Prop
  | .own, es => ∃ b, es = [.sent (some (.client conn)) b]
  | .proxy, es => Proxied p (some (.client conn)) es
  | .reply, es => Relayed (issuers p.hashId) es
  | _, es => ∀ e ∈ es, e.toClient = none

/-- What a handler does to the request table and the client list, and its result. -/
def Route.Tables (csocket : Int) (p : Packet) (s s' : PeerState) (a : Int) : Route → Prop
  | .register hashId => addRequest s.rt hashId csocket p = .ok s'.rt ∧ s'.srv = s.srv ∧ a = cbOk
  | .reply => s'.rt = clearRequests s.rt p.hashId ∧
      s'.srv = markAll s.srv (getRequests s.rt p.hashId) ∧ a = cbRemoveClient
  | _ => s'.rt = s.rt ∧ s'.srv = s.srv ∧ a = cbRemoveClient

theorem handleOwnRequest_kernel {csocket : Int} {p : Packet} {a : Int}
    (he : (handleOwnRequest csocket p).Exec kernel s w a s' w') :
    ∃ ht b, s' = { s with ht := ht } ∧ w' = w.logged [.sent (w.fds csocket) b] ∧
      a = cbRemoveClient := by
  rw [handleOwnRequest, readState, Prog.read_bind, Prog.exec_get] at he
  cases hexec : executeRequest s.ht p with
  | error f =>
    rw [hexec] at he
    obtain ⟨_, _, hcrash, -⟩ := he
    exact hcrash.elim
  | ok res =>
    rw [hexec] at he
    cases hser : packetSerialize res.2 with
    | error f =>
      simp only [eval_ok, Prog.ret_bind, hser] at he
      obtain ⟨_, _, hcrash, -⟩ := he
      exact hcrash.elim
    | ok b =>
      simp only [eval_ok, Prog.ret_bind, hser] at he
      obtain ⟨_, _, rfl, rfl, rfl, rfl⟩ := he
      exact ⟨_, b, rfl, rfl, rfl⟩

theorem lookupPeer_kernel {hashId : UInt16} (hm : w.fds (-1) = none) {a : Int}
    (he : (lookupPeer hashId).Exec kernel s w a s' w') :
    (∃ succ, s' = { s with succ := succ } ∧
      (w.Fresh w' succ.socket ∨ succ.socket = s.succ.socket)) ∧ w.Opens w' ∧
      ∃ es, w'.log = w.log ++ es ∧ ∀ e ∈ es, e.toClient = none := by
  rw [lookupPeer, readState, Prog.read_bind, Prog.exec_get, Prog.exec_bind] at he
  obtain ⟨ip, s1, w1, hip, he⟩ := he
  obtain ⟨rfl, rfl⟩ := peerGetIp_kernel hip
  rw [Prog.exec_bind] at he
  obtain ⟨⟨status, succ⟩, s2, w2, hfwd, he⟩ := he
  obtain ⟨rfl, hopens, ⟨pre, hpre, hlog⟩, hlast⟩ := forward_kernel hm hfwd
  have hret : s' = { s2 with succ := succ } ∧ w' = w2 := by
    dsimp only [modifyState, Prog.modify_bind, Prog.exec_get, Prog.exec_put] at he
    split at he
    · exact ⟨he.2.1, he.2.2⟩
    · exact ⟨he.2.1, he.2.2⟩
  obtain ⟨rfl, rfl⟩ := hret
  exact ⟨⟨succ, rfl, hlast⟩, hopens, pre, hlog, sentOnly_noClient hpre⟩

theorem answerLookup_kernel {p : Packet} {n : Peer} (hm : w.fds (-1) = none) {a : Int}
    (he : (answerLookup p n).Exec kernel s w a s' w') :
    s' = s ∧ w.Opens w' ∧ a = cbRemoveClient ∧
      ∃ es, w'.log = w.log ++ es ∧ ∀ e ∈ es, e.toClient = none := by
  rw [answerLookup, Prog.exec_bind] at he
  obtain ⟨ip, s1, w1, hip, he⟩ := he
  obtain ⟨rfl, rfl⟩ := peerGetIp_kernel hip
  rw [Prog.exec_bind] at he
  obtain ⟨_, s2, w2, hfwd, rfl, rfl, rfl⟩ := he
  obtain ⟨rfl, hopens, ⟨pre, hpre, hlog⟩, -⟩ := forward_kernel hm hfwd
  exact ⟨rfl, hopens, rfl, pre, hlog, sentOnly_noClient hpre⟩

theorem proxyToSucc_kernel {csocket : Int} {p : Packet} (hm : w.fds (-1) = none)
    (hsucc : ∀ k, w.fds s.succ.socket ≠ some (.client k)) {conn : ℕ}
    (hconn : w.fds csocket = some (.client conn)) {a : Int}
    (he : (proxyToSucc csocket p).Exec kernel s w a s' w') :
    (∃ succ, s' = { s with succ := succ } ∧ succ.socket = -1) ∧ w.Uses w' s.succ.socket ∧
      a = cbRemoveClient ∧ ∃ es, w'.log = w.log ++ es ∧ Proxied p (some (.client conn)) es := by
  rw [proxyToSucc, readState, Prog.read_bind, Prog.exec_get, Prog.exec_bind] at he
  obtain ⟨⟨rsp, succ⟩, s1, w1, hproxy, rfl, rfl, rfl⟩ := he
  obtain ⟨rfl, huses, rfl, hclosed, target, es, hes, hlog, htarget⟩ := proxyRequest_kernel hm
    hsucc hproxy
  rw [htarget conn hconn] at hes
  exact ⟨⟨succ, rfl, hclosed⟩, huses, rfl, es, hlog, hes⟩

theorem registerRequest_kernel {csocket : Int} {p : Packet} {hashId : UInt16}
    (hm : w.fds (-1) = none) {a : Int}
    (he : (registerRequest csocket p hashId).Exec kernel s w a s' w') :
    (∃ rt succ, s' = { s with rt := rt, succ := succ } ∧
      addRequest s.rt hashId csocket p = .ok rt ∧
      (w.Fresh w' succ.socket ∨ succ.socket = s.succ.socket)) ∧ w.Opens w' ∧ a = cbOk ∧
      ∃ es, w'.log = w.log ++ es ∧ ∀ e ∈ es, e.toClient = none := by
  rw [registerRequest, readState, Prog.read_bind, Prog.exec_get] at he
  cases hadd : addRequest s.rt hashId csocket p with
  | error f =>
    rw [hadd] at he
    obtain ⟨_, _, hcrash, -⟩ := he
    exact hcrash.elim
  | ok rt =>
    rw [hadd, eval_ok, Prog.ret_bind, modifyState, Prog.modify_bind, Prog.exec_get, Prog.exec_put,
      Prog.exec_bind] at he
    obtain ⟨_, s1, w1, hlookup, rfl, rfl, rfl⟩ := he
    obtain ⟨⟨succ, rfl, hlast⟩, hopens, hes⟩ := lookupPeer_kernel hm hlookup
    exact ⟨⟨rt, succ, rfl, rfl, hlast⟩, hopens, rfl, hes⟩

theorem handleLookup_kernel {p : Packet} (hm : w.fds (-1) = none) {a : Int}
    (he : (handleLookup p).Exec kernel s w a s' w') :
    (∃ succ, s' = { s with succ := succ } ∧
      (w.Fresh w' succ.socket ∨ succ.socket = s.succ.socket)) ∧ w.Opens w' ∧ a = cbRemoveClient ∧
      ∃ es, w'.log = w.log ++ es ∧ ∀ e ∈ es, e.toClient = none := by
  rw [handleLookup, readState, Prog.read_bind, Prog.exec_get] at he
  split at he
  · obtain ⟨rfl, hopens, ha, hes⟩ := answerLookup_kernel hm he
    exact ⟨⟨s'.succ, rfl, Or.inr rfl⟩, hopens, ha, hes⟩
  · split at he
    · obtain ⟨rfl, hopens, ha, hes⟩ := answerLookup_kernel hm he
      exact ⟨⟨s'.succ, rfl, Or.inr rfl⟩, hopens, ha, hes⟩
    · rw [Prog.exec_bind] at he
      obtain ⟨⟨status, succ⟩, s1, w1, hfwd, rfl, rfl, rfl⟩ := he
      obtain ⟨rfl, hopens, ⟨pre, hpre, hlog⟩, hlast⟩ := forward_kernel hm hfwd
      exact ⟨⟨succ, rfl, hlast⟩, hopens, rfl, pre, hlog, sentOnly_noClient hpre⟩

theorem handleReply_kernel {p : Packet} {q : List (ℕ × Packet)}
    (hq : List.Forall₂ w.Issued (getRequests s.rt p.hashId) q) (hm : w.fds (-1) = none)
    (hstd : w.fds 0 = some .std) (he : (handleReply p).Exec kernel s w () s' w') :
    s' = { s with
      rt := clearRequests s.rt p.hashId, srv := markAll s.srv (getRequests s.rt p.hashId) } ∧
      w.Opens w' ∧ ∃ es, Relayed q es ∧ w'.log = w.log ++ es := by
  rw [handleReply, readState, Prog.read_bind, Prog.exec_get, Prog.exec_bind] at he
  obtain ⟨n, s1, w1, hproxy, -, rfl, rfl⟩ := he
  obtain ⟨rfl, hopens, hes⟩ := proxyOpenRequests_kernel hq hm (n := peerFromPacket p)
    (Or.inr hstd) hproxy
  exact ⟨rfl, hopens, hes⟩

theorem handlePacket_kernel {csocket : Int} {p : Packet} {r : Route} (hr : route s p = .ok r)
    {issuers : UInt16 → List (ℕ × Packet)} {conn : ℕ} (hm : w.fds (-1) = none)
    (hstd : w.fds 0 = some .std) (hsucc : ∀ k, w.fds s.succ.socket ≠ some (.client k))
    (hconn : w.fds csocket = some (.client conn))
    (hq : ∀ h, List.Forall₂ w.Issued (getRequests s.rt h) (issuers h)) {a : Int}
    (he : (handlePacket csocket p).Exec kernel s w a s' w') :
    HandlerFrame s s' w w' ∧ r.Tables csocket p s s' a ∧
      ∃ es, w'.log = w.log ++ es ∧ r.Sends issuers conn p es := by
  rw [← Prog.exec_atState, handlePacket_atState hr, Prog.exec_atState] at he
  cases r with
  | own =>
    obtain ⟨ht, b, rfl, rfl, rfl⟩ := handleOwnRequest_kernel he
    rw [hconn]
    exact ⟨frame_of_opens (opens_logged (opens_refl w) _) (Or.inr rfl), ⟨rfl, rfl, rfl⟩,
      _, rfl, b, rfl⟩
  | proxy =>
    obtain ⟨⟨succ, rfl, hclosed⟩, huses, rfl, es, hlog, hes⟩ :=
      proxyToSucc_kernel hm hsucc hconn he
    exact ⟨⟨huses, Or.inl (Or.inl hclosed)⟩, ⟨rfl, rfl, rfl⟩, es, hlog, hes⟩
  | register hashId =>
    obtain ⟨⟨rt, succ, rfl, hadd, hlast⟩, hopens, rfl, es, hlog, hes⟩ :=
      registerRequest_kernel hm he
    exact ⟨frame_of_opens hopens hlast, ⟨hadd, rfl, rfl⟩, es, hlog, hes⟩
  | lookup =>
    obtain ⟨⟨succ, rfl, hlast⟩, hopens, rfl, es, hlog, hes⟩ := handleLookup_kernel hm he
    exact ⟨frame_of_opens hopens hlast, ⟨rfl, rfl, rfl⟩, es, hlog, hes⟩
  | reply =>
    rw [Route.run, Prog.exec_bind] at he
    obtain ⟨_, s1, w1, hreply, rfl, rfl, rfl⟩ := he
    obtain ⟨rfl, hopens, es, hes, hlog⟩ := handleReply_kernel (hq p.hashId) hm hstd hreply
    exact ⟨frame_of_opens hopens (Or.inr rfl), ⟨rfl, rfl, rfl⟩, es, hlog, hes⟩
  | ignore =>
    obtain ⟨rfl, rfl, rfl⟩ := he
    exact ⟨frame_of_opens (opens_refl w') (Or.inr rfl), ⟨rfl, rfl, rfl⟩, [],
      (List.append_nil _).symm, fun e hmem => absurd hmem List.not_mem_nil⟩

end

end RN2223.Praxis2

import RN2223.Praxis2.Neighbour

/-!
# Connecting to one of several addresses (neighbour.c:73-104)

`peer_connect` in a network where each attempt succeeds or fails on its own. The
loop takes as many rounds as there are addresses, but every round connects to
the first of them or, after a success, to what the record `p` held.
-/

namespace RN2223.Praxis2

/-- The addresses a lookup returns, and what `socket` answers in round `k` and
`connect` in that round for each address. -/
structure Attempts (Addr : Type) where
  addrs : List Addr
  socket : ℕ → Int
  connect : ℕ → Addr → Int

/-- How many sockets there were, and what each number is connected to. -/
structure Sockets (Addr : Type) where
  rounds : ℕ
  remote : Int → Option Addr

def Sockets.init {Addr : Type} : Sockets Addr := ⟨0, fun _ => none⟩

namespace Attempts

section
variable {Addr : Type} (t : Attempts Addr) (w : Sockets Addr)

def newSocket : Int × Sockets Addr :=
  (t.socket w.rounds,
    { rounds := w.rounds + 1, remote := Function.update w.remote (t.socket w.rounds) none })

def connectTo (fd : Int) (addr : Addr) : Int × Sockets Addr :=
  let status := t.connect (w.rounds - 1) addr
  (status, if status < 0 then w else { w with remote := Function.update w.remote fd (some addr) })

/-- In round `k` there is a socket, and it connects to the address. -/
def Accepts (k : ℕ) (addr : Addr) : Prop := 0 ≤ t.socket k ∧ 0 ≤ t.connect k addr

instance (k : ℕ) (addr : Addr) : Decidable (t.Accepts k addr) :=
  inferInstanceAs (Decidable (_ ∧ _))

def SomeAccepts : Prop := ∃ k addr, t.addrs[k]? = some addr ∧ t.Accepts k addr

variable {t w} {k : ℕ} {fd : Int} {addr : Addr}

theorem newSocket_round (hw : w.rounds = k) : t.newSocket w =
    (t.socket k, ⟨k + 1, Function.update w.remote (t.socket k) none⟩) := by
  rw [newSocket, hw]

theorem connectTo_ok (hw : w.rounds = k + 1) (h : 0 ≤ t.connect k addr) :
    t.connectTo w fd addr =
      (t.connect k addr, ⟨k + 1, Function.update w.remote fd (some addr)⟩) := by
  rw [connectTo, hw, Nat.add_sub_cancel, if_neg (Int.not_lt.mpr h)]

theorem connectTo_failed (hw : w.rounds = k + 1) (h : t.connect k addr < 0) :
    t.connectTo w fd addr = (t.connect k addr, w) := by
  rw [connectTo, hw, Nat.add_sub_cancel, if_pos h]

end

variable (t : Attempts SockAddr)

def answer (w : Sockets SockAddr) : (o : SysOp) → Option (SysRes o × Sockets SockAddr)
  | .getaddrinfo _ _ => some (t.addrs, w)
  | .socket => some (t.newSocket w)
  | .connect fd addr => some (t.connectTo w fd addr)
  | _ => none

/-- `peer_connect` returns 0 exactly when an address accepts a connection, and
then the peer's socket is connected to an address of the list. -/
def ConnectsRight (p : Peer) : Prop :=
  ∃ r q w, (peerConnect p : Sys Unit _).advance t.answer () .init =
      (.ret (r, q), (), w) ∧
    (r = 0 ↔ t.SomeAccepts) ∧ (r = 0 → ∃ addr ∈ t.addrs, w.remote q.socket = some addr)

/-- The first address accepts in some round if any address accepts in its own; and
if it does so before the last round, the last one connects to the address the
record held, which is in the list. -/
def FirstStands (held : SockAddr) : Prop :=
  match t.addrs with
  | [] => True
  | res :: rest =>
    ((∃ k ≤ rest.length, t.Accepts k res) ↔ t.SomeAccepts) ∧
      ((∃ k < rest.length, t.Accepts k res) →
        t.Accepts rest.length held ∧ held ∈ res :: rest)

/-! ### The address of each round -/

def dest (held res : SockAddr) : ℕ → SockAddr
  | 0 => res
  | k + 1 => if t.Accepts k (dest held res k) then held else dest held res k

variable {held res : SockAddr} {k : ℕ}

theorem dest_first (h : ∀ j < k, ¬ t.Accepts j res) : t.dest held res k = res := by
  induction k with
  | zero => rfl
  | succ k ih =>
    have hk := ih fun j hj => h j (Nat.lt_succ_of_lt hj)
    rw [dest, hk, if_neg (h k (Nat.lt_succ_self k))]

theorem dest_held (h : ∃ j < k, t.Accepts j res) : t.dest held res k = held := by
  induction k with
  | zero =>
    obtain ⟨j, hj, -⟩ := h
    exact absurd hj (Nat.not_lt_zero j)
  | succ k ih =>
    by_cases hbefore : ∃ j < k, t.Accepts j res
    · rw [dest, ih hbefore, ite_self]
    · have hfirst : t.dest held res k = res :=
        t.dest_first fun j hj hacc => hbefore ⟨j, hj, hacc⟩
      obtain ⟨j, hj, hacc⟩ := h
      have hjk : j = k := by
        by_contra hne
        exact hbefore ⟨j, by omega, hacc⟩
      rw [dest, hfirst, if_pos (hjk ▸ hacc)]

theorem accepts_dest_iff :
    (∃ j < k, t.Accepts j (t.dest held res j)) ↔ ∃ j < k, t.Accepts j res := by
  constructor
  · rintro ⟨j, hj, hacc⟩
    by_cases hbefore : ∃ i < j, t.Accepts i res
    · obtain ⟨i, hi, hres⟩ := hbefore
      exact ⟨i, hi.trans hj, hres⟩
    · rw [t.dest_first fun i hi hres => hbefore ⟨i, hi, hres⟩] at hacc
      exact ⟨j, hj, hacc⟩
  · intro h
    by_contra hnone
    have hdest : ∀ j ≤ k, t.dest held res j = res := by
      intro j
      induction j with
      | zero => exact fun _ => rfl
      | succ j ih =>
        intro hj
        rw [dest, if_neg fun hacc => hnone ⟨j, hj, hacc⟩, ih (Nat.le_of_succ_le hj)]
    obtain ⟨j, hj, hacc⟩ := h
    rw [← hdest j hj.le] at hacc
    exact hnone ⟨j, hj, hacc⟩

/-! ### The loop -/

/-- After `k` rounds, begun with the first address `res` and the record `p0`. -/
structure AtRound (res : SockAddr) (p0 : Peer) (k : ℕ) (addr : SockAddr) (p : Peer)
    (connected : Bool) (w : Sockets SockAddr) : Prop where
  rounds : w.rounds = k
  addr : addr = t.dest p0.addr res k
  held : p.addr = p0.addr
  connected : connected = true ↔ ∃ j < k, t.Accepts j (t.dest p0.addr res j)
  last : ∀ j, k = j + 1 → w.remote p.socket =
    if t.Accepts j (t.dest p0.addr res j) then some (t.dest p0.addr res j) else none

variable {t} {p0 p : Peer} {addr : SockAddr} {c : Bool} {w : Sockets SockAddr}

theorem AtRound.connected_succ (h : t.AtRound res p0 k addr p c w) {c' : Bool}
    (hc : c' = true ↔ c = true ∨ t.Accepts k addr) :
    c' = true ↔ ∃ j < k + 1, t.Accepts j (t.dest p0.addr res j) := by
  rw [hc, h.connected, h.addr]
  constructor
  · rintro (⟨j, hj, hacc⟩ | hacc)
    · exact ⟨j, Nat.lt_succ_of_lt hj, hacc⟩
    · exact ⟨k, Nat.lt_succ_self k, hacc⟩
  · rintro ⟨j, hj, hacc⟩
    obtain hlt | rfl := Nat.lt_succ_iff_lt_or_eq.mp hj
    · exact Or.inl ⟨j, hlt, hacc⟩
    · exact Or.inr hacc

theorem answer_socket (hw : w.rounds = k) : t.answer w .socket =
    some (t.socket k, ⟨k + 1, Function.update w.remote (t.socket k) none⟩) :=
  congrArg some (newSocket_round hw)

/-- A round in which there is a connection: from now on the record's address is used. -/
theorem AtRound.accepts (h : t.AtRound res p0 k addr p c w) (hacc : t.Accepts k addr)
    (pa : SockAddr) (pas : List SockAddr) : ∃ p' w',
    (peerConnectLoop (pa :: pas) addr p c : Sys Unit _).advance t.answer () w =
      (peerConnectLoop pas p.addr p' true).advance t.answer () w' ∧
    t.AtRound res p0 (k + 1) p.addr p' true w' := by
  obtain ⟨hsocket, hconnect⟩ := id hacc
  have hconn : t.answer ⟨k + 1, Function.update w.remote (t.socket k) none⟩
      (.connect (t.socket k) addr) = some (t.connect k addr,
        ⟨k + 1, Function.update (Function.update w.remote (t.socket k) none) (t.socket k)
          (some addr)⟩) :=
    congrArg some (connectTo_ok rfl hconnect)
  refine ⟨{ p with socket := t.socket k, addrLen := 16 },
    ⟨k + 1, Function.update (Function.update w.remote (t.socket k) none) (t.socket k) (some addr)⟩,
    ?_, rfl, ?_, h.held, ?_, fun j hj => ?_⟩
  · rw [peerConnectLoop, socket_bind, Prog.advance_call _ () (answer_socket h.rounds),
      if_neg (Int.not_lt.mpr hsocket), connect_bind, Prog.advance_call _ () hconn,
      if_neg (Int.not_lt.mpr hconnect)]
  · rw [dest, ← h.addr, if_pos hacc, h.held]
  · exact h.connected_succ (iff_of_true rfl (Or.inr hacc))
  · obtain rfl : j = k := by omega
    rw [← h.addr, if_pos hacc]
    exact Function.update_self ..

theorem AtRound.refuses (h : t.AtRound res p0 k addr p c w) (hacc : ¬ t.Accepts k addr)
    (pa : SockAddr) (pas : List SockAddr) : ∃ p' w',
    (peerConnectLoop (pa :: pas) addr p c : Sys Unit _).advance t.answer () w =
      (peerConnectLoop pas addr p' c).advance t.answer () w' ∧
    t.AtRound res p0 (k + 1) addr p' c w' := by
  refine ⟨{ p with socket := t.socket k }, ⟨k + 1, Function.update w.remote (t.socket k) none⟩,
    ?_, rfl, ?_, h.held, ?_, fun j hj => ?_⟩
  · rw [peerConnectLoop, socket_bind, Prog.advance_call _ () (answer_socket h.rounds)]
    by_cases hneg : t.socket k < 0
    · rw [if_pos hneg]
    · have hstatus : t.connect k addr < 0 := by
        by_contra hok
        exact hacc ⟨Int.not_lt.mp hneg, Int.not_lt.mp hok⟩
      have hconn : t.answer ⟨k + 1, Function.update w.remote (t.socket k) none⟩
          (.connect (t.socket k) addr) = some (t.connect k addr,
            ⟨k + 1, Function.update w.remote (t.socket k) none⟩) :=
        congrArg some (connectTo_failed rfl hstatus)
      rw [if_neg hneg, connect_bind, Prog.advance_call _ () hconn, if_pos hstatus]
  · rw [dest, ← h.addr, if_neg hacc]
  · exact h.connected_succ (or_iff_left hacc).symm
  · obtain rfl : j = k := by omega
    rw [← h.addr, if_neg hacc]
    exact Function.update_self ..

theorem AtRound.step (h : t.AtRound res p0 k addr p c w) (pa : SockAddr) (pas : List SockAddr) :
    ∃ addr' p' c' w', (peerConnectLoop (pa :: pas) addr p c : Sys Unit _).advance t.answer () w =
      (peerConnectLoop pas addr' p' c').advance t.answer () w' ∧
    t.AtRound res p0 (k + 1) addr' p' c' w' := by
  by_cases hacc : t.Accepts k addr
  · obtain ⟨p', w', hrun, hround⟩ := h.accepts hacc pa pas
    exact ⟨p.addr, p', true, w', hrun, hround⟩
  · obtain ⟨p', w', hrun, hround⟩ := h.refuses hacc pa pas
    exact ⟨addr, p', c, w', hrun, hround⟩

theorem AtRound.run (h : t.AtRound res p0 k addr p c w) (pas : List SockAddr) : ∃ addr' p' c' w',
    (peerConnectLoop pas addr p c : Sys Unit _).advance t.answer () w =
      (.ret (c', p'), (), w') ∧ t.AtRound res p0 (k + pas.length) addr' p' c' w' := by
  induction pas generalizing k addr p c w with
  | nil => exact ⟨addr, p, c, w, rfl, h⟩
  | cons pa pas ih =>
    obtain ⟨addr1, p1, c1, w1, hrun, hround⟩ := h.step pa pas
    obtain ⟨addr', p', c', w', hrest, hend⟩ := ih hround
    rw [Nat.add_right_comm] at hend
    exact ⟨addr', p', c', w', hrun.trans hrest, hend⟩

theorem atRound_start (res : SockAddr) (p : Peer) :
    t.AtRound res p 0 res p false .init where
  rounds := rfl
  addr := rfl
  held := rfl
  connected := iff_of_false Bool.false_ne_true fun ⟨j, hj, _⟩ => absurd hj (Nat.not_lt_zero j)
  last j hj := absurd hj (Nat.succ_ne_zero j).symm

theorem peerConnect_attempts {rest : List SockAddr} (haddrs : t.addrs = res :: rest) (p : Peer) :
    ∃ r q w, (peerConnect p : Sys Unit _).advance t.answer () .init =
        (.ret (r, q), (), w) ∧
      (r = 0 ↔ ∃ k ≤ rest.length, t.Accepts k res) ∧
      w.remote q.socket = if t.Accepts rest.length (t.dest p.addr res rest.length) then
        some (t.dest p.addr res rest.length) else none := by
  obtain ⟨addr, q, c, w, hrun, hend⟩ := (atRound_start (t := t) res p).run (res :: rest)
  rw [Nat.zero_add, List.length_cons] at hend
  have hlookup : t.answer .init (.getaddrinfo p.hostname p.port) =
      some (t.addrs, .init) := rfl
  refine ⟨if c then 0 else -1, q, w, ?_, ?_, hend.last rest.length rfl⟩
  · rw [peerConnect, peerLookup, getaddrinfo_bind, Prog.advance_call _ () hlookup, haddrs]
    exact Prog.advance_bind hrun _
  · have hconn := hend.connected.trans t.accepts_dest_iff
    simp only [Nat.lt_succ_iff] at hconn
    rw [← hconn]
    cases c <;> decide

theorem connectsRight_nil (haddrs : t.addrs = []) (p : Peer) : t.ConnectsRight p := by
  have hlookup : t.answer .init (.getaddrinfo p.hostname p.port) =
      some (t.addrs, .init) := rfl
  refine ⟨-1, p, .init, ?_, iff_of_false (by decide) ?_, fun h => absurd h (by decide)⟩
  · rw [peerConnect, peerLookup, getaddrinfo_bind, Prog.advance_call _ () hlookup, haddrs]
    rfl
  · rintro ⟨k, addr, haddr, -⟩
    rw [haddrs] at haddr
    cases haddr

variable (t) in
/-- `peer_connect` does what it should exactly when the address it insists on, the
first one, stands for the whole list. -/
theorem peerConnect_right_iff (p : Peer) : t.ConnectsRight p ↔ t.FirstStands p.addr := by
  cases haddrs : t.addrs with
  | nil =>
    rw [FirstStands, haddrs]
    exact iff_of_true (connectsRight_nil haddrs p) trivial
  | cons res rest =>
    obtain ⟨r, q, w, hrun, hr, hlast⟩ := peerConnect_attempts haddrs p
    rw [FirstStands, haddrs]
    dsimp only
    rw [← hr]
    constructor
    · rintro ⟨r', q', w', hrun', hsome, hremote⟩
      rw [hrun] at hrun'
      cases hrun'
      refine ⟨hsome, fun hearly => ?_⟩
      obtain ⟨k, hk, hacc⟩ := hearly
      obtain ⟨addr, haddr, hconn⟩ := hremote (hr.mpr ⟨k, hk.le, hacc⟩)
      rw [hlast, t.dest_held ⟨k, hk, hacc⟩] at hconn
      split at hconn
      · next hheld =>
        cases hconn
        exact ⟨hheld, haddrs ▸ haddr⟩
      · cases hconn
    · rintro ⟨hsome, hheld⟩
      refine ⟨r, q, w, hrun, hsome, fun h0 => ?_⟩
      rw [hlast, haddrs]
      by_cases hearly : ∃ k < rest.length, t.Accepts k res
      · obtain ⟨hacc, hmem⟩ := hheld hearly
        rw [t.dest_held hearly, if_pos hacc]
        exact ⟨p.addr, hmem, rfl⟩
      · -- no success before the last round, so it is the last one that succeeds
        have hfirst : t.dest p.addr res rest.length = res :=
          t.dest_first fun j hj hacc => hearly ⟨j, hj, hacc⟩
        obtain ⟨k, hk, hacc⟩ := hr.mp h0
        have hklast : k = rest.length := by
          by_contra hne
          exact hearly ⟨k, by omega, hacc⟩
        rw [hfirst, if_pos (hklast ▸ hacc)]
        exact ⟨res, List.mem_cons_self, rfl⟩

def secondUp : Attempts SockAddr where
  addrs := [.inet 167772161 4711, .inet 167772162 4711]
  socket k := 5 + k
  connect _ addr := if addr = .inet 167772162 4711 then 0 else -1

theorem secondUp_not_reached : secondUp.SomeAccepts ∧
    ¬ secondUp.ConnectsRight (peerInit 10 "peer.example" 4711) := by
  have hsome : secondUp.SomeAccepts := ⟨1, .inet 167772162 4711, rfl, by decide, by decide⟩
  refine ⟨hsome, ?_⟩
  rintro ⟨r, q, w, hrun, hr, -⟩
  have hret : (peerConnect (peerInit 10 "peer.example" 4711) : Sys Unit _).advance secondUp.answer ()
      .init = (.ret (r, q), (), w) := hrun
  have hminus : r = -1 := by
    cases hret
    rfl
  exact absurd (hr.mpr hsome) (by rw [hminus]; decide)

end Attempts

end RN2223.Praxis2

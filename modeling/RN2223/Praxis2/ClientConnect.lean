import RN2223.Praxis2.DhtClient
import RN2223.Praxis2.PeerConnect

/-!
# The connection of the client (client.c:55-102)

`connect_socket` under the same attempts as `peer_connect`. Its loop tries the
address of each round and ends at the first success, so it is connected whenever
an address accepts.
-/

namespace RN2223.Praxis2
open CMemory

namespace DhtClient

/-- What the client meets: the attempts to connect, whether `sendall` answers, what
`recvall` delivers if the stream ends, and how much each `fwrite` takes. -/
structure ClientNet extends Attempts AddrInfo where
  sendall : Bytes → Option Int
  recvall : Option Response
  fwrite : Bytes → ℕ

namespace ClientNet

variable (t : ClientNet)

def answer (w : Sockets AddrInfo) : (o : ClientOp) → Option (ClientRes o × Sockets AddrInfo)
  | .getaddrinfo _ _ => some (t.addrs, w)
  | .socket _ => some (t.newSocket w)
  | .connect fd addr => some (t.connectTo w fd addr)
  | .close fd => some ((), { w with remote := Function.update w.remote fd none })
  | .send _ buffer => (t.sendall buffer).map fun r => (r, w)
  | .recv _ => t.recvall.map fun r => (r, w)
  | .fwrite bytes => some (t.fwrite bytes, w)
  | .fprintf _ _ => some ((), w)
  | .perror _ => some ((), w)
  | .crash _ => none

/-- An address of the list accepts in its round when the first one has round `k`. -/
def AcceptsFrom (k : ℕ) (addrs : List AddrInfo) : Prop :=
  ∃ j addr, addrs[j]? = some addr ∧ t.Accepts (k + j) addr

variable {t} {k : ℕ} {p : AddrInfo} {next : List AddrInfo} {w : Sockets AddrInfo}

theorem acceptsFrom_cons :
    t.AcceptsFrom k (p :: next) ↔ t.Accepts k p ∨ t.AcceptsFrom (k + 1) next := by
  constructor
  · rintro ⟨j, addr, haddr, hacc⟩
    cases j with
    | zero =>
      cases haddr
      exact Or.inl hacc
    | succ j =>
      rw [Nat.add_succ, ← Nat.succ_add] at hacc
      exact Or.inr ⟨j, addr, haddr, hacc⟩
  · rintro (hacc | ⟨j, addr, haddr, hacc⟩)
    · exact ⟨0, p, rfl, hacc⟩
    · rw [Nat.succ_add, ← Nat.add_succ] at hacc
      exact ⟨j + 1, addr, haddr, hacc⟩

/-- What the loop has found: a socket that is connected to an address of the list,
or none. -/
structure Found (t : ClientNet) (k : ℕ) (addrs : List AddrInfo) (w : Sockets AddrInfo)
    (res : Option (Int × AddrInfo)) : Prop where
  iff : res.isSome ↔ t.AcceptsFrom k addrs
  valid : ∀ sock addr, res = some (sock, addr) →
    0 ≤ sock ∧ addr ∈ addrs ∧ w.remote sock = some addr

theorem Found.cons {res : Option (Int × AddrInfo)} (h : t.Found (k + 1) next w res)
    (hp : ¬ t.Accepts k p) : t.Found k (p :: next) w res where
  iff := h.iff.trans ((or_iff_right hp).symm.trans acceptsFrom_cons.symm)
  valid sock addr hres := by
    obtain ⟨hsock, hmem, hremote⟩ := h.valid sock addr hres
    exact ⟨hsock, List.mem_cons_of_mem p hmem, hremote⟩

theorem connectLoop_found (addrs : List AddrInfo) (hw : w.rounds = k) : ∃ res w',
    (connectLoop addrs).advance t.answer () w = (.ret res, (), w') ∧ t.Found k addrs w' res := by
  induction addrs generalizing k w with
  | nil =>
    refine ⟨none, w, rfl, ⟨iff_of_false Bool.false_ne_true ?_, fun _ _ h => by cases h⟩⟩
    rintro ⟨j, addr, haddr, -⟩
    cases haddr
  | cons p next ih =>
    have hsocket : t.answer w (.socket p.family) = some (t.socket k,
        ⟨k + 1, Function.update w.remote (t.socket k) none⟩) :=
      congrArg some (Attempts.newSocket_round hw)
    simp only [connectLoop, call, Prog.sys_bind]
    rw [Prog.advance_call _ () hsocket]
    by_cases hneg : t.socket k < 0
    · have hp : ¬ t.Accepts k p := fun h => absurd h.1 (Int.not_le.mpr hneg)
      obtain ⟨res, w', hrun, hfound⟩ := ih (w := ⟨k + 1, _⟩) rfl
      rw [if_pos hneg]
      exact ⟨res, w', hrun, hfound.cons hp⟩
    have hprint : t.answer ⟨k + 1, Function.update w.remote (t.socket k) none⟩
        (.fprintf "Attempting connection to %s\n" [.ip p]) = some ((), ⟨k + 1, _⟩) := rfl
    rw [if_neg hneg, Prog.advance_call _ () hprint]
    by_cases hfail : t.connect k p < 0
    · have hp : ¬ t.Accepts k p := fun h => absurd h.2 (Int.not_le.mpr hfail)
      have hconn : t.answer ⟨k + 1, Function.update w.remote (t.socket k) none⟩
          (.connect (t.socket k) p) = some (t.connect k p, ⟨k + 1, _⟩) :=
        congrArg some (Attempts.connectTo_failed rfl hfail)
      have hperror : t.answer ⟨k + 1, Function.update w.remote (t.socket k) none⟩
          (.perror "connect") = some ((), ⟨k + 1, _⟩) := rfl
      have hclose : t.answer ⟨k + 1, Function.update w.remote (t.socket k) none⟩
          (.close (t.socket k)) = some ((), ⟨k + 1, _⟩) := rfl
      rw [Prog.advance_call _ () hconn, if_pos hfail, Prog.advance_call _ () hperror,
        Prog.advance_call _ () hclose]
      obtain ⟨res, w', hrun, hfound⟩ := ih (w := ⟨k + 1, _⟩) rfl
      exact ⟨res, w', hrun, hfound.cons hp⟩
    · have hconn : t.answer ⟨k + 1, Function.update w.remote (t.socket k) none⟩
          (.connect (t.socket k) p) = some (t.connect k p, ⟨k + 1, _⟩) :=
        congrArg some (Attempts.connectTo_ok rfl (Int.not_lt.mp hfail))
      rw [Prog.advance_call _ () hconn, if_neg hfail]
      refine ⟨some (t.socket k, p), _, rfl, ⟨iff_of_true rfl ?_, ?_⟩⟩
      · exact acceptsFrom_cons.mpr (Or.inl ⟨Int.not_lt.mp hneg, Int.not_lt.mp hfail⟩)
      · rintro sock addr hres
        cases hres
        exact ⟨Int.not_lt.mp hneg, List.mem_cons_self, Function.update_self ..⟩

theorem someAccepts_iff : t.SomeAccepts ↔ t.AcceptsFrom 0 t.addrs := by
  simp only [Attempts.SomeAccepts, AcceptsFrom, Nat.zero_add]

/-- `connect_socket` returns a connected socket exactly when an address accepts. -/
theorem connectSocket_right (t : ClientNet) (hostname port : CString) : ∃ r w,
    (connectSocket hostname port).advance t.answer () .init = (.ret r, (), w) ∧
    (0 ≤ r ↔ t.SomeAccepts) ∧ (0 ≤ r → ∃ addr ∈ t.addrs, w.remote r = some addr) := by
  have hlookup : t.answer .init (.getaddrinfo hostname port) = some (t.addrs, .init) := rfl
  simp only [connectSocket, call, Prog.sys_bind]
  rw [Prog.advance_call _ () hlookup, someAccepts_iff]
  cases haddrs : t.addrs with
  | nil =>
    refine ⟨-1, .init, rfl, iff_of_false (by decide) ?_, fun h => absurd h (by decide)⟩
    rintro ⟨j, addr, haddr, -⟩
    cases haddr
  | cons p next =>
    obtain ⟨res, w, hrun, hfound⟩ := connectLoop_found (t := t) (p :: next) (w := .init) rfl
    dsimp only
    rw [Prog.advance_bind hrun, Prog.ret_bind]
    cases res with
    | none =>
      exact ⟨-1, w, rfl, iff_of_false (by decide) fun h => absurd (hfound.iff.mpr h) (by decide),
        fun h => absurd h (by decide)⟩
    | some found =>
      obtain ⟨sock, addr⟩ := found
      obtain ⟨hsock, hmem, hremote⟩ := hfound.valid sock addr rfl
      exact ⟨sock, w, rfl, iff_of_true hsock (hfound.iff.mp rfl), fun _ => ⟨addr, hmem, hremote⟩⟩

end ClientNet

end DhtClient

end RN2223.Praxis2

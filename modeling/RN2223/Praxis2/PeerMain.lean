import RN2223.Lib.CNumber
import RN2223.Praxis2.RingSystem

/-!
# The start of a peer (peer.c:292-343, server.c:225-273, neighbour.c:12-29)

From the arguments to the call of `server_run`: the numbers of the command line, with
the `errno` that `peer_init` asks for and nobody resets, and the listening socket. The
process has the descriptors 0, 1 and 2 before, and a new one gets the lowest free number.
-/

namespace RN2223.Praxis2
open CMemory

namespace PeerMain

/-- What `server_setup` uses of a `struct addrinfo`. -/
structure AddrInfo where
  family : ℕ
  socktype : ℕ
  protocol : ℕ
  addr : Bytes
  deriving DecidableEq, Repr

inductive SetupOp where
  | getaddrinfo (port : String)
  | socket (family socktype protocol : ℕ)
  | bind (fd : Int) (addr : Bytes)
  | close (fd : Int)
  | fprintf (text : String)
  | perror (s : String)
  | crash (f : Fault)

/-- `getaddrinfo` answers the empty list when it fails. -/
abbrev SetupRes : SetupOp → Type
  | .getaddrinfo _ => List AddrInfo
  | .socket .. => Int
  | .bind .. => Int
  | .close _ => Unit
  | .fprintf _ => Unit
  | .perror _ => Unit
  | .crash _ => Empty

/-- The state is `errno`. -/
abbrev SetupM : Type → Type := Prog Int SetupOp SetupRes

def call (o : SetupOp) : SetupM (SetupRes o) := Prog.sys o

def crash {α : Type} (f : Fault) : SetupM α := .call (.crash f) Empty.elim

def erange : Int := 34

def strtol (s : String) : SetupM Int := do
  if (CNumber.strtol s).2 then Prog.modify fun _ => erange
  return (CNumber.strtol s).1

def strtoul (s : String) : SetupM ℕ := do
  if (CNumber.strtoul s).2 then Prog.modify fun _ => erange
  return (CNumber.strtoul s).1

/-- `peer_init` (`neighbour.c:12-29`). -/
def peerInit (id : UInt16) (hostname port : String) : SetupM (Option Peer) := do
  let tmp ← strtol port
  let errno ← Prog.read
  if errno ≠ 0 ∨ 65535 < tmp then
    call (.fprintf "Unable to convert string to port number!\n")
    return none
  else return some (Praxis2.peerInit id hostname (UInt16.ofInt tmp))

/-- The loop of `server_setup` with its `status` and `s`; every round takes the protocol
of the first address. No result is the `return NULL` of a failing `socket`. -/
def bindLoop (protocol : ℕ) (status s : Int) : List AddrInfo → SetupM (Option (Int × Int))
  | [] => return some (status, s)
  | r :: next => do
    let s ← call (.socket r.family r.socktype protocol)
    if s < 0 then
      call (.perror "socket")
      return none
    else
      let status ← call (.bind s r.addr)
      if status < 0 then
        call (.perror "bind")
        call (.close s)
        bindLoop protocol status s next
      else return some (status, s)

/-- `server_setup` (`server.c:225-273`). After a `getaddrinfo` that fails the loop reads
`res`, which has no value yet. -/
def serverSetup (port : String) : SetupM (Option Server) := do
  match ← call (.getaddrinfo port) with
  | [] =>
    call (.perror "getaddrinfo")
    crash .outOfBounds
  | res :: next =>
    match ← bindLoop res.protocol 0 (-1) (res :: next) with
    | none => return none
    | some (status, s) =>
      if status < 0 then return none
      else return some { socket := s, nClients := 0, clients := [] }

/-- The globals of peer.c and the server when `main` calls `server_run`; a peer may be
`NULL`. -/
structure Globals where
  self : Option Peer
  pred : Option Peer
  succ : Option Peer
  srv : Server
  deriving DecidableEq, Repr

/-- What the handlers rely on: none of the peers is `NULL`. -/
def Globals.state (g : Globals) : Option PeerState :=
  match g.self, g.pred, g.succ with
  | some self, some pred, some succ =>
    some { ht := [], rt := [], self := self, pred := pred, succ := succ, srv := g.srv }
  | _, _, _ => none

/-- `main` (`peer.c:292-343`) up to `server_run`, no result for its `return -1`. With less
than ten arguments it goes on to the `NULL` at their end. -/
def main : List String → SetupM (Option Globals)
  | _ :: idSelf :: hostSelf :: portSelf :: idPred :: hostPred :: portPred ::
      idSucc :: hostSucc :: portSucc :: _ => do
    let idSelf ← strtoul idSelf
    let idPred ← strtoul idPred
    let idSucc ← strtoul idSucc
    let self ← peerInit (UInt16.ofNat idSelf) hostSelf portSelf
    let pred ← peerInit (UInt16.ofNat idPred) hostPred portPred
    let succ ← peerInit (UInt16.ofNat idSucc) hostSucc portSucc
    match ← serverSetup portSelf with
    | none =>
      call (.fprintf "Server setup failed!\n")
      return none
    | some srv => return some { self := self, pred := pred, succ := succ, srv := srv }
  | _ => do
    call (.fprintf "Not enough args! I need ID IP PORT ID_P IP_P PORT_P ID_S IP_S PORT_S\n")
    crash .nullPointer

/-! ### The descriptors of the process -/

inductive Descriptor where
  | std
  | socket (bound : Option Bytes)
  deriving DecidableEq, Repr

abbrev Descriptors := Int → Option Descriptor

/-- What a process starts with. -/
def startFds : Descriptors := fun fd => if fd = 0 ∨ fd = 1 ∨ fd = 2 then some .std else none

/-- `socket` answers the lowest number that is not in use. -/
def Lowest (fds : Descriptors) (fd : Int) : Prop :=
  0 ≤ fd ∧ fds fd = none ∧ ∀ g, 0 ≤ g → g < fd → fds g ≠ none

def setupCall (resolve : String → List AddrInfo) (fds : Descriptors) :
    (o : SetupOp) → SetupRes o → Descriptors → Prop
  | .getaddrinfo port, addrs, fds' => addrs = resolve port ∧ fds' = fds
  | .socket .., fd, fds' => (fd < 0 ∧ fds' = fds) ∨
      (Lowest fds fd ∧ fds' = Function.update fds fd (some (.socket none)))
  | .bind fd addr, status, fds' => (status < 0 ∧ fds' = fds) ∨ (0 ≤ status ∧
      fds fd = some (.socket none) ∧ fds' = Function.update fds fd (some (.socket (some addr))))
  | .close fd, _, fds' => fds' = Function.update fds fd none
  | .fprintf _, _, fds' => fds' = fds
  | .perror _, _, fds' => fds' = fds
  | .crash _, r, _ => r.elim

section
variable {α : Type} {resolve : String → List AddrInfo} {e e' : Int} {fds fds' : Descriptors}

/-! ### The numbers -/

/-- `errno` after a conversion that may be out of range. -/
def errnoAfter (e : Int) (range : Bool) : Int := if range then erange else e

theorem errnoAfter_zero {range : Bool} : errnoAfter e range = 0 ↔ e = 0 ∧ range = false := by
  cases range with
  | false => simp [errnoAfter]
  | true => simp [errnoAfter, erange]

theorem exec_strtol_bind {s : String} {f : Int → SetupM α} {a : α} :
    (strtol s >>= f).Exec (setupCall resolve) e fds a e' fds' ↔
      (f (CNumber.strtol s).1).Exec (setupCall resolve) (errnoAfter e (CNumber.strtol s).2) fds a
        e' fds' := by
  unfold strtol
  cases hrange : (CNumber.strtol s).2 <;> rfl

theorem exec_strtoul_bind {s : String} {f : ℕ → SetupM α} {a : α} :
    (strtoul s >>= f).Exec (setupCall resolve) e fds a e' fds' ↔
      (f (CNumber.strtoul s).1).Exec (setupCall resolve) (errnoAfter e (CNumber.strtoul s).2) fds a
        e' fds' := by
  unfold strtoul
  cases hrange : (CNumber.strtoul s).2 <;> rfl

/-- The peer that `peer_init` builds of a port in range. -/
def builtPeer (id : UInt16) (hostname port : String) (errno : Int) : Option Peer :=
  if errno ≠ 0 ∨ 65535 < (CNumber.strtol port).1 then none
  else some (Praxis2.peerInit id hostname (UInt16.ofInt (CNumber.strtol port).1))

theorem exec_peerInit_bind {id : UInt16} {hostname port : String} {f : Option Peer → SetupM α}
    {a : α} : (peerInit id hostname port >>= f).Exec (setupCall resolve) e fds a e' fds' ↔
      (f (builtPeer id hostname port (errnoAfter e (CNumber.strtol port).2))).Exec
        (setupCall resolve) (errnoAfter e (CNumber.strtol port).2) fds a e' fds' := by
  simp only [peerInit, Prog.bind_assoc, exec_strtol_bind, Prog.read_bind, Prog.get_bind,
    Prog.exec_get, builtPeer]
  split
  · constructor
    · rintro ⟨_, _, rfl, h⟩
      exact h
    · exact fun h => ⟨(), fds, rfl, h⟩
  · rfl

/-! ### The listening socket -/

/-- The lowest number is a socket, bound to one of the addresses. -/
def Listens (fds : Descriptors) (addrs : List AddrInfo) (s : Int) (fds' : Descriptors) : Prop :=
  Lowest fds s ∧ ∃ r ∈ addrs, fds' = Function.update fds s (some (.socket (some r.addr)))

theorem exec_bindLoop {protocol : ℕ} {status s : Int} {addrs : List AddrInfo}
    {res : Option (Int × Int)}
    (h : (bindLoop protocol status s addrs).Exec (setupCall resolve) e fds res e' fds') :
    (fds' = fds ∧ ∀ r, res = some r → r.1 < 0 ∨ addrs = [] ∧ r = (status, s)) ∨
      ∃ r, res = some r ∧ 0 ≤ r.1 ∧ Listens fds addrs r.2 fds' := by
  induction addrs generalizing status s with
  | nil =>
    obtain ⟨rfl, rfl, rfl⟩ := h
    refine Or.inl ⟨rfl, ?_⟩
    intro r hr
    exact Or.inr ⟨rfl, (Option.some.inj hr).symm⟩
  | cons a next ih =>
    simp only [bindLoop, call, Prog.sys_bind] at h
    obtain ⟨fd, fds1, hsocket, h⟩ := h
    simp only at h
    split at h
    · next hneg =>
      obtain ⟨_, _, rfl, rfl, rfl, rfl⟩ := h
      obtain ⟨-, rfl⟩ | ⟨hlow, -⟩ := hsocket
      · refine Or.inl ⟨rfl, ?_⟩
        intro r hr
        cases hr
      · exact absurd hneg (Int.not_lt.mpr hlow.1)
    · next hpos =>
      obtain ⟨hneg, -⟩ | ⟨hlow, rfl⟩ := hsocket
      · exact absurd hneg hpos
      obtain ⟨bound, fds2, hbind, h⟩ := h
      simp only at h
      split at h
      · next hfailed =>
        obtain ⟨_, _, rfl, _, _, rfl, h⟩ := h
        obtain ⟨-, rfl⟩ | ⟨hok, -⟩ := hbind
        · have hback : Function.update (Function.update fds fd (some (.socket none))) fd none =
              fds := by
            rw [Function.update_idem, ← hlow.2.1, Function.update_eq_self]
          rw [hback] at h
          obtain ⟨rfl, hres⟩ | ⟨r, hr, hstatus, hlow', b, hb, hfds⟩ := ih h
          · refine Or.inl ⟨rfl, fun r hr => Or.inl ?_⟩
            obtain hlt | ⟨-, rfl⟩ := hres r hr
            · exact hlt
            · exact hfailed
          · exact Or.inr ⟨r, hr, hstatus, hlow', b, List.mem_cons_of_mem a hb, hfds⟩
        · exact absurd hfailed (Int.not_lt.mpr hok)
      · next hok =>
        obtain ⟨rfl, rfl, rfl⟩ := h
        obtain ⟨hneg, -⟩ | ⟨hstatus, -, rfl⟩ := hbind
        · exact absurd hneg hok
        · exact Or.inr ⟨_, rfl, hstatus, hlow, a, List.mem_cons_self, Function.update_idem ..⟩

/-- The sockets that could not be bound are closed again. -/
theorem exec_serverSetup {port : String} {res : Option Server}
    (h : (serverSetup port).Exec (setupCall resolve) e fds res e' fds') :
    (res = none ∧ fds' = fds) ∨
      ∃ s, res = some ⟨s, 0, []⟩ ∧ Listens fds (resolve port) s fds' := by
  simp only [serverSetup, call, Prog.sys_bind] at h
  obtain ⟨addrs, fds1, ⟨rfl, rfl⟩, h⟩ := h
  simp only at h
  split at h
  · obtain ⟨_, _, rfl, r, -⟩ := h
    exact r.elim
  · next a next haddrs =>
    obtain ⟨res', e1, fds2, hloop, h⟩ := Prog.exec_bind.mp h
    obtain ⟨rfl, hres⟩ | ⟨r, rfl, hstatus, hlistens⟩ := exec_bindLoop hloop
    · cases res' with
      | none =>
        obtain ⟨rfl, rfl, rfl⟩ := h
        exact Or.inl ⟨rfl, rfl⟩
      | some r =>
        obtain hneg | ⟨hnil, -⟩ := hres r rfl
        · simp only [if_pos hneg] at h
          obtain ⟨rfl, rfl, rfl⟩ := h
          exact Or.inl ⟨rfl, rfl⟩
        · cases hnil
    · simp only [if_neg (Int.not_lt.mpr hstatus)] at h
      obtain ⟨rfl, rfl, rfl⟩ := h
      rw [haddrs]
      exact Or.inr ⟨_, rfl, hlistens⟩

theorem serverSetup_listens {port : String} {a : AddrInfo} {next : List AddrInfo} {s : Int}
    (haddrs : resolve port = a :: next) (hs : Lowest fds s) :
    (serverSetup port).Exec (setupCall resolve) e fds (some ⟨s, 0, []⟩) e
      (Function.update fds s (some (.socket (some a.addr)))) := by
  have hbind : (bindLoop a.protocol 0 (-1) (a :: next)).Exec (setupCall resolve) e fds
      (some (0, s)) e (Function.update fds s (some (.socket (some a.addr)))) := by
    simp only [bindLoop, call, Prog.sys_bind, Prog.exec_call]
    refine ⟨s, _, Or.inr ⟨hs, rfl⟩, ?_⟩
    rw [if_neg (Int.not_lt.mpr hs.1)]
    exact ⟨(0 : Int), Function.update fds s (some (.socket (some a.addr))),
      Or.inr ⟨le_refl _, Function.update_self .., (Function.update_idem ..).symm⟩, rfl, rfl, rfl⟩
  simp only [serverSetup, call, Prog.sys_bind]
  refine ⟨a :: next, fds, ⟨haddrs.symm, rfl⟩, ?_⟩
  exact Prog.exec_bind.mpr ⟨some (0, s), e, _, hbind, rfl, rfl, rfl⟩

/-! ### The command line -/

/-- The three arguments about one peer. -/
structure PeerArgs where
  id : String
  hostname : String
  port : String

namespace PeerArgs
variable (a : PeerArgs)

def peer : Peer :=
  Praxis2.peerInit (UInt16.ofNat (CNumber.strtoul a.id).1) a.hostname
    (UInt16.ofInt (CNumber.strtol a.port).1)

def Converts : Prop := (CNumber.strtol a.port).2 = false

/-- A negative number passes. -/
def Fits : Prop := a.Converts ∧ (CNumber.strtol a.port).1 ≤ 65535

instance : Decidable a.Converts := inferInstanceAs (Decidable (_ = _))

instance : Decidable a.Fits := inferInstanceAs (Decidable (_ ∧ _))

end PeerArgs

def argv (prog : String) (self pred succ : PeerArgs) (rest : List String) : List String :=
  prog :: self.id :: self.hostname :: self.port :: pred.id :: pred.hostname :: pred.port ::
    succ.id :: succ.hostname :: succ.port :: rest

/-- The three ids are in range of `unsigned long`. -/
def IdsConvert (self pred succ : PeerArgs) : Prop :=
  (CNumber.strtoul self.id).2 = false ∧ (CNumber.strtoul pred.id).2 = false ∧
    (CNumber.strtoul succ.id).2 = false

instance (self pred succ : PeerArgs) : Decidable (IdsConvert self pred succ) :=
  inferInstanceAs (Decidable (_ ∧ _))

/-- The globals after the three calls of `peer_init`: a number out of range leaves its
mark in `errno` for all that come later. -/
def globals (self pred succ : PeerArgs) (s : Int) : Globals where
  self := if IdsConvert self pred succ ∧ self.Fits then some self.peer else none
  pred := if IdsConvert self pred succ ∧ self.Converts ∧ pred.Fits then some pred.peer else none
  succ := if IdsConvert self pred succ ∧ self.Converts ∧ pred.Converts ∧ succ.Fits then
    some succ.peer else none
  srv := ⟨s, 0, []⟩

theorem builtPeer_eq (a : PeerArgs) {P : Prop} [Decidable P] (hP : e = 0 ↔ P) :
    builtPeer (UInt16.ofNat (CNumber.strtoul a.id).1) a.hostname a.port
      (errnoAfter e (CNumber.strtol a.port).2) = if P ∧ a.Fits then some a.peer else none := by
  have hzero : errnoAfter e (CNumber.strtol a.port).2 = 0 ↔ P ∧ a.Converts := by
    rw [errnoAfter_zero, hP, PeerArgs.Converts]
  by_cases hgood : P ∧ a.Fits
  · rw [builtPeer, if_neg, if_pos hgood, PeerArgs.peer]
    rw [not_or, not_not, Int.not_lt]
    exact ⟨hzero.mpr ⟨hgood.1, hgood.2.1⟩, hgood.2.2⟩
  · rw [builtPeer, if_pos, if_neg hgood]
    by_contra hbad
    rw [not_or, not_not, Int.not_lt] at hbad
    exact hgood ⟨(hzero.mp hbad.1).1, (hzero.mp hbad.1).2, hbad.2⟩

/-- `errno` behind the three ids. -/
def errnoIds (self pred succ : PeerArgs) : Int :=
  errnoAfter (errnoAfter (errnoAfter 0 (CNumber.strtoul self.id).2) (CNumber.strtoul pred.id).2)
    (CNumber.strtoul succ.id).2

/-- And behind the ports. -/
def errnoPorts (self pred succ : PeerArgs) : Int :=
  errnoAfter (errnoAfter (errnoAfter (errnoIds self pred succ) (CNumber.strtol self.port).2)
    (CNumber.strtol pred.port).2) (CNumber.strtol succ.port).2

theorem exec_main {prog : String} {self pred succ : PeerArgs} {rest : List String}
    {res : Option Globals} :
    (main (argv prog self pred succ rest)).Exec (setupCall resolve) 0 fds res e' fds' ↔
      ∃ srv e1 fds1, (serverSetup self.port).Exec (setupCall resolve) (errnoPorts self pred succ) fds
        srv e1 fds1 ∧ e' = e1 ∧ fds' = fds1 ∧
          res = srv.map fun srv => { globals self pred succ 0 with srv := srv } := by
  have hids : errnoIds self pred succ = 0 ↔ IdsConvert self pred succ := by
    rw [errnoIds, errnoAfter_zero, errnoAfter_zero, errnoAfter_zero, IdsConvert, and_assoc, and_assoc]
    exact and_iff_right rfl
  have hself := errnoAfter_zero.trans (and_congr_left fun _ : self.Converts => hids)
  have hpred := errnoAfter_zero.trans (and_congr_left fun _ : pred.Converts => hself)
  simp only [main, argv, exec_strtoul_bind]
  rw [← errnoIds]
  simp only [exec_peerInit_bind, builtPeer_eq self hids, builtPeer_eq pred hself,
    builtPeer_eq succ hpred, and_assoc]
  rw [← errnoPorts, Prog.exec_bind]
  constructor
  · rintro ⟨srv, e1, fds1, hsetup, h⟩
    cases srv with
    | none =>
      obtain ⟨_, _, rfl, rfl, rfl, rfl⟩ := h
      exact ⟨none, _, _, hsetup, rfl, rfl, rfl⟩
    | some srv =>
      obtain ⟨rfl, rfl, rfl⟩ := h
      exact ⟨some srv, _, _, hsetup, rfl, rfl, rfl⟩
  · rintro ⟨srv, e1, fds1, hsetup, rfl, rfl, rfl⟩
    cases srv with
    | none => exact ⟨none, _, _, hsetup, (), _, rfl, rfl, rfl, rfl⟩
    | some srv => exact ⟨some srv, _, _, hsetup, rfl, rfl, rfl⟩

theorem main_runs {prog : String} {self pred succ : PeerArgs} {rest : List String}
    {res : Option Globals}
    (h : (main (argv prog self pred succ rest)).Exec (setupCall resolve) 0 fds res e' fds') :
    (res = none ∧ fds' = fds) ∨ ∃ s, res = some (globals self pred succ s) ∧
      Listens fds (resolve self.port) s fds' := by
  obtain ⟨srv, e1, fds1, hsetup, rfl, rfl, rfl⟩ := exec_main.mp h
  obtain ⟨rfl, rfl⟩ | ⟨s, rfl, hlistens⟩ := exec_serverSetup hsetup
  · exact Or.inl ⟨rfl, rfl⟩
  · exact Or.inr ⟨s, rfl, hlistens⟩

theorem main_listens {prog : String} {self pred succ : PeerArgs} {rest : List String}
    {s : Int} (haddrs : resolve self.port ≠ []) (hs : Lowest fds s) : ∃ g e' fds',
      (main (argv prog self pred succ rest)).Exec (setupCall resolve) 0 fds (some g) e' fds' := by
  obtain ⟨a, next, hcons⟩ := List.exists_cons_of_ne_nil haddrs
  exact ⟨_, _, _, exec_main.mpr ⟨_, _, _, serverSetup_listens hcons hs, rfl, rfl, rfl⟩⟩

def launched (self pred succ : PeerArgs) (s : Int) : PeerState where
  ht := []
  rt := []
  self := self.peer
  pred := pred.peer
  succ := succ.peer
  srv := ⟨s, 0, []⟩

theorem globals_state (self pred succ : PeerArgs) (s : Int) :
    (globals self pred succ s).state =
      if IdsConvert self pred succ ∧ self.Fits ∧ pred.Fits ∧ succ.Fits then
        some (launched self pred succ s)
      else none := by
  by_cases hids : IdsConvert self pred succ
  · by_cases hself : self.Fits
    · by_cases hpred : pred.Fits
      · by_cases hsucc : succ.Fits
        · simp [Globals.state, globals, launched, hids, hself, hpred, hsucc, hself.1, hpred.1]
        · simp [Globals.state, globals, hsucc]
      · simp [Globals.state, globals, hpred]
    · simp [Globals.state, globals, hself]
  · simp [Globals.state, globals, hids]

/-- Every run of `main`: it ends without a descriptor more, or it goes into `server_run`
with the lowest free number bound to an address of its own port. Which of the peers are
`NULL` then depends on all the numbers that were converted before; none is when all are
in range and no port is above 65535. -/
theorem main_outcome {prog : String} {self pred succ : PeerArgs} {rest : List String}
    {res : Option Globals}
    (h : (main (argv prog self pred succ rest)).Exec (setupCall resolve) 0 fds res e' fds') :
    (res = none ∧ fds' = fds) ∨ ∃ s, res = some (globals self pred succ s) ∧
      Listens fds (resolve self.port) s fds' ∧ (globals self pred succ s).state =
        if IdsConvert self pred succ ∧ self.Fits ∧ pred.Fits ∧ succ.Fits then
          some (launched self pred succ s)
        else none := by
  obtain hnone | ⟨s, hres, hlistens⟩ := main_runs h
  · exact Or.inl hnone
  · exact Or.inr ⟨s, hres, hlistens, globals_state self pred succ s⟩

end

theorem lowest_startFds {s : Int} : Lowest startFds s ↔ s = 3 := by
  constructor
  · rintro ⟨hs, hfree, hless⟩
    have hused : ¬ (s = 0 ∨ s = 1 ∨ s = 2) := fun h => by
      rw [startFds, if_pos h] at hfree
      cases hfree
    by_contra hne
    have hthree := hless 3 (by decide) (by omega)
    exact hthree rfl
  · rintro rfl
    refine ⟨by decide, rfl, fun g hg hlt => ?_⟩
    rw [startFds, if_pos (by omega)]
    exact Option.some_ne_none _

def peer10 : PeerArgs := ⟨"10", "127.0.0.1", "4710"⟩

def peer20 : PeerArgs := ⟨"20", "127.0.0.1", "4711"⟩

def anyAddr : AddrInfo := ⟨2, 1, 6, [0, 0, 0, 0]⟩

/-- A predecessor whose port is out of range: the successor is `NULL` with it. -/
theorem main_outcome_outOfRange : ∃ g e' fds',
    (main (argv "peer" peer10 ⟨"20", "127.0.0.1", "99999999999999999999"⟩ peer20 [])).Exec
      (setupCall fun _ => [anyAddr]) 0 startFds (some g) e' fds' ∧
    g.self = some peer10.peer ∧ g.succ = none ∧ g.state = none := by
  obtain ⟨g, e', fds', h⟩ : ∃ g e' fds',
      (main (argv "peer" peer10 ⟨"20", "127.0.0.1", "99999999999999999999"⟩ peer20 [])).Exec
        (setupCall fun _ => [anyAddr]) 0 startFds (some g) e' fds' :=
    main_listens (List.cons_ne_nil _ _) (lowest_startFds.mpr rfl)
  obtain ⟨hnone, -⟩ | ⟨s, hg, -, hstate⟩ := main_outcome h
  · cases hnone
  · obtain rfl := Option.some.inj hg
    refine ⟨_, e', fds', h, ?_, ?_, hstate.trans (if_neg (by decide))⟩
    · simp only [globals]
      exact if_pos (by decide)
    · simp only [globals]
      exact if_neg (by decide)

/-! ### The peers of a ring -/

section
variable {ι : Type} [Fintype ι] (R : LinkedRing ι) {resolve : String → List AddrInfo}
  {fds fds' : Descriptors}

def ringArgs (i : ι) : PeerArgs := ⟨(R.id i).toNat.repr, R.hostname i, (R.port i).toNat.repr⟩

/-- How peer `i` is started. -/
def ringArgv (prog : String) (i : ι) : List String :=
  argv prog (ringArgs R i) (ringArgs R (R.pred i)) (ringArgs R (R.succ i)) []

def Descriptor.toLink : Descriptor → LinkEnd
  | .std => .std
  | .socket none => .unconnected
  | .socket (some _) => .listener

theorem ringArgs_id (i : ι) :
    CNumber.strtoul (ringArgs R i).id = ((R.id i).toNat, false) :=
  CNumber.strtoul_repr (by have := (R.id i).toNat_lt; omega)

theorem ringArgs_port (i : ι) :
    CNumber.strtol (ringArgs R i).port = (((R.port i).toNat : Int), false) :=
  CNumber.strtol_repr (by have := (R.port i).toNat_lt; omega)

theorem ringArgs_fits (i : ι) : (ringArgs R i).Fits := by
  have hport := (R.port i).toNat_lt
  refine ⟨congrArg Prod.snd (ringArgs_port R i), ?_⟩
  rw [ringArgs_port]
  show ((R.port i).toNat : Int) ≤ 65535
  omega

theorem ofInt_toNat (n : UInt16) : UInt16.ofInt n.toNat = n := by
  have hlt := n.toNat_lt
  have hmod : (((n.toNat : Int)) % 2 ^ 16).toNat = n.toNat := by omega
  rw [UInt16.ofInt, hmod, UInt16.ofNat_toNat]

theorem ringArgs_peer (i : ι) : (ringArgs R i).peer = R.peer i := by
  rw [PeerArgs.peer, ringArgs_id, ringArgs_port, ofInt_toNat, UInt16.ofNat_toNat]
  rfl

theorem ring_fds (i : ι) (addr : Bytes) (fd : Int) :
    (RingState.start R).fds i fd =
      (Function.update startFds 3 (some (.socket (some addr))) fd).map Descriptor.toLink := by
  by_cases h3 : fd = 3
  · subst h3
    rw [Function.update_self]
    rfl
  · rw [Function.update_of_ne h3, startFds]
    show (if fd = 0 ∨ fd = 1 ∨ fd = 2 then some LinkEnd.std
      else if fd = 3 then some LinkEnd.listener else none) = _
    rw [if_neg h3]
    split <;> rfl

theorem ring_globals (i : ι) :
    (globals (ringArgs R i) (ringArgs R (R.pred i)) (ringArgs R (R.succ i)) 3).state =
      some ((RingState.start R).peer i) := by
  have hids : IdsConvert (ringArgs R i) (ringArgs R (R.pred i)) (ringArgs R (R.succ i)) :=
    ⟨congrArg Prod.snd (ringArgs_id R _), congrArg Prod.snd (ringArgs_id R _),
      congrArg Prod.snd (ringArgs_id R _)⟩
  rw [globals_state, if_pos ⟨hids, ringArgs_fits R _, ringArgs_fits R _, ringArgs_fits R _⟩]
  simp only [launched, ringArgs_peer]
  rfl

/-- A peer of a ring that gets to `server_run` is where the runs of the ring start: the same
globals, and the same descriptors with the listening socket on its own port. It can get
there whenever there is an address to listen on. -/
theorem ring_launched (prog : String) (i : ι) :
    (∀ res e' fds', (main (ringArgv R prog i)).Exec (setupCall resolve) 0 startFds res e' fds' →
      (res = none ∧ fds' = startFds) ∨ ∃ g, res = some g ∧
        g.state = some ((RingState.start R).peer i) ∧
        (∃ r ∈ resolve (ringArgs R i).port, fds' g.srv.socket = some (.socket (some r.addr))) ∧
        ∀ fd, (RingState.start R).fds i fd = (fds' fd).map Descriptor.toLink) ∧
    (resolve (ringArgs R i).port ≠ [] → ∃ g e' fds',
      (main (ringArgv R prog i)).Exec (setupCall resolve) 0 startFds (some g) e' fds') := by
  refine ⟨fun res e' fds' => ?_, fun haddrs => main_listens haddrs (lowest_startFds.mpr rfl)⟩
  refine Function.comp ?_ main_runs
  rintro (hnone | ⟨s, rfl, hlow, r, hr, rfl⟩)
  · exact Or.inl hnone
  · obtain rfl := lowest_startFds.mp hlow
    exact Or.inr ⟨_, rfl, ring_globals R i, ⟨r, hr, Function.update_self ..⟩, ring_fds R i r.addr⟩

end

end PeerMain

end RN2223.Praxis2

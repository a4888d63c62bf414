import RN2223.Praxis2.Kernel
import RN2223.Praxis2.Ring

/-!
# Sockets of clients with open requests

One peer over its whole life: connections come and go, the kernel reuses their
numbers, packets are received and handled, marked clients are swept. Which
connection issued an open request is kept beside the request table, which has
the bare number only.
-/

namespace RN2223.Praxis2
open CMemory

/-! ### The client list -/

def replaceClient (srv : Server) (c : Client) : Server :=
  { srv with clients := srv.clients.map fun x => if x.socket = c.socket then c else x }

theorem markSocket_cases (cs : List Client) (socket : Int) : ∀ c ∈ markSocket cs socket,
    c ∈ cs ∨ ∃ c0 ∈ cs, c0.socket = socket ∧ c = { c0 with state := .remove } := by
  induction cs with
  | nil => exact fun c hc => absurd hc List.not_mem_nil
  | cons x xs ih =>
    intro c hc
    rw [markSocket] at hc
    split at hc
    · next hx =>
      rcases List.mem_cons.mp hc with rfl | hc
      · exact Or.inr ⟨x, List.mem_cons_self .., hx, rfl⟩
      · exact Or.inl (List.mem_cons_of_mem _ hc)
    · rcases List.mem_cons.mp hc with rfl | hc
      · exact Or.inl (List.mem_cons_self ..)
      · rcases ih c hc with hold | ⟨c0, h0, hmark⟩
        · exact Or.inl (List.mem_cons_of_mem _ hold)
        · exact Or.inr ⟨c0, List.mem_cons_of_mem _ h0, hmark⟩

theorem markSocket_sockets (cs : List Client) (socket : Int) :
    (markSocket cs socket).map Client.socket = cs.map Client.socket := by
  induction cs with
  | nil => rfl
  | cons x xs ih =>
    rw [markSocket]
    split
    · rfl
    · rw [List.map_cons, ih, List.map_cons]

theorem markSocket_marks {cs : List Client} {socket : Int}
    (hd : (cs.map Client.socket).Pairwise fun a b => a = b → a ≠ socket) :
    ∀ c ∈ markSocket cs socket, c.socket = socket → c.state = .remove := by
  induction cs with
  | nil => exact fun c hc => absurd hc List.not_mem_nil
  | cons x xs ih =>
    rw [List.map_cons, List.pairwise_cons] at hd
    intro c hc hsocket
    rw [markSocket] at hc
    split at hc
    · next hx =>
      rcases List.mem_cons.mp hc with rfl | hc
      · rfl
      · exact absurd hx (hd.1 c.socket (List.mem_map_of_mem hc) (hx.trans hsocket.symm))
    · next hx =>
      rcases List.mem_cons.mp hc with rfl | hc
      · exact absurd hsocket hx
      · exact ih hd.2 c hc hsocket

theorem markAll_sockets (srv : Server) (rs : List Request) :
    (markAll srv rs).clients.map Client.socket = srv.clients.map Client.socket := by
  induction rs generalizing srv with
  | nil => rfl
  | cons r rs ih => exact (ih (serverCloseSocket srv r.socket)).trans (markSocket_sockets _ _)

theorem markAll_cases (srv : Server) (rs : List Request) : ∀ c ∈ (markAll srv rs).clients,
    ∃ c0 ∈ srv.clients, c.socket = c0.socket ∧ c.pktBuf = c0.pktBuf ∧ c.pack = c0.pack ∧
      (c.state = c0.state ∨ (c.state = .remove ∧ ∃ r ∈ rs, r.socket = c.socket)) := by
  induction rs generalizing srv with
  | nil => exact fun c hc => ⟨c, hc, rfl, rfl, rfl, Or.inl rfl⟩
  | cons r rs ih =>
    intro c hc
    obtain ⟨c1, h1, hsocket, hbuf, hpack, hstate⟩ := ih (serverCloseSocket srv r.socket) c hc
    rcases markSocket_cases srv.clients r.socket c1 h1 with hold | ⟨c0, h0, hr, rfl⟩
    · refine ⟨c1, hold, hsocket, hbuf, hpack, hstate.imp_right ?_⟩
      rintro ⟨hrem, r', hr', he⟩
      exact ⟨hrem, r', List.mem_cons_of_mem _ hr', he⟩
    · refine ⟨c0, h0, hsocket, hbuf, hpack, Or.inr ?_⟩
      rcases hstate with hrem | ⟨hrem, r', hr', he⟩
      · exact ⟨hrem, r, List.mem_cons_self .., by rw [hsocket, ← hr]⟩
      · exact ⟨hrem, r', List.mem_cons_of_mem _ hr', he⟩

theorem markAll_marks {rs : List Request} {srv : Server}
    (hd : ∀ r ∈ rs, (srv.clients.map Client.socket).Pairwise fun a b => a = b → a ≠ r.socket) :
    ∀ r ∈ rs, ∀ c ∈ (markAll srv rs).clients, c.socket = r.socket → c.state = .remove := by
  induction rs generalizing srv with
  | nil => exact fun r hr => absurd hr List.not_mem_nil
  | cons r0 rs ih =>
    intro r hr c hc hsocket
    rcases List.mem_cons.mp hr with rfl | hr
    · obtain ⟨c0, h0, hc0, -, -, hstate | ⟨hrem, -⟩⟩ := markAll_cases _ rs c hc
      · rw [hstate]
        exact markSocket_marks (hd r (List.mem_cons_self ..)) c0 h0 (hc0.symm.trans hsocket)
      · exact hrem
    · have hrest : ∀ r ∈ rs, ((serverCloseSocket srv r0.socket).clients.map
          Client.socket).Pairwise fun a b => a = b → a ≠ r.socket := by
        intro r' hr'
        rw [serverCloseSocket, markSocket_sockets]
        exact hd r' (List.mem_cons_of_mem _ hr')
      exact ih hrest r hr c hc hsocket

/-! ### Reception -/

def Client.HeaderOnly (c : Client) : Prop :=
  c.pktBuf ≠ none → ∀ p, c.pack = some p → p.key = [] ∧ p.value = []

theorem packetDecodeHdr_noBody {buffer : Bytes} {n : ℕ} {p : Packet}
    (h : packetDecodeHdr buffer n = .ok (some p)) : p.key = [] ∧ p.value = [] := by
  unfold packetDecodeHdr at h
  split at h
  · cases h
  · obtain ⟨b0, -, h⟩ := bind_eq_ok.mp h
    obtain ⟨b1, -, h⟩ := bind_eq_ok.mp h
    obtain ⟨b2, -, h⟩ := bind_eq_ok.mp h
    obtain ⟨b3, -, h⟩ := bind_eq_ok.mp h
    obtain ⟨b4, -, h⟩ := bind_eq_ok.mp h
    obtain ⟨b5, -, h⟩ := bind_eq_ok.mp h
    obtain ⟨b6, -, h⟩ := bind_eq_ok.mp h
    split at h <;> cases h <;> exact ⟨rfl, rfl⟩

theorem decodeField_length {buffer field : Bytes} {n : ℕ} (h : decodeField buffer n [] = .ok field) :
    field.length = n := by
  unfold decodeField at h
  split at h
  · exact (memcpy_ok h).2 ▸ rfl
  · next hn =>
    cases h
    rw [List.length_nil]
    omega

theorem packetDecodeBody_exact {p q : Packet} (hp : p.key = [] ∧ p.value = []) {buffer : Bytes}
    {n : ℕ} (h : packetDecodeBody p buffer n = .ok (some q))
    (hdata : flagSet q.flags pktFlagCtrl = false) : q.Exact := by
  unfold packetDecodeBody at h
  split at h
  · next hc =>
    obtain ⟨b0, -, h⟩ := bind_eq_ok.mp h
    obtain ⟨b1, -, h⟩ := bind_eq_ok.mp h
    obtain ⟨b2, -, h⟩ := bind_eq_ok.mp h
    obtain ⟨b3, -, h⟩ := bind_eq_ok.mp h
    cases h
    rw [hc] at hdata
    cases hdata
  · dsimp only at h
    split at h
    · cases h
    · obtain ⟨key, hkey, h⟩ := bind_eq_ok.mp h
      obtain ⟨value, hvalue, h⟩ := bind_eq_ok.mp h
      cases h
      rw [hp.1] at hkey
      rw [hp.2] at hvalue
      exact ⟨decodeField_length hkey, decodeField_length hvalue⟩

/-- What reception leaves in the record, and that it only delivers packets with
fitting buffers. -/
def Served.Ok (c : Client) : Served → Prop
  | .kept c' => c'.socket = c.socket ∧ c'.HeaderOnly ∧ (c'.state = .remove → c.state = .remove)
  | .deliver c' pack => c'.socket = c.socket ∧ c'.HeaderOnly ∧ c'.state = .idle ∧
      ∀ p, pack = some p → flagSet p.flags pktFlagCtrl = false → p.Exact
  | .closed => True

section
variable [Stack]

theorem serveIdle_ok {c : Client} {recv : ℕ → Recv} {out : Served} (hc : c.HeaderOnly)
    (h : serveIdle c recv = .ok out) : out.Ok c := by
  obtain ⟨n, -, h⟩ := bind_eq_ok.mp h
  split at h
  · dsimp only at h
    split at h
    · obtain ⟨c', hdec, h⟩ := bind_eq_ok.mp h
      cases h
      dsimp only [clientDecodeHdr] at hdec
      obtain ⟨pack, hhdr, hdec⟩ := bind_eq_ok.mp hdec
      cases pack with
      | none => cases hdec
      | some p =>
        cases hdec
        refine ⟨rfl, fun _ q hq => ?_, fun he => nomatch he⟩
        cases hq
        exact packetDecodeHdr_noBody hhdr
    · cases h
      exact ⟨rfl, hc, id⟩
  · cases h
    trivial
  · cases h
    exact ⟨rfl, hc, id⟩

theorem serveBody_ok {c : Client} {b : RingBuffer} {recv : ℕ → Recv} {out : Served}
    (hc : c.HeaderOnly) (hb : c.pktBuf = some b) (h : serveBody c b recv = .ok out) :
    out.Ok c := by
  have hhdr : ∀ p, c.pack = some p → p.key = [] ∧ p.value = [] := hc (by simp [hb])
  obtain ⟨n, -, h⟩ := bind_eq_ok.mp h
  split at h
  · dsimp only at h
    split at h
    · obtain ⟨c', hdec, h⟩ := bind_eq_ok.mp h
      cases h
      obtain ⟨_, pack, q, -, hpack, hbody, rfl⟩ := clientDecodeBody_cases hdec
      refine ⟨rfl, fun hne => absurd rfl hne, rfl, fun p hp hdata => ?_⟩
      cases hp
      exact packetDecodeBody_exact (hhdr pack hpack) hbody hdata
    · cases h
      exact ⟨rfl, fun _ => hhdr, id⟩
  · cases h
    trivial
  · cases h
    exact ⟨rfl, hc, id⟩

theorem serveClient_ok {c : Client} {recv : ℕ → Recv} {out : Served} (hc : c.HeaderOnly)
    (h : serveClient c recv = .ok out) : out.Ok c := by
  unfold serveClient at h
  split at h
  · exact serveIdle_ok hc h
  · split at h
    · next b hb => exact serveBody_ok hc hb h
    · cases h

/-! ### One peer and its connections -/

/-- The service of a ready client (`server.c:158-200`). -/
def serveReady (c : Client) (recv : ℕ → Recv) : PeerM Unit := do
  match ← Sys.eval (serveClient c recv) with
  | .kept c' => modifyState fun s => { s with srv := replaceClient s.srv c' }
  | .deliver _ none => Sys.eval (.error .nullPointer)
  | .deliver c' (some p) =>
    modifyState fun s => { s with srv := replaceClient s.srv c' }
    serverDeliverPacket c'.socket p
  | .closed => serverRemoveClient c.socket

def delivered (c : Client) (recv : ℕ → Recv) : Option Packet :=
  match serveClient c recv with
  | .ok (.deliver _ pack) => pack
  | _ => none

end

/-- `issuers` has, in the order of the queues, the connection each open request
came from and its packet. -/
structure ServerWorld where
  peer : PeerState
  kernel : Kernel
  accepted : ℕ
  issuers : UInt16 → List (ℕ × Packet)

inductive ServerEvent where
  | accept (socket : Int)
  | serve (c : Client) (recv : ℕ → Recv) (conn : ℕ)
  | sweep

namespace ServerWorld

/-- The issuers after a packet of connection `conn`. -/
def issuersAfter (x : ServerWorld) (conn : ℕ) (p : Packet) : UInt16 → List (ℕ × Packet) :=
  match route x.peer p with
  | .ok (.register h) => Function.update x.issuers h (x.issuers h ++ [(conn, p)])
  | .ok .reply => Function.update x.issuers p.hashId []
  | _ => x.issuers

/-- `accept` fails or gives a free number; only open sockets are ever ready. -/
inductive Step [Stack] : ServerWorld → ServerEvent → ServerWorld → Prop where
  | accept (x : ServerWorld) (fd : Int) (s' : PeerState) (w w' : Kernel)
    (hfd : (fd = -1 ∧ w = x.kernel) ∨ (0 ≤ fd ∧ x.kernel.fds fd = none ∧
      w = x.kernel.setFd fd (some (.client x.accepted))))
    (hrun : (serverAddClient fd).Exec Praxis2.kernel x.peer w () s' w') :
    Step x (.accept fd) { x with peer := s', kernel := w', accepted := x.accepted + 1 }
  | serve (x : ServerWorld) (c : Client) (recv : ℕ → Recv) (conn : ℕ) (s' : PeerState) (w' : Kernel)
    (hc : c ∈ x.peer.srv.clients) (hconn : x.kernel.fds c.socket = some (.client conn))
    (hrun : (serveReady c recv).Exec Praxis2.kernel x.peer x.kernel () s' w') :
    Step x (.serve c recv conn) { x with
      peer := s', kernel := w',
      issuers := (delivered c recv).elim x.issuers (x.issuersAfter conn) }
  | sweep (x : ServerWorld) (s' : PeerState) (w' : Kernel)
    (hrun : serverSweep.Exec Praxis2.kernel x.peer x.kernel () s' w') :
    Step x .sweep { x with peer := s', kernel := w' }

/-- Each open request carries the packet of its issuer and the socket of the
issuer's connection, which is open. -/
def RequestsOwned (x : ServerWorld) : Prop :=
  ∀ h, List.Forall₂ x.kernel.Issued (getRequests x.peer.rt h) (x.issuers h)

end ServerWorld

def RTable.Unasked (table : RTable) (socket : Int) : Prop :=
  ∀ h, ∀ r ∈ getRequests table h, r.socket ≠ socket

/-- The request table a packet leaves behind, registrations apart. -/
def Route.remaining (table : RTable) (p : Packet) : Route → RTable
  | .reply => clearRequests table p.hashId
  | _ => table

/-- No client that the event removes has an open request left. -/
def ServerEvent.Safe [Stack] (x : ServerWorld) : ServerEvent → Prop
  | .accept _ => True
  | .serve c recv _ => (serveClient c recv = .ok .closed → x.peer.rt.Unasked c.socket) ∧
      ∀ p, delivered c recv = some p → ∀ r, route x.peer p = .ok r →
        (∃ h, r = .register h) ∨ (r.remaining x.peer.rt p).Unasked c.socket
  | .sweep => ∀ c ∈ x.peer.srv.clients, c.state = .remove → x.peer.rt.Unasked c.socket

/-- A REPLY marks the clients that issued the open requests, and these alone. -/
def MarksIssuers (x x' : ServerWorld) (p : Packet) : Prop :=
  ∀ c ∈ x'.peer.srv.clients,
    (c.state = .remove → (∃ c0 ∈ x.peer.srv.clients, c0.socket = c.socket ∧ c0.state = .remove) ∨
      ∃ q ∈ x.issuers p.hashId, x.kernel.fds c.socket = some (.client q.1)) ∧
    ∀ q ∈ x.issuers p.hashId, x.kernel.fds c.socket = some (.client q.1) → c.state = .remove

/-- Clients are sent what answers their own packets and nothing else. -/
def ServerEvent.Right [Stack] (x x' : ServerWorld) : ServerEvent → Prop
  | .serve c recv conn => match delivered c recv with
    | some p => ∀ r, route x.peer p = .ok r →
        (∃ es, x'.kernel.log = x.kernel.log ++ es ∧ r.Sends x.issuers conn p es) ∧
        (r = .reply → MarksIssuers x x' p)
    | none => x'.kernel.log = x.kernel.log
  | _ => x'.kernel.log = x.kernel.log

/-! ### The invariant -/

def Server.sockets (srv : Server) : List Int := srv.clients.map Client.socket

structure ClientsOk (x : ServerWorld) : Prop where
  minusOne : x.kernel.fds (-1) = none
  std : x.kernel.fds 0 = some .std
  succ : x.peer.succ.socket = -1 ∨ ∃ b, x.kernel.fds x.peer.succ.socket = some (.outgoing b)
  record : ∀ fd ∈ x.peer.srv.sockets, fd = -1 ∨ ∃ k, x.kernel.fds fd = some (.client k)
  distinct : x.peer.srv.sockets.Pairwise fun a b => a = b → a = -1
  marked : ∀ c ∈ x.peer.srv.clients, c.state = .remove → c.socket ≠ -1
  headerOnly : ∀ c ∈ x.peer.srv.clients, c.HeaderOnly
  conn : ∀ fd fd' k, x.kernel.fds fd = some (.client k) → x.kernel.fds fd' = some (.client k) →
    fd = fd'
  old : ∀ fd k, x.kernel.fds fd = some (.client k) → k < x.accepted
  unique : x.peer.rt.Unique
  owned : x.RequestsOwned

section
variable {x : ServerWorld}

theorem succ_not_client (h : ClientsOk x) (k : ℕ) :
    x.kernel.fds x.peer.succ.socket ≠ some (.client k) := by
  intro hk
  rcases h.succ with hneg | ⟨b, hb⟩
  · rw [hneg, h.minusOne] at hk
    cases hk
  · rw [hb] at hk
    cases hk

theorem replaceClient_sockets (srv : Server) (c : Client) :
    (replaceClient srv c).sockets = srv.sockets := by
  simp only [Server.sockets, replaceClient, List.map_map]
  refine List.map_congr_left fun y _ => ?_
  by_cases hy : y.socket = c.socket
  · simp [hy]
  · simp [hy]

theorem replaceClient_cases {srv : Server} {c : Client} : ∀ y ∈ (replaceClient srv c).clients,
    y ∈ srv.clients ∨ y = c := by
  intro y hy
  obtain ⟨z, hz, rfl⟩ := List.mem_map.mp hy
  split
  · exact Or.inr rfl
  · exact Or.inl hz

theorem clientsOk_replace (h : ClientsOk x) {c c' : Client} (hc : c ∈ x.peer.srv.clients)
    (hsocket : c'.socket = c.socket) (hhdr : c'.HeaderOnly)
    (hstate : c'.state = .remove → c.state = .remove) :
    ClientsOk { x with peer := { x.peer with srv := replaceClient x.peer.srv c' } } := by
  refine { h with record := ?_, distinct := ?_, marked := fun y hy hrem => ?_, headerOnly := fun y hy => ?_ }
  · rw [replaceClient_sockets]
    exact h.record
  · rw [replaceClient_sockets]
    exact h.distinct
  · rcases replaceClient_cases y hy with hold | rfl
    · exact h.marked y hold hrem
    · rw [hsocket]
      exact h.marked c hc (hstate hrem)
  · rcases replaceClient_cases y hy with hold | rfl
    · exact h.headerOnly y hold
    · exact hhdr

/-! ### Removing a client -/

theorem forall₂_of_mem {α β : Type} {r r' : α → β → Prop} {l : List α} {l' : List β}
    (h : List.Forall₂ r l l') (hr : ∀ a ∈ l, ∀ b ∈ l', r a b → r' a b) : List.Forall₂ r' l l' := by
  induction h with
  | nil => exact .nil
  | cons hab _ ih =>
    refine .cons (hr _ (List.mem_cons_self ..) _ (List.mem_cons_self ..) hab) (ih fun a ha b hb => ?_)
    exact hr a (List.mem_cons_of_mem _ ha) b (List.mem_cons_of_mem _ hb)

/-- The only socket that may be there twice is the one of a failed `accept`. -/
theorem erase_distinct {fds : List Int} (hd : fds.Pairwise fun a b => a = b → a = -1) {fd : Int}
    (hfd : fd ≠ -1) : fd ∉ fds.erase fd := by
  induction fds with
  | nil => exact List.not_mem_nil
  | cons a rest ih =>
    rw [List.pairwise_cons] at hd
    by_cases ha : a = fd
    · subst ha
      rw [List.erase_cons_head]
      exact fun hmem => hfd (hd.1 a hmem rfl)
    · rw [List.erase_cons_tail (by simpa using ha), List.mem_cons]
      rintro (rfl | hmem)
      · exact ha rfl
      · exact ih hd.2 hmem

theorem unlinkClient_sockets (srv : Server) (fd : Int) :
    (unlinkClient srv fd).sockets = srv.sockets.erase fd := by
  rw [Server.sockets, Server.sockets, List.erase_eq_eraseP, List.eraseP_map]
  have hsame : (fun c : Client => c.socket == fd) = (BEq.beq fd) ∘ Client.socket := by
    funext c
    exact Bool.eq_iff_iff.mpr (by rw [Function.comp_apply, beq_iff_eq, beq_iff_eq, eq_comm])
  rw [unlinkClient, hsame]

theorem serverRemoveClient_kernel {fd : Int} {s s' : PeerState} {w w' : Kernel}
    (he : (serverRemoveClient fd).Exec kernel s w () s' w') :
    (fd ∈ s.srv.sockets ∧ s' = { s with srv := unlinkClient s.srv fd } ∧ w' = w.setFd fd none) ∨
      (fd ∉ s.srv.sockets ∧ s' = s ∧ w' = w) := by
  rw [serverRemoveClient, readState, Prog.read_bind, Prog.exec_get] at he
  have hany : (s.srv.clients.any fun c => c.socket == fd) = true ↔ fd ∈ s.srv.sockets := by
    simp [Server.sockets]
  split at he
  · next hin =>
    obtain ⟨_, _, rfl, -, rfl, rfl⟩ := he
    exact Or.inl ⟨hany.mp hin, rfl, rfl⟩
  · next hin =>
    obtain ⟨-, rfl, rfl⟩ := he
    exact Or.inr ⟨fun hmem => hin (hany.mpr hmem), rfl, rfl⟩

theorem clientsOk_remove (h : ClientsOk x) {fd : Int} (hfd : fd ≠ -1)
    (hmem : fd ∈ x.peer.srv.sockets) (hun : x.peer.rt.Unasked fd) :
    ClientsOk { x with
      peer := { x.peer with srv := unlinkClient x.peer.srv fd }
      kernel := x.kernel.setFd fd none } := by
  obtain ⟨k, hk⟩ := (h.record fd hmem).resolve_left hfd
  have hother : ∀ y e, x.kernel.fds y = some e → e ≠ .client k → y ≠ fd := by
    intro y e hy he hyfd
    rw [hyfd, hk, Option.some.injEq] at hy
    exact he hy.symm
  have hback : ∀ y e, (x.kernel.setFd fd none).fds y = some e → x.kernel.fds y = some e := by
    intro y e hy
    by_cases hyfd : y = fd
    · rw [hyfd, Kernel.setFd_self] at hy
      cases hy
    · rwa [Kernel.setFd_ne _ hyfd] at hy
  have hsub : ∀ c ∈ (unlinkClient x.peer.srv fd).clients, c ∈ x.peer.srv.clients :=
    fun c hc => List.mem_of_mem_eraseP hc
  refine { h with
    minusOne := ?_, std := ?_, succ := ?_, record := fun y hy => ?_, distinct := ?_,
    marked := fun c hc => h.marked c (hsub c hc),
    headerOnly := fun c hc => h.headerOnly c (hsub c hc),
    conn := fun a b k ha hb => h.conn a b k (hback a _ ha) (hback b _ hb),
    old := fun a k ha => h.old a k (hback a _ ha), owned := fun hh => ?_ }
  · show (x.kernel.setFd fd none).fds (-1) = none
    rw [Kernel.setFd_ne _ (Ne.symm hfd), h.minusOne]
  · show (x.kernel.setFd fd none).fds 0 = some .std
    rw [Kernel.setFd_ne _ (hother 0 _ h.std (fun he => nomatch he)), h.std]
  · refine h.succ.imp_right fun ⟨b, hb⟩ => ⟨b, ?_⟩
    show (x.kernel.setFd fd none).fds x.peer.succ.socket = _
    rw [Kernel.setFd_ne _ (hother _ _ hb (fun he => nomatch he)), hb]
  · rw [unlinkClient_sockets] at hy
    rcases h.record y (List.mem_of_mem_erase hy) with hneg | ⟨k', hk'⟩
    · exact Or.inl hneg
    · refine Or.inr ⟨k', ?_⟩
      show (x.kernel.setFd fd none).fds y = _
      rw [Kernel.setFd_ne, hk']
      rintro rfl
      exact erase_distinct h.distinct hfd hy
  · show (unlinkClient x.peer.srv fd).sockets.Pairwise _
    rw [unlinkClient_sockets]
    exact h.distinct.sublist List.erase_sublist
  · refine forall₂_of_mem (h.owned hh) fun r hr q _ hrq => ⟨hrq.1, ?_⟩
    exact (Kernel.setFd_ne _ (hun hh r hr) none).trans hrq.2

/-! ### Accepting a client -/

theorem clientsOk_acceptFailed (h : ClientsOk x) : ClientsOk { x with
    peer := { x.peer with srv := { x.peer.srv with
      clients := newClient (-1) :: x.peer.srv.clients, nClients := x.peer.srv.nClients + 1 } }
    accepted := x.accepted + 1 } := by
  refine { h with
    record := fun fd hfd => ?_, distinct := ?_, marked := fun c hc hrem => ?_,
    headerOnly := fun c hc => ?_, old := fun fd k hk => Nat.lt_succ_of_lt (h.old fd k hk) }
  · rcases List.mem_cons.mp hfd with rfl | hfd
    · exact Or.inl rfl
    · exact h.record fd hfd
  · exact List.pairwise_cons.mpr ⟨fun _ _ _ => rfl, h.distinct⟩
  · rcases List.mem_cons.mp hc with rfl | hc
    · cases hrem
    · exact h.marked c hc hrem
  · rcases List.mem_cons.mp hc with rfl | hc
    · exact fun hne => absurd rfl hne
    · exact h.headerOnly c hc

theorem clientsOk_accept (h : ClientsOk x) {fd : Int} (hpos : 0 ≤ fd)
    (hfree : x.kernel.fds fd = none) : ClientsOk { x with
      peer := { x.peer with srv := { x.peer.srv with
        clients := newClient fd :: x.peer.srv.clients, nClients := x.peer.srv.nClients + 1 } }
      kernel := x.kernel.setFd fd (some (.client x.accepted))
      accepted := x.accepted + 1 } := by
  have hkept : ∀ y e, x.kernel.fds y = some e →
      (x.kernel.setFd fd (some (.client x.accepted))).fds y = some e := by
    intro y e hy
    rw [Kernel.setFd_ne _ (fun he => by rw [he, hfree] at hy; cases hy), hy]
  have hback : ∀ y k, (x.kernel.setFd fd (some (.client x.accepted))).fds y = some (.client k) →
      (y = fd ∧ k = x.accepted) ∨ x.kernel.fds y = some (.client k) := by
    intro y k hy
    by_cases hyfd : y = fd
    · rw [hyfd, Kernel.setFd_self, Option.some.injEq, Endpoint.client.injEq] at hy
      exact Or.inl ⟨hyfd, hy.symm⟩
    · rw [Kernel.setFd_ne _ hyfd] at hy
      exact Or.inr hy
  refine { h with
    minusOne := ?_, std := hkept 0 _ h.std,
    succ := h.succ.imp_right fun ⟨b, hb⟩ => ⟨b, hkept _ _ hb⟩,
    record := fun y hy => ?_, distinct := ?_, marked := fun c hc hrem => ?_,
    headerOnly := fun c hc => ?_, conn := fun a b k ha hb => ?_, old := fun a k ha => ?_,
    owned := fun hh => (h.owned hh).imp fun r q hrq => ⟨hrq.1, hkept _ _ hrq.2⟩ }
  · show (x.kernel.setFd fd _).fds (-1) = none
    rw [Kernel.setFd_ne _ (by omega), h.minusOne]
  · rcases List.mem_cons.mp hy with rfl | hy
    · exact Or.inr ⟨x.accepted, Kernel.setFd_self _ _ _⟩
    · exact (h.record y hy).imp_right fun ⟨k, hk⟩ => ⟨k, hkept y _ hk⟩
  · refine List.pairwise_cons.mpr ⟨fun y hy he => ?_, h.distinct⟩
    rcases h.record y hy with hneg | ⟨k, hk⟩
    · exact he.trans hneg
    · rw [← he] at hk
      cases hfree.symm.trans hk
  · rcases List.mem_cons.mp hc with rfl | hc
    · cases hrem
    · exact h.marked c hc hrem
  · rcases List.mem_cons.mp hc with rfl | hc
    · exact fun hne => absurd rfl hne
    · exact h.headerOnly c hc
  · rcases hback a k ha with ⟨ha', hnew⟩ | ha'
    · rcases hback b k hb with ⟨hb', -⟩ | hb'
      · rw [ha', hb']
      · exact absurd (h.old b k hb') (by omega)
    · rcases hback b k hb with ⟨-, hnew⟩ | hb'
      · exact absurd (h.old a k ha') (by omega)
      · exact h.conn a b k ha' hb'
  · rcases hback a k ha with ⟨-, rfl⟩ | ha'
    · exact Nat.lt_succ_self _
    · exact Nat.lt_succ_of_lt (h.old a k ha')

/-! ### Handling a packet -/

theorem clients_kept {s s' : PeerState} {w w' : Kernel} (h : HandlerFrame s s' w w') {fd : Int}
    {k : ℕ} (hk : w.fds fd = some (.client k)) : w'.fds fd = some (.client k) := by
  rcases h.uses.kept fd _ hk with ⟨-, he⟩ | hk'
  · cases he
  · exact hk'

theorem clients_back {s s' : PeerState} {w w' : Kernel} (h : HandlerFrame s s' w w') {fd : Int}
    {k : ℕ} (hk : w'.fds fd = some (.client k)) : w.fds fd = some (.client k) := by
  rcases h.uses.fresh fd _ hk with hk' | ⟨b, hb⟩
  · exact hk'
  · cases hb

theorem clientsOk_frame (h : ClientsOk x) {s' : PeerState} {w' : Kernel}
    (hf : HandlerFrame x.peer s' x.kernel w') (hsockets : s'.srv.sockets = x.peer.srv.sockets)
    (hmarked : ∀ c ∈ s'.srv.clients, c.state = .remove → c.socket ≠ -1)
    (hhdr : ∀ c ∈ s'.srv.clients, c.HeaderOnly) (hunique : s'.rt.Unique)
    {issuers : UInt16 → List (ℕ × Packet)}
    (howned : ∀ hh, List.Forall₂ x.kernel.Issued (getRequests s'.rt hh) (issuers hh)) :
    ClientsOk { x with peer := s', kernel := w', issuers := issuers } := by
  refine {
    minusOne := hf.uses.minusOne h.minusOne, std := ?_, succ := ?_, record := fun y hy => ?_,
    distinct := ?_, marked := hmarked, headerOnly := hhdr,
    conn := fun a b k ha hb => h.conn a b k (clients_back hf ha) (clients_back hf hb),
    old := fun a k ha => h.old a k (clients_back hf ha), unique := hunique,
    owned := fun hh => (howned hh).imp fun r q hrq => ⟨hrq.1, clients_kept hf hrq.2⟩ }
  · rcases hf.uses.kept 0 _ h.std with ⟨-, he⟩ | hstd
    · cases he
    · exact hstd
  · rcases hf.succ with (hneg | ⟨-, hb⟩) | ⟨hsame, hopens⟩
    · exact Or.inl hneg
    · exact Or.inr hb
    · rw [hsame]
      exact h.succ.imp_right fun ⟨b, hb⟩ => ⟨b, hopens.kept _ _ hb⟩
  · rw [hsockets] at hy
    exact (h.record y hy).imp_right fun ⟨k, hk⟩ => ⟨k, clients_kept hf hk⟩
  · rw [hsockets]
    exact h.distinct

/-- The queues and their issuers after a packet, in the sockets of before. -/
theorem owned_after (h : ClientsOk x) {p : Packet} {r : Route} (hr : route x.peer p = .ok r)
    (hexact : flagSet p.flags pktFlagCtrl = false → p.Exact) {csocket a : Int} {conn : ℕ}
    (hconn : x.kernel.fds csocket = some (.client conn)) {s' : PeerState}
    (ht : r.Tables csocket p x.peer s' a) : s'.rt.Unique ∧
      ∀ hh, List.Forall₂ x.kernel.Issued (getRequests s'.rt hh) (x.issuersAfter conn p hh) := by
  have hsame : ∀ {s' : PeerState}, s'.rt = x.peer.rt → s'.rt.Unique ∧
      ∀ hh, List.Forall₂ x.kernel.Issued (getRequests s'.rt hh) (x.issuers hh) := by
    intro s' hrt
    rw [hrt]
    exact ⟨h.unique, h.owned⟩
  rw [ServerWorld.issuersAfter, hr]
  cases r with
  | own => exact hsame ht.1
  | proxy => exact hsame ht.1
  | lookup => exact hsame ht.1
  | ignore => exact hsame ht.1
  | register hashId =>
    obtain ⟨table, hadd, hunique, hqueue, hother⟩ := addRequest_spec x.peer.rt hashId csocket
      (hexact (route_register_data hr))
    have hrt : s'.rt = table := Except.ok.inj (ht.1.symm.trans hadd)
    rw [hrt]
    refine ⟨hunique h.unique, fun hh => ?_⟩
    dsimp only
    by_cases he : hh = hashId
    · subst he
      rw [hqueue, Function.update_self]
      exact List.rel_append (h.owned hh) (.cons ⟨rfl, hconn⟩ .nil)
    · rw [hother hh he, Function.update_of_ne he]
      exact h.owned hh
  | reply =>
    rw [ht.1]
    refine ⟨clearRequests_unique h.unique _, fun hh => ?_⟩
    dsimp only
    by_cases he : hh = p.hashId
    · subst he
      rw [getRequests_clear_self h.unique, Function.update_self]
      exact .nil
    · rw [getRequests_clear_ne _ he, Function.update_of_ne he]
      exact h.owned hh

theorem forall₂_exists {α β : Type} {r : α → β → Prop} {l : List α} {l' : List β}
    (h : List.Forall₂ r l l') : (∀ a ∈ l, ∃ b ∈ l', r a b) ∧ ∀ b ∈ l', ∃ a ∈ l, r a b := by
  induction h with
  | nil => exact ⟨fun a ha => absurd ha List.not_mem_nil, fun b hb => absurd hb List.not_mem_nil⟩
  | @cons a b l l' hab _ ih =>
    refine ⟨fun c hc => ?_, fun c hc => ?_⟩
    · rcases List.mem_cons.mp hc with rfl | hc
      · exact ⟨b, List.mem_cons_self .., hab⟩
      · obtain ⟨d, hd, hcd⟩ := ih.1 c hc
        exact ⟨d, List.mem_cons_of_mem _ hd, hcd⟩
    · rcases List.mem_cons.mp hc with rfl | hc
      · exact ⟨a, List.mem_cons_self .., hab⟩
      · obtain ⟨d, hd, hdc⟩ := ih.2 c hc
        exact ⟨d, List.mem_cons_of_mem _ hd, hdc⟩

theorem tables_clients (h : ClientsOk x) {p : Packet} {r : Route} {csocket a : Int} {s' : PeerState}
    (ht : r.Tables csocket p x.peer s' a) : s'.srv.sockets = x.peer.srv.sockets ∧
      ∀ c ∈ s'.srv.clients, ∃ c0 ∈ x.peer.srv.clients, c.socket = c0.socket ∧
        c.pktBuf = c0.pktBuf ∧ c.pack = c0.pack ∧ (c.state = c0.state ∨ (r = .reply ∧
          c.state = .remove ∧ ∃ q ∈ x.issuers p.hashId, x.kernel.fds c.socket = some (.client q.1))) := by
  have hsame : s'.srv = x.peer.srv → s'.srv.sockets = x.peer.srv.sockets ∧
      ∀ c ∈ s'.srv.clients, ∃ c0 ∈ x.peer.srv.clients, c.socket = c0.socket ∧
        c.pktBuf = c0.pktBuf ∧ c.pack = c0.pack ∧ (c.state = c0.state ∨ (r = .reply ∧
          c.state = .remove ∧ ∃ q ∈ x.issuers p.hashId,
            x.kernel.fds c.socket = some (.client q.1))) := by
    intro hsrv
    rw [hsrv]
    exact ⟨rfl, fun c hc => ⟨c, hc, rfl, rfl, rfl, Or.inl rfl⟩⟩
  cases r with
  | own => exact hsame ht.2.1
  | proxy => exact hsame ht.2.1
  | lookup => exact hsame ht.2.1
  | ignore => exact hsame ht.2.1
  | register hashId => exact hsame ht.2.1
  | reply =>
    rw [ht.2.1]
    refine ⟨markAll_sockets _ _, fun c hc => ?_⟩
    obtain ⟨c0, h0, hsocket, hbuf, hpack, hstate⟩ := markAll_cases _ _ c hc
    refine ⟨c0, h0, hsocket, hbuf, hpack, hstate.imp_right ?_⟩
    rintro ⟨hrem, req, hreq, he⟩
    obtain ⟨q, hq, hissued⟩ := (forall₂_exists (h.owned p.hashId)).1 req hreq
    exact ⟨rfl, hrem, q, hq, by rw [← he]; exact hissued.2⟩

theorem clientsOk_handle (h : ClientsOk x) {csocket : Int} {conn : ℕ} {p : Packet}
    (hconn : x.kernel.fds csocket = some (.client conn))
    (hexact : flagSet p.flags pktFlagCtrl = false → p.Exact) {a : Int} {s' : PeerState}
    {w' : Kernel} (he : (handlePacket csocket p).Exec kernel x.peer x.kernel a s' w') :
    ∃ r, route x.peer p = .ok r ∧ r.Tables csocket p x.peer s' a ∧
      (∃ es, w'.log = x.kernel.log ++ es ∧ r.Sends x.issuers conn p es) ∧
      ClientsOk { x with peer := s', kernel := w', issuers := x.issuersAfter conn p } ∧
      w'.fds csocket = some (.client conn) := by
  obtain ⟨r, hr⟩ := route_of_exec (fun _ _ _ _ hf => hf) he
  obtain ⟨hf, ht, hsends⟩ := handlePacket_kernel hr h.minusOne h.std (succ_not_client h) hconn
    h.owned he
  obtain ⟨hsockets, hclients⟩ := tables_clients h ht
  obtain ⟨hunique, howned⟩ := owned_after h hr hexact hconn ht
  refine ⟨r, hr, ht, hsends, clientsOk_frame h hf hsockets (fun c hc hrem => ?_) (fun c hc => ?_)
    hunique howned, clients_kept hf hconn⟩
  · obtain ⟨c0, h0, hsocket, -, -, hstate | ⟨-, -, q, -, hq⟩⟩ := hclients c hc
    · rw [hsocket]
      exact h.marked c0 h0 (hstate ▸ hrem)
    · intro hneg
      rw [hneg, h.minusOne] at hq
      cases hq
  · obtain ⟨c0, h0, -, hbuf, hpack, -⟩ := hclients c hc
    intro hne q hq
    rw [hbuf] at hne
    rw [hpack] at hq
    exact h.headerOnly c0 h0 hne q hq

/-! ### Steps -/

theorem serverDeliverPacket_kernel {csocket : Int} {p : Packet} {s s' : PeerState} {w w' : Kernel}
    (he : (serverDeliverPacket csocket p).Exec kernel s w () s' w') :
    ∃ a s1 w1, (handlePacket csocket p).Exec kernel s w a s1 w1 ∧
      ((a = cbRemoveClient ∧ csocket ∈ s1.srv.sockets ∧
        s' = { s1 with srv := unlinkClient s1.srv csocket } ∧ w' = w1.setFd csocket none) ∨
      (s' = s1 ∧ w' = w1)) := by
  rw [serverDeliverPacket, Prog.exec_bind] at he
  obtain ⟨a, s1, w1, hhandle, he⟩ := he
  refine ⟨a, s1, w1, hhandle, ?_⟩
  split at he
  · next ha =>
    rcases serverRemoveClient_kernel he with ⟨hmem, hs, hw⟩ | ⟨-, hs, hw⟩
    · exact Or.inl ⟨ha, hmem, hs, hw⟩
    · exact Or.inr ⟨hs, hw⟩
  · exact Or.inr ⟨he.2.1, he.2.2⟩

theorem tables_remaining {p : Packet} {r : Route} {csocket a : Int} {s s' : PeerState}
    (ht : r.Tables csocket p s s' a) (hr : ∀ h, r ≠ .register h) : s'.rt = r.remaining s.rt p := by
  cases r with
  | register h => exact absurd rfl (hr h)
  | _ => exact ht.1

theorem clientsOk_deliver (h : ClientsOk x) {csocket : Int} {conn : ℕ} {p : Packet}
    (hconn : x.kernel.fds csocket = some (.client conn))
    (hexact : flagSet p.flags pktFlagCtrl = false → p.Exact)
    (hsafe : ∀ r, route x.peer p = .ok r →
      (∃ h, r = .register h) ∨ (r.remaining x.peer.rt p).Unasked csocket)
    {s' : PeerState} {w' : Kernel}
    (he : (serverDeliverPacket csocket p).Exec kernel x.peer x.kernel () s' w') :
    ClientsOk { x with peer := s', kernel := w', issuers := x.issuersAfter conn p } := by
  obtain ⟨a, s1, w1, hhandle, hend⟩ := serverDeliverPacket_kernel he
  obtain ⟨r, hr, ht, -, hok, hopen⟩ := clientsOk_handle h hconn hexact hhandle
  rcases hend with ⟨ha, hmem, rfl, rfl⟩ | ⟨rfl, rfl⟩
  · have hreg : ∀ hash, r ≠ .register hash := by
      rintro hash rfl
      exact absurd (ht.2.2.symm.trans ha) (by decide)
    have hun := (hsafe r hr).resolve_left fun ⟨hash, he⟩ => hreg hash he
    rw [← tables_remaining ht hreg] at hun
    refine clientsOk_remove hok (fun hneg => ?_) hmem hun
    rw [hneg, h.minusOne] at hconn
    cases hconn
  · exact hok

theorem deliver_right (h : ClientsOk x) {csocket : Int} {conn : ℕ} {p : Packet}
    (hconn : x.kernel.fds csocket = some (.client conn))
    (hexact : flagSet p.flags pktFlagCtrl = false → p.Exact) {s' : PeerState} {w' : Kernel}
    (he : (serverDeliverPacket csocket p).Exec kernel x.peer x.kernel () s' w') {r : Route}
    (hr : route x.peer p = .ok r) : (∃ es, w'.log = x.kernel.log ++ es ∧
      r.Sends x.issuers conn p es) ∧ ∀ issuers, r = .reply →
        MarksIssuers x { x with peer := s', kernel := w', issuers := issuers } p := by
  obtain ⟨a, s1, w1, hhandle, hend⟩ := serverDeliverPacket_kernel he
  obtain ⟨r', hr', ht, hsends, -⟩ := clientsOk_handle h hconn hexact hhandle
  obtain rfl : r = r' := Except.ok.inj (hr.symm.trans hr')
  have hlog : w'.log = w1.log := by
    rcases hend with ⟨-, -, -, rfl⟩ | ⟨-, rfl⟩ <;> rfl
  have hsub : ∀ c ∈ s'.srv.clients, c ∈ s1.srv.clients := by
    rcases hend with ⟨-, -, rfl, -⟩ | ⟨rfl, -⟩
    · exact fun c hc => List.mem_of_mem_eraseP hc
    · exact fun c hc => hc
  rw [hlog]
  refine ⟨hsends, fun issuers hreply c hc => ?_⟩
  obtain ⟨-, hclients⟩ := tables_clients h ht
  subst hreply
  refine ⟨fun hrem => ?_, fun q hq hfd => ?_⟩
  · obtain ⟨c0, h0, hsocket, -, -, hstate | ⟨-, -, hissuer⟩⟩ := hclients c (hsub c hc)
    · exact Or.inl ⟨c0, h0, hsocket.symm, hstate ▸ hrem⟩
    · exact Or.inr hissuer
  · obtain ⟨req, hreq, hissued⟩ := (forall₂_exists (h.owned p.hashId)).2 q hq
    have hmem := hsub c hc
    rw [ht.2.1] at hmem
    refine markAll_marks (fun req' hreq' => ?_) req hreq c hmem (h.conn _ _ q.1 hfd hissued.2)
    refine h.distinct.imp fun hab he hreq0 => ?_
    obtain ⟨q', -, hissued'⟩ := (forall₂_exists (h.owned p.hashId)).1 req' hreq'
    have hfd' := hissued'.2
    rw [← hreq0, hab he, h.minusOne] at hfd'
    cases hfd'

theorem clientsOk_removeMarked (cs : List Client) (h : ClientsOk x)
    (hcs : ∀ c ∈ cs, c.state = .remove → c.socket ≠ -1 ∧ x.peer.rt.Unasked c.socket)
    {s' : PeerState} {w' : Kernel}
    (he : (removeMarked cs).Exec kernel x.peer x.kernel () s' w') :
    ClientsOk { x with peer := s', kernel := w' } := by
  induction cs generalizing x with
  | nil =>
    obtain ⟨-, rfl, rfl⟩ := he
    exact h
  | cons c cs ih =>
    rw [removeMarked] at he
    split at he
    · next hrem =>
      rw [Prog.exec_bind] at he
      obtain ⟨_, s1, w1, hone, he⟩ := he
      have hc := hcs c (List.mem_cons_self ..) hrem
      rcases serverRemoveClient_kernel hone with ⟨hmem, rfl, rfl⟩ | ⟨-, rfl, rfl⟩
      · exact ih (x := { x with
          peer := { x.peer with srv := unlinkClient x.peer.srv c.socket }
          kernel := x.kernel.setFd c.socket none }) (clientsOk_remove h hc.1 hmem hc.2)
          (fun c' hc' => hcs c' (List.mem_cons_of_mem _ hc')) he
      · exact ih h (fun c' hc' => hcs c' (List.mem_cons_of_mem _ hc')) he
    · exact ih h (fun c' hc' => hcs c' (List.mem_cons_of_mem _ hc')) he

theorem serveReady_clientsOk [Stack] (h : ClientsOk x) {c : Client} {recv : ℕ → Recv} {conn : ℕ}
    (hc : c ∈ x.peer.srv.clients) (hconn : x.kernel.fds c.socket = some (.client conn))
    (hsafe : ServerEvent.Safe x (.serve c recv conn)) {s' : PeerState} {w' : Kernel}
    (he : (serveReady c recv).Exec kernel x.peer x.kernel () s' w') :
    ClientsOk { x with
      peer := s', kernel := w', issuers := (delivered c recv).elim x.issuers (x.issuersAfter conn) } := by
  have hneg : c.socket ≠ -1 := fun hneg => by
    rw [hneg, h.minusOne] at hconn
    cases hconn
  rw [serveReady] at he
  rw [ServerEvent.Safe] at hsafe
  cases hserve : serveClient c recv with
  | error f =>
    rw [hserve] at he
    obtain ⟨_, _, hcrash, -⟩ := he
    exact hcrash.elim
  | ok out =>
    have hout := serveClient_ok (h.headerOnly c hc) hserve
    rw [hserve, eval_ok, Prog.ret_bind] at he
    rw [hserve] at hsafe
    unfold delivered at hsafe ⊢
    rw [hserve] at hsafe ⊢
    cases out with
    | kept c' =>
      obtain ⟨-, rfl, rfl⟩ := he
      exact clientsOk_replace h hc hout.1 hout.2.1 hout.2.2
    | closed =>
      rcases serverRemoveClient_kernel he with ⟨hmem, rfl, rfl⟩ | ⟨-, rfl, rfl⟩
      · exact clientsOk_remove h hneg hmem (hsafe.1 rfl)
      · exact h
    | deliver c' pack =>
      cases pack with
      | none =>
        obtain ⟨_, _, hcrash, -⟩ := he
        exact hcrash.elim
      | some p =>
        obtain ⟨hsocket, hhdr, hidle, hexact⟩ := hout
        have hok := clientsOk_replace h hc hsocket hhdr fun hrem => nomatch hidle.symm.trans hrem
        rw [← hsocket] at hconn hsafe
        exact clientsOk_deliver hok hconn (hexact p rfl) (hsafe.2 p rfl) he

theorem serveReady_right [Stack] (h : ClientsOk x) {c : Client} {recv : ℕ → Recv} {conn : ℕ}
    (hc : c ∈ x.peer.srv.clients) (hconn : x.kernel.fds c.socket = some (.client conn))
    {s' : PeerState} {w' : Kernel} (issuers : UInt16 → List (ℕ × Packet))
    (he : (serveReady c recv).Exec kernel x.peer x.kernel () s' w') :
    (ServerEvent.serve c recv conn).Right x
      { x with peer := s', kernel := w', issuers := issuers } := by
  rw [serveReady] at he
  rw [ServerEvent.Right, delivered]
  cases hserve : serveClient c recv with
  | error f =>
    rw [hserve] at he
    obtain ⟨_, _, hcrash, -⟩ := he
    exact hcrash.elim
  | ok out =>
    have hout := serveClient_ok (h.headerOnly c hc) hserve
    rw [hserve, eval_ok, Prog.ret_bind] at he
    cases out with
    | kept c' =>
      obtain ⟨-, rfl, rfl⟩ := he
      rfl
    | closed =>
      rcases serverRemoveClient_kernel he with ⟨-, rfl, rfl⟩ | ⟨-, rfl, rfl⟩ <;> rfl
    | deliver c' pack =>
      cases pack with
      | none =>
        obtain ⟨_, _, hcrash, -⟩ := he
        exact hcrash.elim
      | some p =>
        obtain ⟨hsocket, hhdr, hidle, hexact⟩ := hout
        have hok := clientsOk_replace h hc hsocket hhdr fun hrem => nomatch hidle.symm.trans hrem
        rw [← hsocket] at hconn
        intro r hr
        obtain ⟨hsends, hmarks⟩ := deliver_right hok hconn (hexact p rfl) he hr
        refine ⟨hsends, fun hreply c1 hc1 => ?_⟩
        obtain ⟨hmark, hall⟩ := hmarks issuers hreply c1 hc1
        refine ⟨fun hrem => (hmark hrem).imp_left ?_, hall⟩
        rintro ⟨c0, h0, hs0, hrem0⟩
        rcases replaceClient_cases c0 h0 with hold | rfl
        · exact ⟨c0, hold, hs0, hrem0⟩
        · cases hidle.symm.trans hrem0

theorem step_clientsOk [Stack] (h : ClientsOk x) {e : ServerEvent} {x' : ServerWorld}
    (hs : ServerWorld.Step x e x') (hsafe : e.Safe x) : ClientsOk x' := by
  cases hs with
  | accept fd s' w w' hfd hrun =>
    obtain ⟨-, rfl, rfl⟩ := hrun
    rcases hfd with ⟨rfl, rfl⟩ | ⟨hpos, hfree, rfl⟩
    · exact clientsOk_acceptFailed h
    · exact clientsOk_accept h hpos hfree
  | serve c recv conn s' w' hc hconn hrun => exact serveReady_clientsOk h hc hconn hsafe hrun
  | sweep s' w' hrun =>
    refine clientsOk_removeMarked x.peer.srv.clients h (fun c hc hrem => ?_) hrun
    exact ⟨h.marked c hc hrem, hsafe c hc hrem⟩

theorem removeMarked_log (cs : List Client) {s s' : PeerState} {w w' : Kernel}
    (he : (removeMarked cs).Exec kernel s w () s' w') : w'.log = w.log := by
  induction cs generalizing s w with
  | nil =>
    obtain ⟨-, rfl, rfl⟩ := he
    rfl
  | cons c cs ih =>
    rw [removeMarked] at he
    split at he
    · rw [Prog.exec_bind] at he
      obtain ⟨_, s1, w1, hone, he⟩ := he
      rw [ih he]
      rcases serverRemoveClient_kernel hone with ⟨-, -, rfl⟩ | ⟨-, -, rfl⟩ <;> rfl
    · exact ih he

theorem step_right [Stack] (h : ClientsOk x) {e : ServerEvent} {x' : ServerWorld}
    (hs : ServerWorld.Step x e x') : e.Right x x' := by
  cases hs with
  | accept fd s' w w' hfd hrun =>
    obtain ⟨-, rfl, rfl⟩ := hrun
    rcases hfd with ⟨-, rfl⟩ | ⟨-, -, rfl⟩ <;> rfl
  | serve c recv conn s' w' hc hconn hrun => exact serveReady_right h hc hconn _ hrun
  | sweep s' w' hrun => exact removeMarked_log _ hrun

/-! ### A client removed too early -/

/-- An open request whose socket was closed is nobody's. -/
theorem not_owned_of_closed {fd : Int} {x' : ServerWorld} (hown : x'.RequestsOwned)
    (hclosed : x'.kernel.fds fd = none) : x'.peer.rt.Unasked fd := by
  intro hh r hr he
  obtain ⟨q, -, hissued⟩ := (forall₂_exists (hown hh)).1 r hr
  have hopen := hissued.2
  rw [he, hclosed] at hopen
  cases hopen

theorem removeMarked_closed {fd : Int} (cs : List Client) {s s' : PeerState} {w w' : Kernel}
    (hin : fd ∈ s.srv.sockets ∨ w.fds fd = none)
    (hmark : (∃ c ∈ cs, c.state = .remove ∧ c.socket = fd) ∨ w.fds fd = none)
    (he : (removeMarked cs).Exec kernel s w () s' w') : s'.rt = s.rt ∧ w'.fds fd = none := by
  induction cs generalizing s w with
  | nil =>
    obtain ⟨-, rfl, rfl⟩ := he
    refine ⟨rfl, hmark.resolve_left ?_⟩
    rintro ⟨c, hc, -⟩
    exact absurd hc List.not_mem_nil
  | cons c cs ih =>
    rw [removeMarked] at he
    split at he
    · rw [Prog.exec_bind] at he
      obtain ⟨_, s1, w1, hone, he⟩ := he
      by_cases hfd : c.socket = fd
      · have hnone : s1.rt = s.rt ∧ w1.fds fd = none := by
          rcases serverRemoveClient_kernel hone with ⟨-, rfl, rfl⟩ | ⟨hnot, rfl, rfl⟩
          · exact ⟨rfl, by rw [hfd, Kernel.setFd_self]⟩
          · rw [hfd] at hnot
            exact ⟨rfl, hin.resolve_left hnot⟩
        rw [← hnone.1]
        exact ih (Or.inr hnone.2) (Or.inr hnone.2) he
      · have hmark' : (∃ c ∈ cs, c.state = .remove ∧ c.socket = fd) ∨ w.fds fd = none := by
          refine hmark.imp_left ?_
          rintro ⟨c', hc', hrem, hfd'⟩
          rcases List.mem_cons.mp hc' with rfl | hc'
          · exact absurd hfd' hfd
          · exact ⟨c', hc', hrem, hfd'⟩
        rcases serverRemoveClient_kernel hone with ⟨-, rfl, rfl⟩ | ⟨-, rfl, rfl⟩
        · have hkept : w.fds fd = none → (w.setFd c.socket none).fds fd = none := by
            intro hnone
            rw [Kernel.setFd_ne _ (Ne.symm hfd), hnone]
          have hin' : fd ∈ (unlinkClient s.srv c.socket).sockets ∨
              (w.setFd c.socket none).fds fd = none := by
            refine hin.imp (fun hmem => ?_) hkept
            rw [unlinkClient_sockets]
            exact (List.mem_erase_of_ne (Ne.symm hfd)).mpr hmem
          exact ih (s := { s with srv := unlinkClient s.srv c.socket }) hin'
            (hmark'.imp_right hkept) he
        · exact ih hin hmark' he
    · next hrem =>
      refine ih hin (hmark.imp_left ?_) he
      rintro ⟨c', hc', hrem', hfd'⟩
      rcases List.mem_cons.mp hc' with rfl | hc'
      · exact absurd hrem' hrem
      · exact ⟨c', hc', hrem', hfd'⟩

theorem serverRemoveClient_closed {fd : Int} {s s' : PeerState} {w w' : Kernel}
    (hmem : fd ∈ s.srv.sockets) (he : (serverRemoveClient fd).Exec kernel s w () s' w') :
    s'.rt = s.rt ∧ w'.fds fd = none := by
  rcases serverRemoveClient_kernel he with ⟨-, rfl, rfl⟩ | ⟨hnot, -, -⟩
  · exact ⟨rfl, Kernel.setFd_self _ _ _⟩
  · exact absurd hmem hnot

/-- Every packet but a request to be registered closes the connection it came
on. -/
theorem deliver_closed (h : ClientsOk x) {csocket : Int} {conn : ℕ} {p : Packet}
    (hmem : csocket ∈ x.peer.srv.sockets) (hconn : x.kernel.fds csocket = some (.client conn))
    (hexact : flagSet p.flags pktFlagCtrl = false → p.Exact) {s' : PeerState} {w' : Kernel}
    (he : (serverDeliverPacket csocket p).Exec kernel x.peer x.kernel () s' w') {r : Route}
    (hr : route x.peer p = .ok r) (hreg : ∀ hash, r ≠ .register hash) :
    s'.rt = r.remaining x.peer.rt p ∧ w'.fds csocket = none := by
  rw [serverDeliverPacket, Prog.exec_bind] at he
  obtain ⟨a, s1, w1, hhandle, he⟩ := he
  obtain ⟨r', hr', ht, -⟩ := clientsOk_handle h hconn hexact hhandle
  obtain rfl : r = r' := Except.ok.inj (hr.symm.trans hr')
  have ha : a = cbRemoveClient := by
    cases r with
    | register hash => exact absurd rfl (hreg hash)
    | _ => exact ht.2.2
  rw [if_pos ha] at he
  obtain ⟨hrt, hclosed⟩ := serverRemoveClient_closed (by rwa [(tables_clients h ht).1]) he
  exact ⟨hrt.trans (tables_remaining ht hreg), hclosed⟩

theorem serveReady_safe [Stack] (h : ClientsOk x) {c : Client} {recv : ℕ → Recv} {conn : ℕ}
    (hc : c ∈ x.peer.srv.clients) (hconn : x.kernel.fds c.socket = some (.client conn))
    {s' : PeerState} {w' : Kernel} {issuers : UInt16 → List (ℕ × Packet)}
    (he : (serveReady c recv).Exec kernel x.peer x.kernel () s' w')
    (hown : ServerWorld.RequestsOwned { x with peer := s', kernel := w', issuers := issuers }) :
    ServerEvent.Safe x (.serve c recv conn) := by
  have hmem : c.socket ∈ x.peer.srv.sockets := List.mem_map_of_mem hc
  rw [serveReady] at he
  refine ⟨fun hclosed => ?_, fun p hp r hr => ?_⟩
  · rw [hclosed] at he
    obtain ⟨hrt, hnone⟩ := serverRemoveClient_closed hmem he
    have hun := not_owned_of_closed hown hnone
    rwa [hrt] at hun
  · by_cases hreg : ∃ hash, r = .register hash
    · exact Or.inl hreg
    · refine Or.inr ?_
      unfold delivered at hp
      split at hp
      · next c' pack hserve =>
        subst hp
        rw [hserve, eval_ok, Prog.ret_bind] at he
        obtain ⟨hsocket, hhdr, hidle, hexact⟩ := serveClient_ok (h.headerOnly c hc) hserve
        have hok := clientsOk_replace h hc hsocket hhdr fun hrem => nomatch hidle.symm.trans hrem
        rw [← hsocket] at hconn hmem ⊢
        rw [← replaceClient_sockets _ c'] at hmem
        obtain ⟨hrt, hnone⟩ := deliver_closed hok hmem hconn (hexact p rfl) he hr
          fun hash hrh => hreg ⟨hash, hrh⟩
        have hun := not_owned_of_closed hown hnone
        rwa [hrt] at hun
      · cases hp

theorem step_safe [Stack] (h : ClientsOk x) {e : ServerEvent} {x' : ServerWorld}
    (hs : ServerWorld.Step x e x') (hown : x'.RequestsOwned) : e.Safe x := by
  cases hs with
  | accept fd s' w w' hfd hrun => trivial
  | serve c recv conn s' w' hc hconn hrun => exact serveReady_safe h hc hconn hrun hown
  | sweep s' w' hrun =>
    intro c hc hrem
    have hmem : c.socket ∈ x.peer.srv.sockets := List.mem_map_of_mem hc
    obtain ⟨hrt, hnone⟩ := removeMarked_closed x.peer.srv.clients (Or.inl hmem)
      (Or.inl ⟨c, hc, hrem, rfl⟩) hrun
    have hun := not_owned_of_closed hown hnone
    rwa [hrt] at hun

end

/-! ### Whole runs -/

def Kernel.start : Kernel where
  fds fd := if fd = 0 ∨ fd = 1 ∨ fd = 2 then some .std else if fd = 3 then some .listener else none
  log := []

def ServerWorld.start {ι : Type} [Fintype ι] (R : LinkedRing ι) (i : ι) : ServerWorld where
  peer := R.start i
  kernel := Kernel.start
  accepted := 0
  issuers _ := []

/-- Runs all of whose steps meet `ok`. -/
inductive ServerRun [Stack] (ok : ServerWorld → ServerEvent → Prop) (x0 : ServerWorld) :
    ServerWorld → Prop where
  | start : ServerRun ok x0 x0
  | step {x x' : ServerWorld} (e : ServerEvent) (h : ServerRun ok x0 x)
    (hs : ServerWorld.Step x e x') (hok : ok x e) : ServerRun ok x0 x'

theorem start_clientsOk {ι : Type} [Fintype ι] (R : LinkedRing ι) (i : ι) :
    ClientsOk (ServerWorld.start R i) := by
  have hclient : ∀ fd k, (ServerWorld.start R i).kernel.fds fd ≠ some (.client k) := by
    intro fd k
    show (if fd = 0 ∨ fd = 1 ∨ fd = 2 then some Endpoint.std
      else if fd = 3 then some Endpoint.listener else none) ≠ _
    split
    · exact fun he => nomatch he
    · split <;> exact fun he => nomatch he
  exact {
    minusOne := rfl, std := rfl, succ := Or.inl rfl
    record := fun fd hfd => absurd hfd List.not_mem_nil
    distinct := .nil
    marked := fun c hc => absurd hc List.not_mem_nil
    headerOnly := fun c hc => absurd hc List.not_mem_nil
    conn := fun fd _ k hk => absurd hk (hclient fd k)
    old := fun fd k hk => absurd hk (hclient fd k)
    unique := .nil
    owned := fun _ => .nil }

/-- As long as no client is removed while it has an open request, open requests
carry the sockets of their issuers' connections, and answers go to the clients
that asked; and that is given up by the first removal of another kind. -/
theorem safeRun_requestsOwned [Stack] {ι : Type} [Fintype ι] (R : LinkedRing ι) (i : ι) {x : ServerWorld}
    (h : ServerRun (fun x e => e.Safe x) (ServerWorld.start R i) x) :
    x.RequestsOwned ∧ ∀ e x', ServerWorld.Step x e x' →
      e.Right x x' ∧ (x'.RequestsOwned ↔ e.Safe x) := by
  have hok : ClientsOk x := by
    induction h with
    | start => exact start_clientsOk R i
    | step e _ hs hsafe ih => exact step_clientsOk ih hs hsafe
  exact ⟨hok.owned, fun e x' hs => ⟨step_right hok hs,
    fun hown => step_safe hok hs hown, fun hsafe => (step_clientsOk hok hs hsafe).owned⟩⟩

/-! ### A client that leaves early -/

/-- A kernel that grants everything; the successor answers every request with
`answer`. -/
def granting (answer : Bytes) (w : Kernel) : (o : SysOp) → Option (SysRes o × Kernel)
  | .getaddrinfo _ _ => some ([.inet 2130706433 4711], w)
  | .socket => if w.fds 9 = none then some (9, w.setFd 9 (some (.outgoing false))) else none
  | .connect fd _ =>
    if w.fds fd = some (.outgoing false) then some (0, w.setFd fd (some (.outgoing true))) else none
  | .send fd buffer => some (0, w.logged [.sent (w.fds fd) buffer])
  | .recv fd =>
    if w.fds fd = some (.outgoing true) then some (answer, w.logged [.got answer]) else none
  | .close fd => some ((), w.setFd fd none)
  | .crash _ => none

theorem granting_kernel (answer : Bytes) (w : Kernel) (o : SysOp) (r : SysRes o) (w1 : Kernel)
    (h : granting answer w o = some (r, w1)) : kernel w o r w1 := by
  cases o with
  | getaddrinfo hostname port =>
    cases h
    rfl
  | socket =>
    rw [granting] at h
    split at h
    · next hfree =>
      cases h
      exact Or.inr ⟨by decide, hfree, rfl⟩
    · cases h
  | connect fd addr =>
    rw [granting] at h
    split at h
    · next hfd =>
      cases h
      exact Or.inr ⟨rfl, hfd, rfl⟩
    · cases h
  | send fd buffer =>
    cases h
    rfl
  | recv fd =>
    rw [granting] at h
    split at h
    · next hfd =>
      cases h
      exact ⟨Or.inl hfd, rfl⟩
    · cases h
  | close fd =>
    cases h
    rfl
  | crash f => cases h

namespace ServerWorld

def accepting (x : ServerWorld) (fd : Int) : ServerWorld := { x with
  peer := { x.peer with srv := { x.peer.srv with
    clients := newClient fd :: x.peer.srv.clients, nClients := x.peer.srv.nClients + 1 } }
  kernel := x.kernel.setFd fd (some (.client x.accepted))
  accepted := x.accepted + 1 }

def serving [Stack] (x : ServerWorld) (answer : Bytes) (c : Client) (recv : ℕ → Recv) (conn : ℕ) :
    ServerWorld :=
  let run := (serveReady c recv).advance (granting answer) x.peer x.kernel
  { x with
    peer := run.2.1, kernel := run.2.2
    issuers := (delivered c recv).elim x.issuers (x.issuersAfter conn) }

theorem step_accepting [Stack] (x : ServerWorld) {fd : Int} (hpos : 0 ≤ fd)
    (hfree : x.kernel.fds fd = none) :
    Step x (.accept fd) (x.accepting fd) :=
  .accept x fd _ _ _ (Or.inr ⟨hpos, hfree, rfl⟩) ⟨rfl, rfl, rfl⟩

theorem step_serving [Stack] (x : ServerWorld) (answer : Bytes) {c : Client} {recv : ℕ → Recv}
    {conn : ℕ} (hc : c ∈ x.peer.srv.clients)
    (hconn : x.kernel.fds c.socket = some (.client conn))
    (hret : ((serveReady c recv).advance (granting answer) x.peer x.kernel).1.returned = some ()) :
    Step x (.serve c recv conn) (x.serving answer c recv conn) :=
  .serve x c recv conn _ _ hc hconn (Prog.exec_of_advance (granting_kernel answer) hret)

def client (x : ServerWorld) (fd : Int) : Client :=
  (x.peer.srv.clients.find? fun c => c.socket == fd).getD (newClient fd)

end ServerWorld

def get100 : Packet := { packetNew with flags := 4, keyLen := 2, key := [0, 100] }

/-- Client 0 on socket 5 has asked peer 10 for a key that lies behind peer 74. -/
def asked : ServerWorld :=
  let x := (ServerWorld.start scratchLinked scratchFirst).accepting 5
  let x := x.serving [] (x.client 5) (fun _ => .data [4, 0, 2, 0, 0, 0, 0]) 0
  x.serving [] (x.client 5) (fun _ => .data [0, 100]) 0

/-- It has hung up, and the next client got its number; then peer 138 connects. -/
def reused : ServerWorld :=
  ((asked.serving [] (asked.client 5) (fun _ => .closed) 0).accepting 5).accepting 6

/-- The REPLY for the key has arrived, and the answer to the request with it. -/
def answered : ServerWorld :=
  let x := reused.serving [8] (reused.client 6) (fun _ => .data [130, 0, 100, 0, 138, 127, 0]) 2
  x.serving [8] (x.client 6) (fun _ => .data [0, 1, 18, 104]) 2

theorem safe_of_silent [Stack] {x : ServerWorld} {c : Client} {recv : ℕ → Recv} {conn : ℕ}
    (hopen : serveClient c recv ≠ .ok .closed) (hnone : delivered c recv = none) :
    ServerEvent.Safe x (.serve c recv conn) := by
  refine ⟨fun he => absurd he hopen, fun p hp => ?_⟩
  rw [hnone] at hp
  cases hp

theorem safe_of_register [Stack] {x : ServerWorld} {c : Client} {recv : ℕ → Recv} {conn : ℕ}
    {p : Packet} {h : UInt16} (hopen : serveClient c recv ≠ .ok .closed)
    (hp : delivered c recv = some p) (hr : route x.peer p = .ok (.register h)) : ServerEvent.Safe x (.serve c recv conn) := by
  refine ⟨fun he => absurd he hopen, fun q hq r hr' => Or.inl ⟨h, ?_⟩⟩
  obtain rfl : p = q := Option.some.inj (hp.symm.trans hq)
  exact Except.ok.inj (hr'.symm.trans hr)

theorem asked_run {ok : ServerWorld → ServerEvent → Prop} (hok : ∀ x e, e.Safe x → ok x e) :
    ServerRun ok (ServerWorld.start scratchLinked 0) asked := by
  refine .step _ (.step _ (.step _ .start (ServerWorld.step_accepting _ (by decide) rfl)
    (hok _ _ trivial)) (ServerWorld.step_serving _ [] ?_ ?_ ?_) (hok _ _ (safe_of_silent ?_ ?_)))
    (ServerWorld.step_serving _ [] ?_ ?_ ?_)
    (hok _ _ (safe_of_register (p := get100) (h := 100) ?_ ?_ ?_))
  all_goals decide

theorem safeRun_requestsOwned_asked : asked.RequestsOwned ∧ ∀ e x',
    ServerWorld.Step asked e x' → e.Right asked x' ∧ (x'.RequestsOwned ↔ e.Safe asked) :=
  safeRun_requestsOwned scratchLinked 0 (asked_run fun _ _ h => h)

theorem reused_run : ServerRun (fun _ _ => True) (ServerWorld.start scratchLinked 0) reused := by
  refine .step _ (.step _ (.step _ (asked_run fun _ _ _ => trivial)
    (ServerWorld.step_serving _ [] ?_ ?_ ?_) trivial)
    (ServerWorld.step_accepting _ (by decide) ?_) trivial)
    (ServerWorld.step_accepting _ (by decide) ?_) trivial
  all_goals decide

theorem answered_run : ServerRun (fun _ _ => True) (ServerWorld.start scratchLinked 0) answered := by
  refine .step _ (.step _ reused_run (ServerWorld.step_serving _ [8] ?_ ?_ ?_) trivial)
    (ServerWorld.step_serving _ [8] ?_ ?_ ?_) trivial
  all_goals decide

/-- Connection 0 asked, hung up and was followed by connection 1 on the same
number: the open request is connection 1's by its socket, and the answer goes
there. -/
theorem earlyClose_answers_stranger :
    (ServerRun (fun _ _ => True) (ServerWorld.start scratchLinked 0) reused ∧
      ¬ reused.RequestsOwned) ∧
    ServerRun (fun _ _ => True) (ServerWorld.start scratchLinked 0) answered ∧
      reused.issuers 100 = [(0, get100)] ∧
      answered.kernel.log.filterMap IoEvent.toClient = [(1, [8])] := by
  refine ⟨⟨reused_run, fun howned => ?_⟩, answered_run, by decide, by decide⟩
  have hqueue : getRequests reused.peer.rt 100 = [⟨get100, 5⟩] := by decide
  have hissuers : reused.issuers 100 = [(0, get100)] := by decide
  have hfirst := howned 100
  rw [hqueue, hissuers, List.forall₂_cons] at hfirst
  have hfd : reused.kernel.fds 5 = some (.client 1) := by decide
  exact absurd (hfd.symm.trans hfirst.1.2) (by decide)

end RN2223.Praxis2

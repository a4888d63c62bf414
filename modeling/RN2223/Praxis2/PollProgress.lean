import RN2223.Praxis2.ClientList

/-!
# Progress of a pass

An event that `poll` reports has to be consumed: bytes are read, a client goes or
one comes. The loop only looks for `revents == POLLIN` and ignores a `recv` that
fails.
-/

namespace RN2223.Praxis2
open CMemory Machine

def PassEvent.IsProgress : PassEvent → Prop
  | .received _ n => 1 ≤ n
  | .removed _ => True
  | .accepted fd => 0 ≤ fd
  | _ => False

/-- What was read before a fault counts as well. -/
def MakesProgress [Stack] (srv : RunningServer) (x : PollInput) : Prop :=
  ∃ e ∈ (serverPass srv x).1, e.IsProgress

/-- No array `buffer[bytes_needed]` of the first `k` clients that are ready has a
negative length or is too long for the stack. -/
def ArraysFit [Stack] (srv : RunningServer) (x : PollInput) (k : ℕ) : Prop :=
  ∀ j < k, ∀ n, srv.clients[j]? = some n → x.revents (j + 2) = pollIn →
    ∃ m, bytesNeeded n.client = .ok m

/-- Some client has exactly `POLLIN` and a `recv` that does not fail, or the
listening socket has exactly `POLLIN` and `accept` does not fail. -/
def Serviceable [Stack] (srv : RunningServer) (x : PollInput) : Prop :=
  (∃ k n, srv.clients[k]? = some n ∧ x.revents (k + 2) = pollIn ∧
    (x.outcome (k + 2)).arrival ≠ .failed ∧ ArraysFit srv x (k + 1)) ∨
  x.revents 1 = pollIn ∧ 0 ≤ x.accepted ∧ ArraysFit srv x srv.clients.length

/-! ### One client -/

section
variable {client : Client} {recv : ℕ → Recv} {m : ℕ}

theorem serveClient_error [Stack] {f : Fault} (h : bytesNeeded client = .error f) :
    serveClient client recv = .error f := by
  unfold bytesNeeded at h
  unfold serveClient
  split at h
  · next hidle =>
    rw [if_pos hidle, serveIdle, h]
    rfl
  · next hidle =>
    rw [if_neg hidle]
    cases hbuf : client.pktBuf with
    | none =>
      rw [hbuf] at h
      cases h
      rfl
    | some b =>
      rw [hbuf] at h
      dsimp only at h ⊢
      rw [serveBody, h]
      rfl

theorem serveClient_noData [Stack] (h : bytesNeeded client = .ok m) :
    (recv m = .failed → serveClient client recv = .ok (.kept client)) ∧
      (recv m = .closed → serveClient client recv = .ok .closed) := by
  unfold bytesNeeded at h
  unfold serveClient
  split at h
  · next hidle =>
    rw [if_pos hidle, serveIdle, h, ok_bind]
    constructor
    · intro hrecv
      rw [hrecv]
    · intro hrecv
      rw [hrecv]
  · next hidle =>
    rw [if_neg hidle]
    cases hbuf : client.pktBuf with
    | none =>
      rw [hbuf] at h
      cases h
    | some b =>
      rw [hbuf] at h
      dsimp only at h ⊢
      rw [serveBody, h, ok_bind]
      constructor
      · intro hrecv
        rw [hrecv]
      · intro hrecv
        rw [hrecv]

end

theorem receivedEvents_none [Stack] {c m : ℕ} {client : Client} {arrival : Arrival}
    (h : bytesNeeded client = .ok m) (hrecv : ∀ b, arrival.recv m ≠ .data b) :
    receivedEvents c client arrival = [] := by
  rw [receivedEvents, h]
  dsimp only
  split
  · next b hb => exact absurd hb (hrecv b)
  · rfl

theorem receivedEvents_error [Stack] {c : ℕ} {client : Client} {arrival : Arrival} {f : Fault}
    (h : bytesNeeded client = .error f) : receivedEvents c client arrival = [] := by
  rw [receivedEvents, h]

theorem enteredEvents_quiet [Stack] {c : ℕ} {client : Client} {arrival : Arrival}
    (h : receivedEvents c client arrival = []) :
    ∀ e ∈ enteredEvents c client arrival, ¬ e.IsProgress := by
  intro e he
  rw [enteredEvents, h, List.append_nil] at he
  split at he
  · cases he
  · rw [List.mem_singleton.mp he]
    exact id

theorem arrival_cases (arrival : Arrival) (h : arrival ≠ .failed) (m : ℕ) :
    arrival.recv m = .closed ∨ ∃ b, arrival.recv m = .data b ∧ 1 ≤ b.length := by
  cases arrival with
  | data b bs =>
    rw [Arrival.recv, recvChunk]
    split
    · exact Or.inl rfl
    · next hm =>
      refine Or.inr ⟨_, rfl, ?_⟩
      rw [List.length_take, List.length_cons]
      omega
  | closed => exact Or.inl rfl
  | failed => exact absurd rfl h

/-- A client whose `recv` does not fail is served: bytes are read or it goes. -/
theorem serve_progress [Stack] (p : Pass) (c : ℕ) {client : Client} {o : Outcome} {m : ℕ}
    (h : bytesNeeded client = .ok m) (ho : o.arrival ≠ .failed) :
    ∃ e ∈ (p.serve c client o).events, e.IsProgress := by
  obtain hrecv | ⟨b, hrecv, hb⟩ := arrival_cases o.arrival ho m
  · refine ⟨.removed c, ?_, trivial⟩
    rw [Pass.serve, (serveClient_noData h).2 hrecv]
    exact List.mem_append_right _ List.mem_cons_self
  · obtain ⟨es, hes, -⟩ := serve_events p c client o
    refine ⟨.received c b.length, ?_, hb⟩
    have hreceived : receivedEvents c client o.arrival = [.received c b.length] := by
      rw [receivedEvents, h]
      dsimp only
      rw [hrecv]
    rw [hes, enteredEvents, hreceived]
    exact List.mem_append_right _ (List.mem_append_left _
      (List.mem_append_right _ List.mem_cons_self))

/-! ### The clients before the first progress -/

/-- The clients before `k` that are ready cannot be read. -/
def QuietUpTo [Stack] (srv : RunningServer) (x : PollInput) (k : ℕ) : Prop :=
  ∀ j < k, ∀ n, srv.clients[j]? = some n → x.revents (j + 2) = pollIn →
    (∃ m, bytesNeeded n.client = .ok m) ∧ (x.outcome (j + 2)).arrival = .failed

theorem QuietUpTo.mono [Stack] {srv : RunningServer} {x : PollInput} {j k : ℕ} (h : QuietUpTo srv x k)
    (hjk : j ≤ k) : QuietUpTo srv x j :=
  fun i hi => h i (Nat.lt_of_lt_of_le hi hjk)

theorem quiet_or_first [Stack] (srv : RunningServer) (x : PollInput) (k : ℕ) :
    QuietUpTo srv x k ∨ ∃ j < k, QuietUpTo srv x j ∧ ∃ n, srv.clients[j]? = some n ∧
      x.revents (j + 2) = pollIn ∧
      ¬ ((∃ m, bytesNeeded n.client = .ok m) ∧ (x.outcome (j + 2)).arrival = .failed) := by
  induction k with
  | zero => exact Or.inl fun j hj => absurd hj (Nat.not_lt_zero j)
  | succ k ih =>
    obtain hquiet | ⟨j, hj, hfirst⟩ := ih
    · by_cases hk : ∃ n, srv.clients[k]? = some n ∧ x.revents (k + 2) = pollIn ∧
          ¬ ((∃ m, bytesNeeded n.client = .ok m) ∧ (x.outcome (k + 2)).arrival = .failed)
      · exact Or.inr ⟨k, Nat.lt_succ_self k, hquiet, hk⟩
      · refine Or.inl fun j hj n hn hready => ?_
        obtain hlt | rfl := Nat.lt_succ_iff_lt_or_eq.mp hj
        · exact hquiet j hlt n hn hready
        · by_contra hbad
          exact hk ⟨n, hn, hready, hbad⟩
    · exact Or.inr ⟨j, Nat.lt_succ_of_lt hj, hfirst⟩

section
variable {srv : RunningServer} {x : PollInput}

theorem update_self {c : ℕ} {client : Client} (hnodup : (srv.clients.map Node.id).Nodup)
    (h : ⟨c, client⟩ ∈ srv.clients) : srv.update c client = srv := by
  have hmap : (srv.clients.map fun n => if n.id = c then { n with client := client } else n) =
      srv.clients.map id := by
    refine List.map_congr_left fun n hn => ?_
    split
    · next hid =>
      have hsame : n = ⟨c, client⟩ := List.inj_on_of_nodup_map hnodup hn h hid
      rw [hsame]
      rfl
    · rfl
  rw [RunningServer.update, hmap, List.map_id]

structure Untouched (srv : RunningServer) (p : Pass) (k : ℕ) : Prop where
  srv : p.srv = srv
  fault : p.fault = none
  index : p.i = k + 2
  quiet : ∀ e ∈ p.events, ¬ e.IsProgress

theorem Untouched.current {p : Pass} {k : ℕ} (h : Untouched srv p k) (hok : ServerOk srv)
    {seen todo : List (ℕ × Int)} (hd : Dispatching srv p seen todo) {n : Node}
    (hn : srv.clients[k]? = some n) : p.Running ∧ ∃ rest, todo = n.key :: rest ∧
      derefNode p.srv.clients n.id = .ok (n.client, rest.head?.map Prod.fst) := by
  have hlen : seen.length = k := by
    have hindex := hd.index
    rw [h.index] at hindex
    omega
  have hkey : srv.keys[k]? = some n.key := by
    rw [RunningServer.keys, List.getElem?_map, hn]
    rfl
  have hlt : k < srv.clients.length := (List.getElem?_eq_some_iff.mp hn).1
  rw [hd.split, List.getElem?_append_right hlen.le, hlen, Nat.sub_self] at hkey
  cases todo with
  | nil => cases hkey
  | cons key rest =>
    rw [List.getElem?_cons_zero] at hkey
    obtain rfl := Option.some.inj hkey
    refine ⟨⟨h.fault, ?_⟩, rest, rfl, ?_⟩
    · rw [h.index, h.srv, hok.count]
      omega
    · obtain ⟨client, hderef, hsocket, hmem⟩ := hd.deref hok
      rw [h.srv] at hmem
      have hsame : (⟨n.id, client⟩ : Node) = n :=
        List.inj_on_of_nodup_map (nodup_ids hok.nodup) hmem (List.mem_of_getElem? hn) rfl
      have hclient : client = n.client := congrArg Node.client hsame
      rw [← hclient]
      exact hderef

theorem QuietUpTo.untouched [Stack] {k : ℕ} (hok : ServerOk srv) (hk : k ≤ srv.clients.length)
    (h : QuietUpTo srv x k) : Untouched srv (dispatch srv x k) k := by
  induction k with
  | zero => exact ⟨rfl, rfl, rfl, fun e he => absurd he List.not_mem_nil⟩
  | succ k ih =>
    have hprev := ih (by omega) (h.mono (Nat.le_succ k))
    obtain ⟨seen, todo, hd⟩ := dispatching (x := x) hok k
    obtain ⟨n, hn⟩ : ∃ n, srv.clients[k]? = some n :=
      ⟨_, List.getElem?_eq_getElem (Nat.lt_of_succ_le hk)⟩
    obtain ⟨hrun, rest, rfl, hderef⟩ := hprev.current hok hd hn
    have hstep := hd.step_eq (x := x) hok hrun hderef
    rw [dispatch_succ, hstep, hprev.index]
    generalize hp : dispatch srv x k = p at hprev
    by_cases hready : x.revents (k + 2) = pollIn
    · obtain ⟨⟨m, hm⟩, hfailed⟩ := h k (Nat.lt_succ_self k) n hn hready
      have hserve : serveClient n.client (x.outcome (k + 2)).arrival.recv = .ok (.kept n.client) :=
        (serveClient_noData hm).1 (by rw [hfailed]; rfl)
      have hnothing : receivedEvents n.id n.client (x.outcome (k + 2)).arrival = [] :=
        receivedEvents_none hm fun b hb => by
          rw [hfailed] at hb
          cases hb
      have hupdate : p.srv.update n.id n.client = srv := by
        rw [hprev.srv]
        exact update_self (nodup_ids hok.nodup) (List.mem_of_getElem? hn)
      rw [Pass.visit]
      simp only [if_pos hready, Pass.serve, hserve]
      refine ⟨hupdate, hprev.fault, congrArg (· + 1) hprev.index, fun e he => ?_⟩
      obtain he | he := List.mem_append.mp he
      · obtain he | he := List.mem_append.mp he
        · exact hprev.quiet e he
        · rw [List.mem_singleton.mp he]
          exact id
      · exact enteredEvents_quiet hnothing e he
    · rw [Pass.visit]
      simp only [if_neg hready]
      refine ⟨hprev.srv, hprev.fault, congrArg (· + 1) hprev.index, fun e he => ?_⟩
      obtain he | he := List.mem_append.mp he
      · exact hprev.quiet e he
      · rw [List.mem_singleton.mp he]
        exact id

/-! ### The whole pass -/

theorem polled_client (hok : ServerOk srv) {k : ℕ} {n : Node} (hn : srv.clients[k]? = some n) :
    ∃ e ∈ polled srv x, e.revents = x.revents (k + 2) := by
  have hlt : k < srv.clients.length := (List.getElem?_eq_some_iff.mp hn).1
  have hkey : srv.keys[k]? = some n.key := by
    rw [RunningServer.keys, List.getElem?_map, hn]
    rfl
  have hsplit : srv.keys = srv.keys.take k ++ n.key :: srv.keys.drop (k + 1) := by
    obtain ⟨hk, hget⟩ := List.getElem?_eq_some_iff.mp hkey
    rw [← hget, ← List.drop_eq_getElem_cons, List.take_append_drop]
  have hlen : (srv.keys.take k).length = k := by
    rw [List.length_take, RunningServer.keys, List.length_map]
    omega
  have hget := polled_get (x := x) hok hsplit
  rw [hlen] at hget
  exact ⟨_, List.mem_of_getElem? hget, rfl⟩

variable (srv x) in
theorem polled_listener : ∃ e ∈ polled srv x, e.revents = x.revents 1 := by
  have hget : (polled srv x)[1]? = some ⟨srv.socket, x.revents 1⟩ := by
    rw [polled, List.getElem?_mapIdx]
    rfl
  exact ⟨_, List.mem_of_getElem? hget, rfl⟩

theorem serverPass_events [Stack] (hsome : ¬ ∀ e ∈ polled srv x, e.revents = 0)
    (hstdin : x.revents 0 ≠ pollIn) :
    (∃ f, (dispatch srv x (polled srv x).length).fault = some f ∧
      (serverPass srv x).1 = (dispatch srv x (polled srv x).length).events) ∨
    (dispatch srv x (polled srv x).length).fault = none ∧ (serverPass srv x).1 =
      (swept srv x).events ++ if x.revents 1 = pollIn then [.accepted x.accepted] else [] := by
  rw [serverPass, if_neg hsome, if_neg hstdin]
  dsimp only
  cases hfault : (dispatch srv x (polled srv x).length).fault with
  | some f => exact Or.inl ⟨f, rfl, rfl⟩
  | none =>
    refine Or.inr ⟨rfl, ?_⟩
    dsimp only
    split
    · rfl
    · exact (List.append_nil _).symm

theorem dispatch_stuck [Stack] {k n : ℕ} (h : ¬ (dispatch srv x k).Running) (hkn : k ≤ n) :
    dispatch srv x n = dispatch srv x k := by
  induction n, hkn using Nat.le_induction with
  | base => rfl
  | succ n _ ih => rw [dispatch_succ, ih, Pass.step, if_neg h]

theorem length_le_polled (hok : ServerOk srv) : srv.clients.length + 2 = (polled srv x).length := by
  rw [polled_length hok, RunningServer.keys, List.length_map]

/-- Without a client to read from all that is left is the listening socket. -/
theorem QuietUpTo.progress_iff [Stack] (hok : ServerOk srv) (hstdin : x.revents 0 = 0)
    (h : QuietUpTo srv x srv.clients.length) :
    MakesProgress srv x ↔ x.revents 1 = pollIn ∧ 0 ≤ x.accepted := by
  have hend := h.untouched hok le_rfl
  have hstop : ¬ (dispatch srv x srv.clients.length).Running := by
    rintro ⟨-, hlt⟩
    rw [hend.index, hend.srv, hok.count] at hlt
    omega
  have hlast := dispatch_stuck hstop (n := (polled srv x).length)
    (by rw [← length_le_polled (x := x) hok]; omega)
  have hswept : (swept srv x).events = (dispatch srv x srv.clients.length).events := by
    rw [(swept_sweeps hok).events, hlast, hend.srv]
    have hnone : srv.clients.filter marked = [] := by
      refine List.filter_eq_nil_iff.mpr fun n hn hm => hok.unmarked n hn ?_
      exact beq_iff_eq.mp hm
    rw [hnone, List.map_nil, List.append_nil]
  by_cases hsome : ∀ e ∈ polled srv x, e.revents = 0
  · obtain ⟨e, he, hrevents⟩ := polled_listener srv x
    have hzero : x.revents 1 ≠ pollIn := by
      rw [← hrevents, hsome e he]
      decide
    refine iff_of_false ?_ fun hlisten => hzero hlisten.1
    rintro ⟨e, he, -⟩
    rw [serverPass, if_pos hsome] at he
    cases he
  · have hstdin' : x.revents 0 ≠ pollIn := by
      rw [hstdin]
      decide
    obtain ⟨f, hf, -⟩ | ⟨-, hevents⟩ := serverPass_events hsome hstdin'
    · rw [hlast, hend.fault] at hf
      cases hf
    · rw [MakesProgress, hevents, hswept]
      constructor
      · rintro ⟨e, he, hprogress⟩
        obtain he | he := List.mem_append.mp he
        · exact absurd hprogress (hend.quiet e he)
        · split at he
          · next hlisten =>
            rw [List.mem_singleton.mp he] at hprogress
            exact ⟨hlisten, hprogress⟩
          · cases he
      · rintro ⟨hlisten, hfd⟩
        refine ⟨.accepted x.accepted, List.mem_append_right _ ?_, hfd⟩
        rw [if_pos hlisten]
        exact List.mem_singleton_self _

theorem QuietUpTo.first [Stack] (hok : ServerOk srv) (hstdin : x.revents 0 = 0) {k : ℕ} {n : Node}
    (h : QuietUpTo srv x k) (hn : srv.clients[k]? = some n) (hready : x.revents (k + 2) = pollIn) :
    ((∃ m, bytesNeeded n.client = .ok m) → (x.outcome (k + 2)).arrival ≠ .failed →
      MakesProgress srv x) ∧
    ((∃ f, bytesNeeded n.client = .error f) → ¬ MakesProgress srv x) := by
  have hlt : k < srv.clients.length := (List.getElem?_eq_some_iff.mp hn).1
  have hprev := h.untouched hok hlt.le
  obtain ⟨seen, todo, hd⟩ := dispatching (x := x) hok k
  obtain ⟨hrun, rest, rfl, hderef⟩ := hprev.current hok hd hn
  have hstep := (dispatch_succ k).trans (hd.step_eq (x := x) hok hrun hderef)
  rw [hprev.index, Pass.visit] at hstep
  simp only [if_pos hready] at hstep
  have hsome : ¬ ∀ e ∈ polled srv x, e.revents = 0 := by
    intro hnone
    obtain ⟨e, he, hrevents⟩ := polled_client (x := x) hok hn
    rw [hnone e he, hready] at hrevents
    exact absurd hrevents (by decide)
  have hstdin' : x.revents 0 ≠ pollIn := by
    rw [hstdin]
    decide
  have hlen := length_le_polled (x := x) hok
  constructor
  · rintro ⟨m, hm⟩ hfailed
    obtain ⟨e, he, hprogress⟩ := serve_progress ((dispatch srv x k).log
      [.consulted n.id n.client.socket]) n.id hm hfailed
    have hafter : e ∈ (dispatch srv x (k + 1)).events := by
      rw [hstep]
      exact he
    have hlast : e ∈ (dispatch srv x (polled srv x).length).events :=
      (dispatch_events_mono hok (by omega)).subset hafter
    obtain ⟨f, -, hevents⟩ | ⟨-, hevents⟩ := serverPass_events hsome hstdin'
    · exact ⟨e, hevents ▸ hlast, hprogress⟩
    · refine ⟨e, ?_, hprogress⟩
      rw [hevents, (swept_sweeps hok).events]
      exact List.mem_append_left _ (List.mem_append_left _ hlast)
  · rintro ⟨f, hf⟩ ⟨e, he, hprogress⟩
    simp only [Pass.serve, serveClient_error hf] at hstep
    have hfault : (dispatch srv x (k + 1)).fault = some f := by rw [hstep]
    have hstop : ¬ (dispatch srv x (k + 1)).Running := by
      rintro ⟨hnone, -⟩
      rw [hfault] at hnone
      cases hnone
    have hlast := dispatch_stuck hstop (n := (polled srv x).length) (by omega)
    obtain ⟨f', -, hevents⟩ | ⟨hnone, -⟩ := serverPass_events hsome hstdin'
    · rw [hevents, hlast, hstep] at he
      obtain he | he := List.mem_append.mp he
      · obtain he | he := List.mem_append.mp he
        · exact hprev.quiet e he hprogress
        · rw [List.mem_singleton.mp he] at hprogress
          exact hprogress
      · exact enteredEvents_quiet (receivedEvents_error hf) e he hprogress
    · rw [hlast, hfault] at hnone
      cases hnone

/-- A pass makes progress exactly when some reported event is one that the loop
serves. -/
theorem makesProgress_iff [Stack] {socket : Int} (h : ServerReachable socket srv)
    (hstdin : x.revents 0 = 0) : MakesProgress srv x ↔ Serviceable srv x := by
  have hok := h.ok
  obtain hquiet | ⟨k, hk, hquiet, n, hn, hready, hbad⟩ :=
    quiet_or_first srv x srv.clients.length
  · rw [hquiet.progress_iff hok hstdin]
    constructor
    · rintro ⟨hlisten, hfd⟩
      exact Or.inr ⟨hlisten, hfd, fun j hj n hn hready => (hquiet j hj n hn hready).1⟩
    · rintro (⟨k, n, hn, hready, hfailed, -⟩ | ⟨hlisten, hfd, -⟩)
      · exact absurd (hquiet k (List.getElem?_eq_some_iff.mp hn).1 n hn hready).2 hfailed
      · exact ⟨hlisten, hfd⟩
  · obtain ⟨hprogress, hfault⟩ := hquiet.first hok hstdin hn hready
    cases hneeded : bytesNeeded n.client with
    | ok m =>
      have hfailed : (x.outcome (k + 2)).arrival ≠ .failed := fun hf => hbad ⟨⟨m, hneeded⟩, hf⟩
      refine iff_of_true (hprogress ⟨m, hneeded⟩ hfailed) (Or.inl ⟨k, n, hn, hready, hfailed, ?_⟩)
      intro j hj n' hn' hready'
      obtain hlt | rfl := Nat.lt_succ_iff_lt_or_eq.mp hj
      · exact (hquiet j hlt n' hn' hready').1
      · obtain rfl := Option.some.inj (hn.symm.trans hn')
        exact ⟨m, hneeded⟩
    | error f =>
      refine iff_of_false (hfault ⟨f, hneeded⟩) ?_
      have hnofit : ∀ l, k < l → ¬ ArraysFit srv x l := by
        intro l hl hfit
        obtain ⟨m, hm⟩ := hfit k hl n hn hready
        rw [hneeded] at hm
        cases hm
      rintro (⟨l, n', hn', hready', hfailed, hfit⟩ | ⟨-, -, hfit⟩)
      · obtain hlt | hle := Nat.lt_or_ge l k
        · exact hfailed (hquiet l hlt n' hn' hready').2
        · exact hnofit _ (Nat.lt_succ_of_le hle) hfit
      · exact hnofit _ hk hfit

theorem makesProgress_iff_byte : MakesProgress threeClients
      ⟨fun i => if i = 3 then pollIn else 0, fun _ => ⟨.data 1 [], [], cbOk⟩, -1⟩ ↔
    Serviceable threeClients
      ⟨fun i => if i = 3 then pollIn else 0, fun _ => ⟨.data 1 [], [], cbOk⟩, -1⟩ :=
  makesProgress_iff reachable_three rfl

/-- The client in front has sent a byte and then reset the connection. -/
def resetInFront : PollInput where
  revents i := if i = 2 then pollIn ||| pollErr ||| pollHup else 0
  outcome _ := ⟨.data 1 [], [], cbOk⟩
  accepted := -1

theorem reset_ignored : ServerReachable 3 threeClients ∧ ¬ MakesProgress threeClients resetInFront := by
  refine ⟨reachable_three, ?_⟩
  rintro ⟨e, he, hprogress⟩
  have hevents : (serverPass threeClients resetInFront).1 =
      [.consulted 2 7, .consulted 1 6, .consulted 0 5] := by decide
  rw [hevents] at he
  simp only [List.mem_cons, List.not_mem_nil, or_false] at he
  obtain rfl | rfl | rfl := he
  all_goals exact hprogress

end

end RN2223.Praxis2

import RN2223.Praxis2.ClientList

/-!
# Clients marked for removal

A callback marks clients in the middle of the loop that is still going to visit
some of them. A marked client whose own socket is ready goes into the branch of
those that wait for a body.
-/

namespace RN2223.Praxis2
open CMemory Machine

def Marked (srv : RunningServer) (c : ℕ) : Prop :=
  ∃ n ∈ srv.clients, n.id = c ∧ n.client.state = .remove

/-- A marked client is left alone for the rest of the pass and gone after it, and
only clients that wait for a body are read into `pkt_buf`. -/
structure MarksKept [Stack] (srv : RunningServer) (x : PollInput) : Prop where
  silent : ∀ m n c, m ≤ n → Marked (dispatch srv x m).srv c →
    ∀ es, (dispatch srv x n).events = (dispatch srv x m).events ++ es →
      (∀ k, .received c k ∉ es) ∧ .delivered c ∉ es
  kept : ∀ m n c, m ≤ n → Marked (dispatch srv x m).srv c → Marked (dispatch srv x n).srv c
  gone : ∀ m c srv', Marked (dispatch srv x m).srv c → (serverPass srv x).2 = .next srv' →
    ∀ n ∈ srv'.clients, n.id ≠ c
  body : ∀ n c state pktBuf, .body c state pktBuf ∈ (dispatch srv x n).events →
    state = .hdrRecvd ∧ pktBuf = true

/-- The loop never comes to a client that is marked already while its socket is
ready. -/
def NoneMarkedReady [Stack] (srv : RunningServer) (x : PollInput) : Prop :=
  ∀ n c client next, (dispatch srv x n).Running → (dispatch srv x n).c = some c →
    derefNode (dispatch srv x n).srv.clients c = .ok (client, next) → client.state = .remove →
    x.revents (dispatch srv x n).i ≠ pollIn

section
variable {srv : RunningServer} {x : PollInput}

theorem node_unique {ns : List Node} (h : (ns.map Node.id).Nodup) {n m : Node} (hn : n ∈ ns)
    (hm : m ∈ ns) (he : n.id = m.id) : n = m :=
  List.inj_on_of_nodup_map h hn hm he

theorem dispatch_nodup [Stack] (hok : ServerOk srv) (n : ℕ) :
    ((dispatch srv x n).srv.clients.map Node.id).Nodup := by
  obtain ⟨seen, todo, h⟩ := dispatching (x := x) hok n
  exact nodup_ids (h.nodup hok)

theorem dispatch_stable [Stack] (hok : ServerOk srv) {n : ℕ} (h : (polled srv x).length ≤ n) :
    dispatch srv x n = dispatch srv x (polled srv x).length := by
  induction n, h using Nat.le_induction with
  | base => rfl
  | succ n _ ih => rw [dispatch_succ, ih, dispatch_finished hok]

theorem dispatch_idle [Stack] (hok : ServerOk srv) (hnone : ∀ e ∈ polled srv x, e.revents = 0) (n : ℕ) :
    (dispatch srv x n).srv = srv := by
  induction n with
  | zero => rfl
  | succ n ih =>
    obtain ⟨seen, todo, h⟩ := dispatching (x := x) hok n
    rw [dispatch_succ]
    obtain hsame | ⟨c, s, rest, client, rfl, -, -, -, -, hstep, -⟩ := h.step (x := x) hok
    · rw [hsame, ih]
    · have hget := polled_get (x := x) hok h.split
      have hzero : x.revents (seen.length + 2) = 0 := hnone _ (List.mem_of_getElem? hget)
      have hready : x.revents (dispatch srv x n).i ≠ pollIn := by
        rw [h.index, hzero]
        decide
      rw [hstep, Pass.visit]
      simp only [if_neg hready]
      exact ih

theorem marked_succ [Stack] (hok : ServerOk srv) (hcond : NoneMarkedReady srv x) {n c : ℕ}
    (h : Marked (dispatch srv x n).srv c) : Marked (dispatch srv x (n + 1)).srv c ∧
      ∃ es, (dispatch srv x (n + 1)).events = (dispatch srv x n).events ++ es ∧
        (∀ k, .received c k ∉ es) ∧ .delivered c ∉ es := by
  obtain ⟨seen, todo, hd⟩ := dispatching (x := x) hok n
  rw [dispatch_succ]
  obtain hsame | ⟨d, s, rest, client, rfl, hrun, hderef, -, hmem, hstep, -⟩ := hd.step (x := x) hok
  · rw [hsame]
    exact ⟨h, [], (List.append_nil _).symm, fun k => List.not_mem_nil, List.not_mem_nil⟩
  · obtain ⟨m, hm, rfl, hstate⟩ := h
    rw [hstep]
    obtain ⟨es, hes, hev⟩ := visit_events (dispatch srv x n) d client (rest.head?.map Prod.fst)
      ⟨s, x.revents (dispatch srv x n).i⟩ (x.outcome (dispatch srv x n).i)
    by_cases hcurrent : m.id = d
    · have hclient : m = ⟨d, client⟩ := node_unique (dispatch_nodup hok n) hm hmem hcurrent
      have hmarked : client.state = .remove := by
        rw [hclient] at hstate
        exact hstate
      have hready := hcond n d client _ hrun hd.pointer hderef hmarked
      have hnodes : ((dispatch srv x n).visit d client (rest.head?.map Prod.fst)
          ⟨s, x.revents (dispatch srv x n).i⟩ (x.outcome (dispatch srv x n).i)).srv =
          (dispatch srv x n).srv := by
        rw [Pass.visit]
        simp only [if_neg hready]
        rfl
      refine ⟨?_, es, hes, fun k hk => ?_, fun hk => ?_⟩
      · rw [hnodes]
        exact ⟨m, hm, rfl, hstate⟩
      · obtain he | ⟨he, -⟩ := hev _ hk
        · cases he
        · exact hready he
      · obtain he | ⟨he, -⟩ := hev _ hk
        · cases he
        · exact hready he
    · obtain ⟨hothers, -, -⟩ := visit_nodes (dispatch srv x n) d client (rest.head?.map Prod.fst)
        ⟨s, x.revents (dispatch srv x n).i⟩ (x.outcome (dispatch srv x n).i)
      obtain ⟨m', hm', hmarks⟩ := hothers m hm hcurrent
      refine ⟨⟨m', hm', hmarks.id_eq, hmarks.remove hstate⟩, es, hes, fun k hk => ?_, fun hk => ?_⟩
      · obtain he | ⟨-, he | he | he⟩ := hev _ hk
        · cases he
        · obtain ⟨-, he⟩ | ⟨j, he⟩ := mem_enteredEvents he
          · cases he
          · exact hcurrent (PassEvent.received.inj he).1
        · cases he
        · cases he
      · obtain he | ⟨-, he | he | he⟩ := hev _ hk
        · cases he
        · obtain ⟨-, he⟩ | ⟨j, he⟩ := mem_enteredEvents he
          · cases he
          · cases he
        · exact hcurrent (PassEvent.delivered.inj he)
        · cases he

theorem marked_mono [Stack] (hok : ServerOk srv) (hcond : NoneMarkedReady srv x) {m n c : ℕ} (hmn : m ≤ n)
    (h : Marked (dispatch srv x m).srv c) : Marked (dispatch srv x n).srv c ∧
      ∃ es, (dispatch srv x n).events = (dispatch srv x m).events ++ es ∧
        (∀ k, .received c k ∉ es) ∧ .delivered c ∉ es := by
  induction n, hmn using Nat.le_induction with
  | base => exact ⟨h, [], (List.append_nil _).symm, fun k => List.not_mem_nil, List.not_mem_nil⟩
  | succ n _ ih =>
    obtain ⟨hmarked, es, hes, hreceived, hdelivered⟩ := ih
    obtain ⟨hmarked', es', hes', hreceived', hdelivered'⟩ := marked_succ hok hcond hmarked
    refine ⟨hmarked', es ++ es', by rw [hes', hes, List.append_assoc], fun k hk => ?_, fun hk => ?_⟩
    · exact (List.mem_append.mp hk).elim (hreceived k) (hreceived' k)
    · exact (List.mem_append.mp hk).elim hdelivered hdelivered'

/-- Only clients that are neither idle nor marked go into the other branch. -/
theorem body_hdrRecvd [Stack] (hok : ServerOk srv) (hcond : NoneMarkedReady srv x) (n : ℕ) :
    ∀ c state pktBuf, .body c state pktBuf ∈ (dispatch srv x n).events →
      state = .hdrRecvd ∧ pktBuf = true := by
  induction n with
  | zero => exact fun c state pktBuf h => absurd h List.not_mem_nil
  | succ n ih =>
    intro c state pktBuf h
    obtain ⟨seen, todo, hd⟩ := dispatching (x := x) hok n
    rw [dispatch_succ] at h
    obtain hsame | ⟨d, s, rest, client, rfl, hrun, hderef, -, hmem, hstep, -⟩ :=
      hd.step (x := x) hok
    · rw [hsame] at h
      exact ih c state pktBuf h
    · obtain ⟨es, hes, hev⟩ := visit_events (dispatch srv x n) d client (rest.head?.map Prod.fst)
        ⟨s, x.revents (dispatch srv x n).i⟩ (x.outcome (dispatch srv x n).i)
      rw [hstep, hes] at h
      obtain h | h := List.mem_append.mp h
      · exact ih c state pktBuf h
      · obtain he | ⟨hready, he | he | he⟩ := hev _ h
        · cases he
        · obtain ⟨hidle, he⟩ | ⟨j, he⟩ := mem_enteredEvents he
          · obtain ⟨rfl, rfl, rfl⟩ := PassEvent.body.inj he
            have hunmarked : client.state ≠ .remove := fun hmarked =>
              hcond n _ client _ hrun hd.pointer hderef hmarked hready
            have hstate : client.state = .hdrRecvd := by
              cases hc : client.state with
              | idle => exact absurd hc hidle
              | hdrRecvd => rfl
              | remove => exact absurd hc hunmarked
            exact ⟨hstate, (dispatch_bodyOk hok n).1 _ hmem hstate⟩
          · cases he
        · cases he
        · cases he

theorem marked_gone [Stack] (hok : ServerOk srv) (hcond : NoneMarkedReady srv x) {m c : ℕ}
    {srv' : RunningServer} (h : Marked (dispatch srv x m).srv c)
    (hnext : (serverPass srv x).2 = .next srv') : ∀ n ∈ srv'.clients, n.id ≠ c := by
  have hend : Marked (dispatch srv x (polled srv x).length).srv c := by
    obtain hle | hle := Nat.le_total m (polled srv x).length
    · exact (marked_mono hok hcond hle h).1
    · rw [← dispatch_stable hok hle]
      exact h
  obtain ⟨k, hk, rfl, hstate⟩ := hend
  have hswept : ∀ n ∈ (swept srv x).srv.clients, n.id ≠ k.id := by
    intro n hn he
    have hn' := hn
    rw [(swept_sweeps hok).clients, List.nil_append] at hn'
    have hsame := node_unique (dispatch_nodup hok _) (List.mem_of_mem_filter hn') hk he
    rw [← hsame] at hstate
    exact (swept_nodes hok n hn).1 hstate
  obtain ⟨hnone, -, -⟩ | ⟨-, ⟨-, rfl, -⟩ | ⟨-, rfl, -⟩⟩ := serverPass_next hnext
  · rw [dispatch_idle hok hnone] at hk
    exact absurd hstate (hok.unmarked k hk)
  · intro n hn
    obtain rfl | hn := List.mem_cons.mp hn
    · obtain ⟨seen, todo, hd⟩ := dispatching (x := x) hok (polled srv x).length
      have hbelow := below_of_keys hd.sublist hok.below k hk
      rw [swept_nextId hok]
      exact hbelow.ne'
    · exact hswept n hn
  · exact hswept

theorem marksKept_of [Stack] (hok : ServerOk srv) (hcond : NoneMarkedReady srv x) : MarksKept srv x where
  silent m n c hmn h es hes := by
    obtain ⟨-, es', hes', hquiet⟩ := marked_mono hok hcond hmn h
    rw [List.append_cancel_left (hes.symm.trans hes')]
    exact hquiet
  kept m n c hmn h := (marked_mono hok hcond hmn h).1
  gone m c srv' h hnext := marked_gone hok hcond h hnext
  body := body_hdrRecvd hok hcond

/-- A marked client that is ready when the loop comes to it is sent into the
branch for `pkt_buf`. -/
theorem marked_enters [Stack] (hok : ServerOk srv) {n c : ℕ} {client : Client} {next : Option ℕ}
    (hrun : (dispatch srv x n).Running) (hc : (dispatch srv x n).c = some c)
    (hderef : derefNode (dispatch srv x n).srv.clients c = .ok (client, next))
    (hstate : client.state = .remove) (hready : x.revents (dispatch srv x n).i = pollIn) :
    .body c .remove client.pktBuf.isSome ∈ (dispatch srv x (n + 1)).events := by
  obtain ⟨seen, todo, h⟩ := dispatching (x := x) hok n
  cases todo with
  | nil =>
    rw [h.pointer] at hc
    cases hc
  | cons k rest =>
    obtain ⟨d, s⟩ := k
    have hsame : d = c := Option.some.inj (h.pointer.symm.trans hc)
    subst hsame
    obtain ⟨client', hderef', -, -⟩ := h.deref hok
    have hclient : (client, next) = (client', rest.head?.map Prod.fst) :=
      Except.ok.inj (hderef.symm.trans hderef')
    obtain ⟨rfl, -⟩ := Prod.mk.inj hclient
    have hbody : .body d .remove client.pktBuf.isSome ∈
        enteredEvents d client (x.outcome (dispatch srv x n).i).arrival := by
      rw [enteredEvents, hstate]
      exact List.mem_cons_self
    obtain ⟨es, hes, -⟩ := serve_events ((dispatch srv x n).log [.consulted d s]) d client
      (x.outcome (dispatch srv x n).i)
    rw [dispatch_succ, h.step_eq hok hrun hderef', Pass.visit]
    simp only [if_pos hready]
    rw [hes]
    exact List.mem_append_right _ (List.mem_append_left _ hbody)

end

/-- Marks are kept exactly in the passes that come to no client that is both
marked and ready. -/
theorem marksKept_iff [Stack] {socket : Int} {srv : RunningServer} (h : ServerReachable socket srv)
    (x : PollInput) : MarksKept srv x ↔ NoneMarkedReady srv x := by
  constructor
  · intro hkept n c client next hrun hc hderef hstate hready
    have hbody := (hkept.body _ _ _ _ (marked_enters h.ok hrun hc hderef hstate hready)).1
    cases hbody
  · exact marksKept_of h.ok

/-- The connection in front sends the header of a REPLY. -/
def replyHeader : PollInput where
  revents i := if i = 2 then pollIn else 0
  outcome _ := ⟨.data 130 [0, 100, 0, 74, 127, 0], [], cbOk⟩
  accepted := -1

theorem marksKept_iff_header :
    MarksKept threeClients replyHeader ↔ NoneMarkedReady threeClients replyHeader :=
  marksKept_iff reachable_three replyHeader

def passed [Stack] (srv : RunningServer) (x : PollInput) : RunningServer :=
  match (serverPass srv x).2 with
  | .next srv' => srv'
  | _ => srv

/-- The rest of the REPLY; the callback closes the waiting client, which has just
sent something too. -/
def replyBody : PollInput where
  revents i := if i = 2 ∨ i = 3 then pollIn else 0
  outcome i := if i = 2 then ⟨.data 0 [1, 18, 52], [6], cbRemoveClient⟩ else ⟨.data 1 [], [], cbOk⟩
  accepted := -1

/-- The waiting client has no `pkt_buf` to read into. -/
theorem reply_breaks_mark : ServerReachable 3 (passed threeClients replyHeader) ∧
    ¬ MarksKept (passed threeClients replyHeader) replyBody ∧
    (serverPass (passed threeClients replyHeader) replyBody).2 = .faulted .nullPointer := by
  refine ⟨.pass reachable_three replyHeader rfl, fun h => ?_, by decide⟩
  have hbody : .body 1 .remove false ∈
    (dispatch (passed threeClients replyHeader) replyBody 2).events := by decide
  cases (h.body 2 1 .remove false hbody).1

end RN2223.Praxis2

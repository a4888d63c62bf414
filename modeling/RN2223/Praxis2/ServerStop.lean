import RN2223.Praxis2.ServerLife

/-!
# The heap over a run of the server

Each pass takes the blocks of the client list to those of the next list, and
`server_stop` frees what is left.
-/

namespace RN2223.Praxis2
open CMemory Machine

/-! ### A pass -/

/-- Between packets a client has no buffer for a body. -/
def Node.IdleFree (n : Node) : Prop := n.client.state = .idle → n.client.pktBuf = none

theorem Node.Marks.idleFree {n n' : Node} (h : n.Marks n') (hn : n.IdleFree) : n'.IdleFree := by
  obtain rfl | rfl := h
  · exact hn
  · exact fun he => nomatch he

theorem serve_idleFree [Stack] {p : Pass} {c : ℕ} {client : Client} {o : Outcome}
    (hall : ∀ n ∈ p.srv.clients, n.IdleFree) (hmem : ⟨c, client⟩ ∈ p.srv.clients) :
    ∀ n ∈ (p.serve c client o).srv.clients, n.IdleFree := by
  have hupdate : ∀ client' : Client, (client'.state = .idle → client'.pktBuf = none) →
      ∀ n ∈ (p.srv.update c client').clients, n.IdleFree := by
    intro client' hclient n hn
    obtain hn | hn := mem_update hn
    · exact hall n hn
    · rw [Node.IdleFree, hn]
      exact hclient
  unfold Pass.serve
  dsimp only
  cases hserve : serveClient client o.arrival.recv with
  | error f => exact hall
  | ok out =>
    have hpointers := serveClient_pointers hserve
    cases out with
    | closed => exact fun n hn => hall n (mem_remove hn)
    | kept client' =>
      refine hupdate client' fun hidle => ?_
      obtain ⟨-, hc', -⟩ | ⟨-, hstate, hbuf, -⟩ := hpointers
      · rw [hc'] at hidle
        cases hidle
      · rw [hall _ hmem (hstate.symm.trans hidle)] at hbuf
        exact Option.isNone_iff_eq_none.mp (Option.isSome_eq_false_iff.mp hbuf)
    | deliver client' pack =>
      obtain ⟨-, -, -, -, hbuf'⟩ := hpointers
      have hmarked : ∀ n ∈ ((p.srv.update c client').closeSockets o.marks).clients,
          n.IdleFree := by
        intro n hn
        obtain ⟨m, hm, hmarks⟩ := mem_closeSockets hn
        exact hmarks.idleFree (hupdate client' (fun _ => hbuf') m hm)
      dsimp only
      split
      · exact fun n hn => hmarked n (mem_remove hn)
      · exact hmarked

section
variable {srv : RunningServer} {x : PollInput} {p : Pass} {seen todo : List (ℕ × Int)}

theorem step_live [Stack] (h : Dispatching srv p seen todo) (hok : ServerOk srv)
    (hall : ∀ n ∈ p.srv.clients, n.IdleFree) :
    liveAfter p.srv.live (p.life (polled srv x) x.outcome) =
        some (p.step (polled srv x) x.outcome).srv.live ∧
      ∀ n ∈ (p.step (polled srv x) x.outcome).srv.clients, n.IdleFree := by
  by_cases hrun : p.Running
  · cases todo with
    | nil =>
      have hc : p.c = none := h.pointer
      simp only [Pass.life, Pass.step, if_pos hrun, hc]
      exact ⟨rfl, hall⟩
    | cons k rest =>
      obtain ⟨c, s⟩ := k
      obtain ⟨client, hderef, -, hmem⟩ := h.deref hok
      have hc : p.c = some c := h.pointer
      have hget := polled_get (x := x) hok h.split
      rw [← h.index] at hget
      have hlive := client_live hmem
      simp only [Pass.life, Pass.step, if_pos hrun, hc, hderef, hget]
      rw [liveAfter_cons (BlockEvent.after_use hlive)]
      split
      · have hnodup := nodup_ids (h.nodup hok)
        exact ⟨serve_live (p := p.log [.consulted c s]) hnodup hmem (hall _ hmem),
          serve_idleFree (p := p.log [.consulted c s]) hall hmem⟩
      · exact ⟨rfl, hall⟩
  · simp only [Pass.life, Pass.step, if_neg hrun]
    exact ⟨rfl, hall⟩

theorem dispatchLife_live [Stack] (hok : ServerOk srv) (hall : ∀ n ∈ srv.clients, n.IdleFree) (n : ℕ) :
    liveAfter srv.live (dispatchLife srv x n) = some (dispatch srv x n).srv.live ∧
      ∀ m ∈ (dispatch srv x n).srv.clients, m.IdleFree := by
  induction n with
  | zero => exact ⟨rfl, hall⟩
  | succ n ih =>
    obtain ⟨seen, todo, h⟩ := dispatching (x := x) hok n
    obtain ⟨hlive, hidle⟩ := step_live (x := x) h hok ih.2
    rw [dispatch_succ]
    refine ⟨?_, hidle⟩
    rw [dispatchLife, List.range_succ, List.flatMap_append, List.flatMap_singleton]
    exact liveAfter_trans ih.1 hlive

theorem sweepLife_live {done todo : List Node} (h : p.srv.clients = done ++ todo)
    (hnodup : (p.srv.clients.map Node.id).Nodup) :
    liveAfter p.srv.live (sweepLife todo p) = some (sweepNodes todo p).srv.live := by
  induction todo generalizing p done with
  | nil => rfl
  | cons n next ih =>
    have hn : n ∈ p.srv.clients := by
      rw [h]
      exact List.mem_append_right _ List.mem_cons_self
    rw [sweepLife, sweepNodes, liveAfter_cons (BlockEvent.after_use (client_live hn))]
    split
    · have hclients : (p.remove n.id).srv.clients = done ++ next :=
        congrArg RunningServer.clients (remove_nodes h (fresh_of_split h hnodup).1)
      refine liveAfter_trans (removeLife_live hnodup hn) (ih hclients ?_)
      rw [hclients]
      rw [h] at hnodup
      exact hnodup.sublist (((List.sublist_cons_self n next).append_left done).map _)
    · have hrest : p.srv.clients = (done ++ [n]) ++ next := by
        rw [h, List.append_assoc, List.singleton_append]
      exact ih hrest hnodup

theorem stopLife_live {ns : List Node} (h : srv.clients = ns) (hnodup : (ns.map Node.id).Nodup) :
    liveAfter srv.live (stopLife ns srv) = some ∅ ∧ (stopNodes ns srv).clients = [] ∧
      (stopNodes ns srv).nClients = srv.nClients - ns.length := by
  induction ns generalizing srv with
  | nil =>
    have hlive : srv.live = ∅ := by rw [RunningServer.live, h]; rfl
    exact ⟨congrArg some hlive, h, (Int.sub_zero _).symm⟩
  | cons n next ih =>
    have hn : n ∈ srv.clients := by
      rw [h]
      exact List.mem_cons_self
    have hremove := remove_nodes (a := []) h List.not_mem_nil
    have hnodup' : (srv.clients.map Node.id).Nodup := by rw [h]; exact hnodup
    obtain ⟨hlive, hclients, hcount⟩ := ih (congrArg RunningServer.clients hremove)
      (List.nodup_cons.mp hnodup).2
    refine ⟨?_, hclients, ?_⟩
    · rw [stopLife, liveAfter_cons (BlockEvent.after_use (client_live hn))]
      exact liveAfter_trans (removeLife_live hnodup' hn) hlive
    · have hone : (srv.remove n.id).nClients = srv.nClients - 1 :=
        congrArg RunningServer.nClients hremove
      rw [stopNodes, hcount, hone, List.length_cons]
      omega

theorem swept_idleFree [Stack] (hok : ServerOk srv) (hall : ∀ n ∈ srv.clients, n.IdleFree) :
    ∀ n ∈ (swept srv x).srv.clients, n.IdleFree := by
  intro n hn
  obtain ⟨hclients, -⟩ := swept_sweeps (x := x) hok
  rw [hclients, List.nil_append] at hn
  exact (dispatchLife_live hok hall _).2 n (List.mem_filter.mp hn).1

theorem swept_life [Stack] (hok : ServerOk srv) (hall : ∀ n ∈ srv.clients, n.IdleFree) :
    liveAfter srv.live (dispatchLife srv x (polled srv x).length ++
      sweepLife (dispatch srv x (polled srv x).length).srv.clients
        (dispatch srv x (polled srv x).length)) = some (swept srv x).srv.live := by
  obtain ⟨seen, todo, h⟩ := dispatching (x := x) hok (polled srv x).length
  exact liveAfter_trans (dispatchLife_live hok hall _).1
    (sweepLife_live (List.nil_append _).symm (nodup_ids (h.nodup hok)))

/-- What a pass leaves on the heap. -/
structure PassLeaves (srv : RunningServer) (r : PassResult) (live : Finset ClientBlock) : Prop where
  next : ∀ srv', r = .next srv' → live = srv'.live ∧ ∀ n ∈ srv'.clients, n.IdleFree
  stopped : r = .stopped → live = srv.live

theorem passLife_live [Stack] (hok : ServerOk srv) (hall : ∀ n ∈ srv.clients, n.IdleFree) :
    ∃ live, liveAfter srv.live (passLife srv x) = some live ∧
      PassLeaves srv (serverPass srv x).2 live := by
  unfold passLife serverPass
  by_cases hnone : ∀ e ∈ polled srv x, e.revents = 0
  · rw [if_pos hnone, if_pos hnone]
    refine ⟨srv.live, rfl, ⟨?_, fun he => rfl⟩⟩
    rintro srv' ⟨⟩
    exact ⟨rfl, hall⟩
  rw [if_neg hnone, if_neg hnone]
  by_cases hkey : x.revents 0 = pollIn
  · rw [if_pos hkey, if_pos hkey]
    exact ⟨srv.live, rfl, ⟨fun srv' he => (nomatch he), fun _ => rfl⟩⟩
  rw [if_neg hkey, if_neg hkey]
  dsimp only
  cases hfault : (dispatch srv x (polled srv x).length).fault with
  | some f =>
    exact ⟨_, (dispatchLife_live hok hall _).1, ⟨fun srv' he => (nomatch he), fun he => (nomatch he)⟩⟩
  | none =>
    dsimp only
    by_cases hlisten : x.revents 1 = pollIn
    · rw [if_pos hlisten, if_pos hlisten]
      refine ⟨((swept srv x).srv.add x.accepted).live, ?_, ⟨?_, fun he => (nomatch he)⟩⟩
      · exact liveAfter_trans (swept_life hok hall) (addLife_live (swept_ok hok).below _)
      · rintro srv' ⟨⟩
        refine ⟨rfl, fun n hn => ?_⟩
        obtain rfl | hn := List.mem_cons.mp hn
        · exact fun _ => rfl
        · exact swept_idleFree hok hall n hn
    · rw [if_neg hlisten, if_neg hlisten, List.append_nil]
      refine ⟨(swept srv x).srv.live, swept_life hok hall, ⟨?_, fun he => (nomatch he)⟩⟩
      rintro srv' ⟨⟩
      exact ⟨rfl, swept_idleFree hok hall⟩

/-! ### A run -/

/-- What a run leaves on the heap. -/
def RunResult.Leaves : RunResult → Finset ClientBlock → Prop
  | .running srv, live => live = srv.live
  | .stopped srv, live => live = ∅ ∧ srv.clients = [] ∧ srv.nClients = 0
  | .faulted _, _ => True

theorem pollLife_live (srv : RunningServer) : liveAfter srv.live (pollLife srv) = some srv.live := by
  refine liveAfter_walk fun e he => ?_
  obtain ⟨n, hn, rfl⟩ := List.mem_map.mp he
  exact ⟨n, List.mem_of_mem_take hn, rfl⟩

theorem serverStop_live (hok : ServerOk srv) :
    liveAfter srv.live (stopLife srv.clients srv) = some ∅ ∧
      (RunResult.stopped (serverStop srv)).Leaves ∅ := by
  obtain ⟨hlive, hclients, hcount⟩ := stopLife_live rfl (nodup_ids hok.nodup)
  exact ⟨hlive, rfl, hclients, by rw [serverStop, hcount, hok.count, Int.sub_self]⟩

theorem serverRun_leaves [Stack] (hok : ServerOk srv) (hall : ∀ n ∈ srv.clients, n.IdleFree)
    (xs : List (Option PollInput)) :
    ∃ live, liveAfter srv.live (serverRun srv xs).1 = some live ∧
      (serverRun srv xs).2.Leaves live := by
  induction xs generalizing srv with
  | nil => exact ⟨srv.live, rfl, rfl⟩
  | cons x xs ih =>
    cases x with
    | none =>
      obtain ⟨hlive, hleaves⟩ := serverStop_live hok
      exact ⟨∅, liveAfter_trans (pollLife_live srv) hlive, hleaves⟩
    | some x =>
      obtain ⟨live, hlive, hpass⟩ := passLife_live (x := x) hok hall
      have hpolled := liveAfter_trans (pollLife_live srv) hlive
      rw [serverRun]
      cases hresult : (serverPass srv x).2 with
      | faulted f => exact ⟨live, hpolled, trivial⟩
      | stopped =>
        obtain ⟨hstop, hleaves⟩ := serverStop_live hok
        rw [hpass.stopped hresult] at hpolled
        exact ⟨∅, liveAfter_trans hpolled hstop, hleaves⟩
      | next srv' =>
        obtain ⟨hsame, hall'⟩ := hpass.next srv' hresult
        rw [hsame] at hpolled
        obtain ⟨live', hlive', hleaves⟩ := ih (serverPass_ok hok hresult) hall'
        exact ⟨live', liveAfter_trans hpolled hlive', hleaves⟩

end

/-! ### What is lost -/

/-- Only packets are lost. -/
def LosesPacks (es : List LifeEvent) : Prop := ∀ b, .lose b ∈ es → ∃ c, b = .pack c

section
variable {srv : RunningServer} {x : PollInput} {p : Pass} {c : ℕ} {es es' : List LifeEvent}

theorem losesPacks_nil : LosesPacks [] := fun _ hb => absurd hb List.not_mem_nil

theorem LosesPacks.append (h : LosesPacks es) (h' : LosesPacks es') : LosesPacks (es ++ es') :=
  fun b hb => (List.mem_append.mp hb).elim (h b) (h' b)

theorem losesPacks_of_none (h : ∀ b, .lose b ∉ es) : LosesPacks es := fun b hb => absurd hb (h b)

theorem losesPacks_use (b : ClientBlock) (h : LosesPacks es) : LosesPacks (.use b :: es) :=
  fun d hd => h d ((List.mem_cons.mp hd).resolve_left fun he => (nomatch he))

theorem losesPacks_flatMap {α : Type} {l : List α} {f : α → List LifeEvent}
    (h : ∀ a ∈ l, LosesPacks (f a)) : LosesPacks (l.flatMap f) := by
  intro b hb
  obtain ⟨a, ha, hb⟩ := List.mem_flatMap.mp hb
  exact h a ha b hb

theorem losesPacks_uses {ns : List Node} (h : ∀ e ∈ es, ∃ n ∈ ns, e = .use (.client n.id)) :
    LosesPacks es := by
  refine losesPacks_of_none fun b hb => ?_
  obtain ⟨n, -, he⟩ := h _ hb
  cases he

theorem removeLife_losesPacks (srv : RunningServer) (c : ℕ) : LosesPacks (removeLife srv c) := by
  refine (losesPacks_uses fun e he => walkTo_uses he).append ?_
  split
  · exact losesPacks_nil
  · refine losesPacks_use _ (losesPacks_of_none fun b hb => ?_)
    obtain ⟨d, -, he⟩ := List.mem_map.mp hb
    cases he

theorem decodeHdrLife_losesPacks (c : ℕ) (client : Client) :
    LosesPacks (decodeHdrLife c client) := by
  refine losesPacks_use _ (LosesPacks.append (fun b hb => ?_) ?_)
  · split at hb
    · exact ⟨c, BlockEvent.lose.inj (List.mem_singleton.mp hb)⟩
    · cases hb
  · exact losesPacks_of_none fun b hb => by simp at hb

theorem decodeBodyLife_losesPacks (c : ℕ) (client' : Client) :
    LosesPacks (decodeBodyLife c client') := by
  refine losesPacks_use _ (losesPacks_use _ (losesPacks_of_none fun b hb => ?_))
  split at hb <;> simp at hb

theorem serveLife_losesPacks [Stack] (p : Pass) (c : ℕ) (client : Client) (o : Outcome) :
    LosesPacks (p.serveLife c client o) := by
  refine LosesPacks.append (losesPacks_of_none fun b hb => ?_) ?_
  · unfold bufferUse at hb
    split at hb
    · cases List.mem_singleton.mp hb
    · split at hb
      · cases List.mem_singleton.mp hb
      · cases hb
  · split
    · exact losesPacks_nil
    · split
      · exact decodeHdrLife_losesPacks c client
      · exact losesPacks_nil
    · exact removeLife_losesPacks p.srv c
    · refine (((decodeBodyLife_losesPacks c _).append ?_).append ?_).append ?_
      · split
        · exact losesPacks_use _ losesPacks_nil
        · exact losesPacks_nil
      · exact losesPacks_flatMap fun s _ => losesPacks_uses fun e he => markLife_uses he
      · split
        · exact removeLife_losesPacks _ c
        · exact losesPacks_nil

theorem life_losesPacks [Stack] (fds : List PollFd) (outcome : ℕ → Outcome) (p : Pass) :
    LosesPacks (p.life fds outcome) := by
  unfold Pass.life
  split
  · split
    · exact losesPacks_nil
    · refine losesPacks_use _ ?_
      split
      · exact losesPacks_nil
      · split
        · exact losesPacks_nil
        · split
          · exact serveLife_losesPacks p _ _ _
          · exact losesPacks_nil
  · exact losesPacks_nil

theorem sweepLife_losesPacks (ns : List Node) (p : Pass) : LosesPacks (sweepLife ns p) := by
  induction ns generalizing p with
  | nil => exact losesPacks_nil
  | cons n next ih =>
    refine losesPacks_use _ ?_
    split
    · exact (removeLife_losesPacks p.srv n.id).append (ih _)
    · exact ih p

theorem stopLife_losesPacks (ns : List Node) (srv : RunningServer) :
    LosesPacks (stopLife ns srv) := by
  induction ns generalizing srv with
  | nil => exact losesPacks_nil
  | cons n next ih => exact losesPacks_use _ ((removeLife_losesPacks srv n.id).append (ih _))

theorem passLife_losesPacks [Stack] (srv : RunningServer) (x : PollInput) :
    LosesPacks (passLife srv x) := by
  have hloop : LosesPacks (dispatchLife srv x (polled srv x).length) :=
    losesPacks_flatMap fun k _ => life_losesPacks _ _ _
  unfold passLife
  split
  · exact losesPacks_nil
  · split
    · exact losesPacks_nil
    · dsimp only
      split
      · exact hloop
      · refine (hloop.append (sweepLife_losesPacks _ _)).append ?_
        split
        · exact losesPacks_of_none fun b hb => by simp [addLife] at hb
        · exact losesPacks_nil

theorem pollLife_losesPacks (srv : RunningServer) : LosesPacks (pollLife srv) := by
  refine losesPacks_of_none fun b hb => ?_
  obtain ⟨n, -, he⟩ := List.mem_map.mp hb
  cases he

theorem serverRun_losesPacks [Stack] (srv : RunningServer) (xs : List (Option PollInput)) :
    LosesPacks (serverRun srv xs).1 := by
  induction xs generalizing srv with
  | nil => exact losesPacks_nil
  | cons x xs ih =>
    cases x with
    | none => exact (pollLife_losesPacks srv).append (stopLife_losesPacks _ srv)
    | some x =>
      have hpass := (pollLife_losesPacks srv).append (passLife_losesPacks srv x)
      rw [serverRun]
      cases (serverPass srv x).2 with
      | faulted f => exact hpass
      | stopped => exact hpass.append (stopLife_losesPacks _ srv)
      | next srv' => exact hpass.append (ih srv')

end

/-- However long the server runs, whatever its sockets bring and however it ends, it uses
and frees only blocks that are live. While it runs these are the blocks of its list, after
`server_stop` there are none, and what it has allocated is freed once, packets excepted
whose pointer was overwritten. -/
theorem serverRun_lifetimes [Stack] (socket : Int) (xs : List (Option PollInput)) :
    ∃ live, liveAfter ∅ (serverRun (serverStart socket) xs).1 = some live ∧
      (serverRun (serverStart socket) xs).2.Leaves live ∧
      LosesPacks (serverRun (serverStart socket) xs).1 ∧
      ∀ b, (serverRun (serverStart socket) xs).1.count (.alloc b) =
        (serverRun (serverStart socket) xs).1.count (.free b) +
          (serverRun (serverStart socket) xs).1.count (.lose b) + if b ∈ live then 1 else 0 := by
  obtain ⟨live, hlive, hleaves⟩ := serverRun_leaves (serverStart_ok socket)
    (fun n hn => absurd hn List.not_mem_nil) xs
  exact ⟨live, hlive, hleaves, serverRun_losesPacks _ xs, fun b => liveAfter_count hlive b⟩

end RN2223.Praxis2

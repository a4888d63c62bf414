import RN2223.Lib.Lifetime
import RN2223.Praxis2.MarkedClients

/-!
# The server from its first pass to `server_stop` (server.c:109-223)

The client records, their buffers and their packets on the heap. Whatever arrives and
however the loop ends, none is touched after it is freed and none is freed twice; only
packets are lost, where `client_decode_hdr` overwrites the pointer to the last one.
-/

namespace RN2223.Praxis2
open CMemory Machine

/-- The blocks of the client `c`. A buffer goes with its `ring_buffer`, a packet with its
key and value. -/
inductive ClientBlock where
  | client (c : ℕ)
  | headerBuf (c : ℕ)
  | pktBuf (c : ℕ)
  | pack (c : ℕ)
  deriving DecidableEq

def ClientBlock.owner : ClientBlock → ℕ
  | .client c | .headerBuf c | .pktBuf c | .pack c => c

abbrev LifeEvent := BlockEvent ClientBlock

/-- In the order of `server_remove_client`; `rb_free` and `packet_free` pass over `NULL`. -/
def Node.blocks (n : Node) : List ClientBlock :=
  .headerBuf n.id :: ((if n.client.pktBuf.isSome then [.pktBuf n.id] else []) ++
    (if n.client.pack.isSome then [.pack n.id] else []) ++ [.client n.id])

def RunningServer.live (srv : RunningServer) : Finset ClientBlock :=
  (srv.clients.flatMap Node.blocks).toFinset

/-! ### What each function does to the blocks -/

/-- The search of `server_remove_client`: the records it passes. -/
def walkTo : List Node → ℕ → List LifeEvent
  | [], _ => []
  | n :: next, c => if n.id = c then [] else .use (.client n.id) :: walkTo next c

def removeLife (srv : RunningServer) (c : ℕ) : List LifeEvent :=
  walkTo srv.clients c ++
    match srv.clients.find? fun n => n.id == c with
    | none => []
    | some n => .use (.client c) :: n.blocks.map .free

/-- `server_close_socket` (`server.c:14-21`). -/
def markLife : List Node → Int → List LifeEvent
  | [], _ => []
  | n :: next, socket =>
    .use (.client n.id) :: if n.client.socket = socket then [] else markLife next socket

/-- `server_add_client` (`server.c:91-107`). -/
def addLife (srv : RunningServer) : List LifeEvent :=
  [.alloc (.client srv.nextId), .alloc (.headerBuf srv.nextId)]

/-- `client_decode_hdr` (`server.c:60-67`); the pointer to an earlier packet is
overwritten. -/
def decodeHdrLife (c : ℕ) (client : Client) : List LifeEvent :=
  .use (.headerBuf c) :: ((if client.pack.isSome then [.lose (.pack c)] else []) ++
    [.alloc (.pack c), .use (.pack c), .alloc (.pktBuf c)])

/-- `client_decode_body` (`server.c:69-79`), after which the client is `client'`. -/
def decodeBodyLife (c : ℕ) (client' : Client) : List LifeEvent :=
  .use (.pktBuf c) :: .use (.pack c) ::
    ((if client'.pack.isSome then [] else [.free (.pack c)]) ++ [.free (.pktBuf c)])

def bufferUse (c : ℕ) (client : Client) : List LifeEvent :=
  if client.state = .idle then [.use (.headerBuf c)]
  else if client.pktBuf.isSome then [.use (.pktBuf c)]
  else []

/-- What `Pass.serve` does to the blocks. -/
def Pass.serveLife [Stack] (p : Pass) (c : ℕ) (client : Client) (o : Outcome) : List LifeEvent :=
  bufferUse c client ++
    match serveClient client o.arrival.recv with
    | .error _ => []
    | .ok (.kept client') =>
      if client.state = .idle ∧ client'.state = .hdrRecvd then decodeHdrLife c client else []
    | .ok .closed => removeLife p.srv c
    | .ok (.deliver client' _) =>
      let srv := p.srv.update c client'
      decodeBodyLife c client' ++ (if client'.pack.isSome then [.use (.pack c)] else []) ++
        o.marks.flatMap (markLife srv.clients) ++
        if o.rsp = cbRemoveClient then removeLife (srv.closeSockets o.marks) c else []

/-- What `Pass.step` does to them. -/
def Pass.life [Stack] (fds : List PollFd) (outcome : ℕ → Outcome) (p : Pass) : List LifeEvent :=
  if p.Running then
    match p.c with
    | none => []
    | some c =>
      .use (.client c) ::
        match derefNode p.srv.clients c with
        | .error _ => []
        | .ok (client, _) =>
          match fds[p.i]? with
          | none => []
          | some e => if e.revents = pollIn then p.serveLife c client (outcome p.i) else []
  else []

def dispatchLife [Stack] (srv : RunningServer) (x : PollInput) (n : ℕ) : List LifeEvent :=
  (List.range n).flatMap fun k => (dispatch srv x k).life (polled srv x) x.outcome

def sweepLife : List Node → Pass → List LifeEvent
  | [], _ => []
  | n :: next, p =>
    .use (.client n.id) ::
      if n.client.state = .remove then removeLife p.srv n.id ++ sweepLife next (p.remove n.id)
      else sweepLife next p

/-- The loop before `poll` (`server.c:137-141`). -/
def pollLife (srv : RunningServer) : List LifeEvent :=
  (srv.clients.take srv.nClients.toNat).map fun n => .use (.client n.id)

/-- What `serverPass` does to them. -/
def passLife [Stack] (srv : RunningServer) (x : PollInput) : List LifeEvent :=
  if ∀ e ∈ polled srv x, e.revents = 0 then []
  else if x.revents 0 = pollIn then []
  else
    let p := dispatch srv x (polled srv x).length
    let es := dispatchLife srv x (polled srv x).length
    match p.fault with
    | some _ => es
    | none =>
      let q := sweepNodes p.srv.clients p
      es ++ sweepLife p.srv.clients p ++ if x.revents 1 = pollIn then addLife q.srv else []

/-! ### The whole run -/

def stopNodes : List Node → RunningServer → RunningServer
  | [], srv => srv
  | n :: next, srv => stopNodes next (srv.remove n.id)

/-- `server_stop` (`server.c:109-117`). -/
def serverStop (srv : RunningServer) : RunningServer := stopNodes srv.clients srv

def stopLife : List Node → RunningServer → List LifeEvent
  | [], _ => []
  | n :: next, srv =>
    .use (.client n.id) :: (removeLife srv n.id ++ stopLife next (srv.remove n.id))

inductive RunResult where
  | running (srv : RunningServer)
  | stopped (srv : RunningServer)
  | faulted (f : Fault)
  deriving DecidableEq

/-- `server_run` (`server.c:119-223`) over what its passes meet, `none` where `poll`
fails. Nothing clears `active`: the loop ends with the input, and then not in
`server_stop`, on a failing `poll` or on a key. -/
def serverRun [Stack] (srv : RunningServer) : List (Option PollInput) → List LifeEvent × RunResult
  | [] => ([], .running srv)
  | none :: _ => (pollLife srv ++ stopLife srv.clients srv, .stopped (serverStop srv))
  | some x :: xs =>
    let es := pollLife srv ++ passLife srv x
    match (serverPass srv x).2 with
    | .faulted f => (es, .faulted f)
    | .stopped => (es ++ stopLife srv.clients srv, .stopped (serverStop srv))
    | .next srv' => (es ++ (serverRun srv' xs).1, (serverRun srv' xs).2)

/-! ### The blocks of a list -/

theorem mem_blocks {n : Node} {b : ClientBlock} : b ∈ n.blocks ↔
    b = .headerBuf n.id ∨ (n.client.pktBuf.isSome = true ∧ b = .pktBuf n.id) ∨
      (n.client.pack.isSome = true ∧ b = .pack n.id) ∨ b = .client n.id := by
  cases hbuf : n.client.pktBuf.isSome <;> cases hpack : n.client.pack.isSome <;>
    simp [Node.blocks, hbuf, hpack]

theorem owner_of_mem {n : Node} {b : ClientBlock} (h : b ∈ n.blocks) : b.owner = n.id := by
  obtain rfl | ⟨-, rfl⟩ | ⟨-, rfl⟩ | rfl := mem_blocks.mp h <;> rfl

theorem blocks_nodup (n : Node) : n.blocks.Nodup := by
  unfold Node.blocks
  split <;> split <;> simp

theorem mem_live {srv : RunningServer} {b : ClientBlock} :
    b ∈ srv.live ↔ ∃ n ∈ srv.clients, b ∈ n.blocks := by
  rw [RunningServer.live, List.mem_toFinset, List.mem_flatMap]

theorem client_live {srv : RunningServer} {n : Node} (hn : n ∈ srv.clients) :
    .client n.id ∈ srv.live :=
  mem_live.mpr ⟨n, hn, mem_blocks.mpr (Or.inr (Or.inr (Or.inr rfl)))⟩

/-- The blocks of the other clients. -/
def RunningServer.others (srv : RunningServer) (c : ℕ) : Finset ClientBlock :=
  srv.live.filter fun b => b.owner ≠ c

section
variable {srv : RunningServer} {n : Node} {client' : Client} {es : List LifeEvent}

theorem mem_others {b : ClientBlock} {c : ℕ} :
    b ∈ srv.others c ↔ ∃ m ∈ srv.clients, m.id ≠ c ∧ b ∈ m.blocks := by
  rw [RunningServer.others, Finset.mem_filter, mem_live]
  constructor
  · rintro ⟨⟨m, hm, hb⟩, hne⟩
    exact ⟨m, hm, fun he => hne ((owner_of_mem hb).trans he), hb⟩
  · rintro ⟨m, hm, hne, hb⟩
    exact ⟨⟨m, hm, hb⟩, fun he => hne ((owner_of_mem hb).symm.trans he)⟩

theorem live_split (hnodup : (srv.clients.map Node.id).Nodup) (hn : n ∈ srv.clients) :
    srv.live = srv.others n.id ∪ n.blocks.toFinset := by
  ext b
  rw [Finset.mem_union, mem_live, mem_others, List.mem_toFinset]
  constructor
  · rintro ⟨m, hm, hb⟩
    by_cases hid : m.id = n.id
    · rw [List.inj_on_of_nodup_map hnodup hm hn hid] at hb
      exact Or.inr hb
    · exact Or.inl ⟨m, hm, hid, hb⟩
  · rintro (⟨m, hm, -, hb⟩ | hb)
    · exact ⟨m, hm, hb⟩
    · exact ⟨n, hn, hb⟩

theorem live_update (hn : n ∈ srv.clients) : (srv.update n.id client').live =
    srv.others n.id ∪ (Node.mk n.id client').blocks.toFinset := by
  ext b
  rw [Finset.mem_union, mem_live, mem_others, List.mem_toFinset]
  constructor
  · rintro ⟨m, hm, hb⟩
    obtain ⟨k, hk, rfl⟩ := List.mem_map.mp hm
    by_cases hid : k.id = n.id
    · rw [if_pos hid, hid] at hb
      exact Or.inr hb
    · rw [if_neg hid] at hb
      exact Or.inl ⟨k, hk, hid, hb⟩
  · rintro (⟨m, hm, hid, hb⟩ | hb)
    · exact ⟨m, update_mem client' hm hid, hb⟩
    · exact ⟨⟨n.id, client'⟩, List.mem_map.mpr ⟨n, hn, if_pos rfl⟩, hb⟩

/-- The identity of a record is that of none in front of it or behind it. -/
theorem fresh_of_split {as bs : List Node} (h : srv.clients = as ++ n :: bs)
    (hnodup : (srv.clients.map Node.id).Nodup) :
    n.id ∉ as.map Node.id ∧ n.id ∉ bs.map Node.id := by
  rw [h, List.map_append, List.map_cons] at hnodup
  obtain ⟨-, hbehind, hdisj⟩ := List.nodup_append.mp hnodup
  exact ⟨fun hc => hdisj _ hc _ List.mem_cons_self rfl, (List.nodup_cons.mp hbehind).1⟩

theorem live_remove (hnodup : (srv.clients.map Node.id).Nodup) (hn : n ∈ srv.clients) :
    (srv.remove n.id).live = srv.others n.id := by
  ext b
  rw [mem_live, mem_others]
  constructor
  · rintro ⟨m, hm, hb⟩
    refine ⟨m, mem_remove hm, fun hid => ?_, hb⟩
    obtain ⟨as, bs, hsplit⟩ := List.append_of_mem hn
    obtain ⟨hfront, hbehind⟩ := fresh_of_split hsplit hnodup
    rw [remove_nodes hsplit hfront] at hm
    obtain hm | hm := List.mem_append.mp hm
    · exact hfront (List.mem_map.mpr ⟨m, hm, hid⟩)
    · exact hbehind (List.mem_map.mpr ⟨m, hm, hid⟩)
  · rintro ⟨m, hm, hid, hb⟩
    exact ⟨m, remove_mem hm hid, hb⟩

/-- What happens to the blocks of one client leaves those of the others alone. -/
theorem others_frame (hnodup : (srv.clients.map Node.id).Nodup) (hn : n ∈ srv.clients)
    {live' : Finset ClientBlock} (h : liveAfter n.blocks.toFinset es = some live')
    (hown : ∀ e ∈ es, e.block.owner = n.id) :
    liveAfter srv.live es = some (srv.others n.id ∪ live') := by
  rw [live_split hnodup hn]
  refine liveAfter_frame h fun e he hmem => ?_
  obtain ⟨m, -, hne, hb⟩ := mem_others.mp hmem
  exact hne ((owner_of_mem hb).symm.trans (hown e he))

theorem markNode_blocks (ns : List Node) (socket : Int) :
    (markNode ns socket).flatMap Node.blocks = ns.flatMap Node.blocks := by
  induction ns with
  | nil => rfl
  | cons n next ih =>
    rw [markNode]
    split
    · rfl
    · rw [List.flatMap_cons, ih, List.flatMap_cons]

theorem closeSockets_live (srv : RunningServer) (sockets : List Int) :
    (srv.closeSockets sockets).live = srv.live := by
  induction sockets generalizing srv with
  | nil => rfl
  | cons s sockets ih =>
    have hone : srv.closeSockets (s :: sockets) = (srv.closeSockets [s]).closeSockets sockets := rfl
    rw [hone, ih]
    exact congrArg List.toFinset (markNode_blocks srv.clients s)

/-! ### The functions one by one -/

theorem walkTo_uses {ns : List Node} {c : ℕ} {e : LifeEvent} (h : e ∈ walkTo ns c) :
    ∃ n ∈ ns, e = .use (.client n.id) := by
  induction ns with
  | nil => cases h
  | cons n next ih =>
    rw [walkTo] at h
    split at h
    · cases h
    · obtain rfl | h := List.mem_cons.mp h
      · exact ⟨n, List.mem_cons_self, rfl⟩
      · obtain ⟨m, hm, he⟩ := ih h
        exact ⟨m, List.mem_cons_of_mem _ hm, he⟩

theorem markLife_uses {ns : List Node} {socket : Int} {e : LifeEvent}
    (h : e ∈ markLife ns socket) : ∃ n ∈ ns, e = .use (.client n.id) := by
  induction ns with
  | nil => cases h
  | cons n next ih =>
    obtain rfl | h := List.mem_cons.mp h
    · exact ⟨n, List.mem_cons_self, rfl⟩
    · split at h
      · cases h
      · obtain ⟨m, hm, he⟩ := ih h
        exact ⟨m, List.mem_cons_of_mem _ hm, he⟩

/-- Reading records of the list. -/
theorem liveAfter_walk (h : ∀ e ∈ es, ∃ n ∈ srv.clients, e = .use (.client n.id)) :
    liveAfter srv.live es = some srv.live := by
  refine liveAfter_uses fun e he => ?_
  obtain ⟨n, hn, rfl⟩ := h e he
  exact ⟨_, client_live hn, rfl⟩

theorem removeLife_live (hnodup : (srv.clients.map Node.id).Nodup) (hn : n ∈ srv.clients) :
    liveAfter srv.live (removeLife srv n.id) = some (srv.remove n.id).live := by
  have hfind : (srv.clients.find? fun m => m.id == n.id) = some n := by
    obtain ⟨m, hm⟩ := Option.isSome_iff_exists.mp
      (List.find?_isSome (p := fun m : Node => m.id == n.id).mpr ⟨n, hn, beq_self_eq_true n.id⟩)
    have hid : m.id = n.id := eq_of_beq (List.find?_some (p := fun m : Node => m.id == n.id) hm)
    rw [hm, List.inj_on_of_nodup_map hnodup (List.mem_of_find?_eq_some hm) hn hid]
  have hfrees : liveAfter srv.live (n.blocks.map .free) = some (srv.others n.id ∪ ∅) := by
    refine others_frame hnodup hn (liveAfter_frees (blocks_nodup n)) fun e he => ?_
    obtain ⟨b, hb, rfl⟩ := List.mem_map.mp he
    exact owner_of_mem hb
  rw [removeLife, hfind]
  refine liveAfter_trans (liveAfter_walk fun e he => walkTo_uses he) ?_
  rw [liveAfter_cons (BlockEvent.after_use (client_live hn)), hfrees, live_remove hnodup hn,
    Finset.union_empty]

theorem addLife_live (hbelow : ∀ m ∈ srv.clients, m.id < srv.nextId) (socket : Int) :
    liveAfter srv.live (addLife srv) = some (srv.add socket).live := by
  have hfresh : ∀ b ∈ srv.live, b.owner ≠ srv.nextId := by
    intro b hb
    obtain ⟨m, hm, hb⟩ := mem_live.mp hb
    rw [owner_of_mem hb]
    exact (hbelow m hm).ne
  have hclient : ClientBlock.client srv.nextId ∉ srv.live := fun hb => hfresh _ hb rfl
  have hheader : ClientBlock.headerBuf srv.nextId ∉ insert (.client srv.nextId) srv.live := by
    rw [Finset.mem_insert]
    rintro (he | hb)
    · cases he
    · exact hfresh _ hb rfl
  rw [addLife, liveAfter_cons (BlockEvent.after_alloc hclient),
    liveAfter_cons (BlockEvent.after_alloc hheader)]
  refine congrArg some (Finset.ext fun b => ?_)
  rw [Finset.mem_insert, Finset.mem_insert, mem_live, mem_live, RunningServer.add,
    List.exists_mem_cons_iff, mem_blocks]
  simp only [newClient, Option.isSome_none, Bool.false_eq_true, false_and, false_or]
  exact (or_assoc).symm

end

/-! ### Serving a client -/

/-- What serving a client does to its pointers. -/
def Served.Pointers (c : Client) : Served → Prop
  | .kept c' =>
    c.state = .idle ∧ c'.state = .hdrRecvd ∧ c'.pktBuf.isSome = true ∧ c'.pack.isSome = true ∨
      ¬ (c.state = .idle ∧ c'.state = .hdrRecvd) ∧ c'.state = c.state ∧
        c'.pktBuf.isSome = c.pktBuf.isSome ∧ c'.pack = c.pack
  | .deliver c' _ => c.state ≠ .idle ∧ c.pktBuf.isSome = true ∧ c.pack.isSome = true ∧
      c'.state = .idle ∧ c'.pktBuf = none
  | .closed => True

theorem serveIdle_pointers [Stack] {c : Client} {recv : ℕ → Recv} {out : Served} (hc : c.state = .idle)
    (h : serveIdle c recv = .ok out) : out.Pointers c := by
  have hidle : ¬ (c.state = .idle ∧ c.state = .hdrRecvd) := by
    rintro ⟨-, hstate⟩
    rw [hc] at hstate
    cases hstate
  obtain ⟨n, -, h⟩ := bind_eq_ok.mp h
  split at h
  · dsimp only at h
    split at h
    · obtain ⟨c', hdec, h⟩ := bind_eq_ok.mp h
      cases h
      obtain ⟨pack, -, hdec⟩ := bind_eq_ok.mp hdec
      cases pack with
      | none => cases hdec
      | some p =>
        cases hdec
        exact Or.inl ⟨hc, rfl, rfl, rfl⟩
    · cases h
      exact Or.inr ⟨hidle, rfl, rfl, rfl⟩
  · cases h
    trivial
  · cases h
    exact Or.inr ⟨hidle, rfl, rfl, rfl⟩

theorem serveBody_pointers [Stack] {c : Client} {b : RingBuffer} {recv : ℕ → Recv} {out : Served}
    (hc : c.state ≠ .idle) (hb : c.pktBuf = some b) (h : serveBody c b recv = .ok out) :
    out.Pointers c := by
  have hsome : c.pktBuf.isSome = true := by rw [hb]; rfl
  have hidle : ∀ c' : Client, ¬ (c.state = .idle ∧ c'.state = .hdrRecvd) := fun c' he => hc he.1
  obtain ⟨n, -, h⟩ := bind_eq_ok.mp h
  split at h
  · dsimp only at h
    split at h
    · obtain ⟨c', hdec, h⟩ := bind_eq_ok.mp h
      cases h
      obtain ⟨_, _, q, -, hpack, -, rfl⟩ := clientDecodeBody_cases hdec
      exact ⟨hc, hsome, Option.isSome_of_eq_some hpack, rfl, rfl⟩
    · cases h
      exact Or.inr ⟨hidle _, rfl, hsome.symm, rfl⟩
  · cases h
    trivial
  · cases h
    exact Or.inr ⟨hidle _, rfl, rfl, rfl⟩

theorem serveClient_pointers [Stack] {c : Client} {recv : ℕ → Recv} {out : Served}
    (h : serveClient c recv = .ok out) : out.Pointers c := by
  unfold serveClient at h
  split at h
  · next hc => exact serveIdle_pointers hc h
  · next hc =>
    split at h
    · next b hb => exact serveBody_pointers hc hb h
    · cases h

section
variable {c : ℕ} {client client' : Client}

theorem decodeHdrLife_blocks (hbuf : client.pktBuf = none) (hbuf' : client'.pktBuf.isSome = true)
    (hpack' : client'.pack.isSome = true) :
    liveAfter (Node.mk c client).blocks.toFinset (decodeHdrLife c client) =
      some (Node.mk c client').blocks.toFinset := by
  cases hpack : client.pack.isSome <;>
    simp [liveAfter, decodeHdrLife, Node.blocks, BlockEvent.after, hbuf, hbuf', hpack, hpack'] <;>
    grind

theorem decodeHdrLife_owner {e : LifeEvent} (he : e ∈ decodeHdrLife c client) :
    e.block.owner = c := by
  rcases List.mem_cons.mp he with rfl | he
  · rfl
  rcases List.mem_append.mp he with hlose | he
  · split at hlose
    · rw [List.mem_singleton.mp hlose]
      rfl
    · cases hlose
  · simp only [List.mem_cons, List.not_mem_nil, or_false] at he
    obtain rfl | rfl | rfl := he <;> rfl

theorem decodeBodyLife_blocks (hbuf : client.pktBuf.isSome = true)
    (hpack : client.pack.isSome = true) (hbuf' : client'.pktBuf = none) :
    liveAfter (Node.mk c client).blocks.toFinset (decodeBodyLife c client') =
      some (Node.mk c client').blocks.toFinset := by
  cases hpack' : client'.pack.isSome <;>
    simp [liveAfter, decodeBodyLife, Node.blocks, BlockEvent.after, hbuf, hbuf', hpack, hpack'] <;>
    grind

theorem decodeBodyLife_owner {e : LifeEvent} (he : e ∈ decodeBodyLife c client') :
    e.block.owner = c := by
  rcases List.mem_cons.mp he with rfl | he
  · rfl
  rcases List.mem_cons.mp he with rfl | he
  · rfl
  rcases List.mem_append.mp he with hpack | hbuf
  · split at hpack
    · cases hpack
    · rw [List.mem_singleton.mp hpack]
      rfl
  · rw [List.mem_singleton.mp hbuf]
    rfl

variable {p : Pass} {o : Outcome}

theorem bufferUse_live (hmem : ⟨c, client⟩ ∈ p.srv.clients) :
    liveAfter p.srv.live (bufferUse c client) = some p.srv.live := by
  refine liveAfter_uses fun e he => ?_
  unfold bufferUse at he
  split at he
  · rw [List.mem_singleton.mp he]
    exact ⟨_, mem_live.mpr ⟨_, hmem, mem_blocks.mpr (Or.inl rfl)⟩, rfl⟩
  · split at he
    · next hbuf =>
      rw [List.mem_singleton.mp he]
      exact ⟨_, mem_live.mpr ⟨_, hmem, mem_blocks.mpr (Or.inr (Or.inl ⟨hbuf, rfl⟩))⟩, rfl⟩
    · cases he

theorem update_nodup {srv : RunningServer} (h : (srv.clients.map Node.id).Nodup) :
    ((srv.update c client').clients.map Node.id).Nodup := by
  have hids : (srv.update c client').clients.map Node.id = srv.clients.map Node.id := by
    rw [RunningServer.update, List.map_map]
    refine List.map_congr_left fun n _ => ?_
    rw [Function.comp_apply]
    split <;> rfl
  rw [hids]
  exact h

theorem closeSockets_nodup {srv : RunningServer} (h : (srv.clients.map Node.id).Nodup)
    (sockets : List Int) : ((srv.closeSockets sockets).clients.map Node.id).Nodup := by
  have hkeys := congrArg (List.map Prod.fst) (closeSockets_keys srv sockets)
  simp only [RunningServer.keys, List.map_map] at hkeys
  exact hkeys.symm ▸ h

/-- The end of `client_decode_body` and the packet callback. -/
theorem deliver_live {srv : RunningServer} (marks : List Int)
    (hnodup : (srv.clients.map Node.id).Nodup) (hmem : ⟨c, client⟩ ∈ srv.clients)
    (hbuf : client.pktBuf.isSome = true) (hpack : client.pack.isSome = true)
    (hbuf' : client'.pktBuf = none) :
    liveAfter srv.live (decodeBodyLife c client' ++
        (if client'.pack.isSome then [.use (.pack c)] else []) ++
        marks.flatMap (markLife (srv.update c client').clients)) =
      some ((srv.update c client').closeSockets marks).live := by
  have hmem' : ⟨c, client'⟩ ∈ (srv.update c client').clients :=
    List.mem_map.mpr ⟨_, hmem, if_pos rfl⟩
  have hdecode : liveAfter srv.live (decodeBodyLife c client') =
      some (srv.update c client').live := by
    rw [live_update (n := ⟨c, client⟩) hmem]
    exact others_frame hnodup hmem (decodeBodyLife_blocks hbuf hpack hbuf')
      fun e he => decodeBodyLife_owner he
  have hread : liveAfter (srv.update c client').live
      (if client'.pack.isSome then [.use (.pack c)] else []) = some (srv.update c client').live := by
    split
    · next hpack' =>
      have hblock : ClientBlock.pack c ∈ (Node.mk c client').blocks :=
        mem_blocks.mpr (Or.inr (Or.inr (Or.inl ⟨hpack', rfl⟩)))
      exact liveAfter_cons (BlockEvent.after_use (mem_live.mpr ⟨_, hmem', hblock⟩))
    · rfl
  have hmarks : liveAfter (srv.update c client').live
      (marks.flatMap (markLife (srv.update c client').clients)) =
        some (srv.update c client').live := by
    refine liveAfter_walk fun e he => ?_
    obtain ⟨s, -, he⟩ := List.mem_flatMap.mp he
    exact markLife_uses he
  rw [closeSockets_live]
  exact liveAfter_trans (liveAfter_trans hdecode hread) hmarks

/-- With no block freed twice or used after that, one service of a client takes the
blocks of the list to those of the next. -/
theorem serve_live [Stack] (hnodup : (p.srv.clients.map Node.id).Nodup)
    (hmem : ⟨c, client⟩ ∈ p.srv.clients) (hidle : client.state = .idle → client.pktBuf = none) :
    liveAfter p.srv.live (p.serveLife c client o) = some (p.serve c client o).srv.live := by
  refine liveAfter_trans (bufferUse_live hmem) ?_
  unfold Pass.serve
  dsimp only
  cases hserve : serveClient client o.arrival.recv with
  | error f => rfl
  | ok out =>
    have hpointers := serveClient_pointers hserve
    cases out with
    | closed => exact removeLife_live hnodup hmem
    | kept client' =>
      show _ = some (p.srv.update c client').live
      rw [live_update (n := ⟨c, client⟩) hmem]
      obtain ⟨hc, hc', hbuf, hpack⟩ | ⟨hno, -, hbuf, hpack⟩ := hpointers
      · dsimp only
        rw [if_pos ⟨hc, hc'⟩]
        exact others_frame hnodup hmem (decodeHdrLife_blocks (hidle hc) hbuf hpack)
          fun e he => decodeHdrLife_owner he
      · dsimp only
        rw [if_neg hno]
        have hsame : (Node.mk c client').blocks = (Node.mk c client).blocks := by
          simp only [Node.blocks, hbuf, hpack]
        rw [hsame]
        exact congrArg some (live_split hnodup hmem)
    | deliver client' pack =>
      obtain ⟨-, hbuf, hpack, -, hbuf'⟩ := hpointers
      have hcallback := deliver_live o.marks hnodup hmem hbuf hpack hbuf'
      have hmem' : ⟨c, client'⟩ ∈ (p.srv.update c client').clients :=
        List.mem_map.mpr ⟨_, hmem, if_pos rfl⟩
      obtain ⟨n, hn, hsame⟩ := closeSockets_mem o.marks hmem'
      have hid : n.id = c := hsame.id_eq
      dsimp only
      by_cases hrsp : o.rsp = cbRemoveClient
      · rw [if_pos hrsp, if_pos hrsp]
        refine liveAfter_trans hcallback ?_
        subst hid
        exact removeLife_live (closeSockets_nodup (update_nodup hnodup) _) hn
      · rw [if_neg hrsp, if_neg hrsp, List.append_nil]
        exact hcallback

end

end RN2223.Praxis2

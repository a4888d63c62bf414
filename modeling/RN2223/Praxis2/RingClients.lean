import RN2223.Praxis2.ClientSockets
import RN2223.Praxis2.RequestPaths

/-!
# The clients of a peer in a ring

What a peer has for its clients: a number for each connection, a record in the
list, and for some of them a request in a queue. Connections are accepted,
answered, marked and closed one at a time.
-/

namespace RN2223.Praxis2
open CMemory

variable {ι : Type} {i : ι}

/-- The clients of the peer have open connections of their own, those marked for
removal are answered, and the requests in `queue` are each held for a client. -/
structure Serves (i : ι) (fds : Int → Option LinkEnd) (clients : List Client)
    (queue : UInt16 → List Request) (W : Paths ι) : Prop where
  owned : ∀ fd c, fds fd = some (.down c) →
    ∃ l, W.conns c = some l ∧ l.target = i ∧ l.accepted = true
  inj : ∀ fd fd' c, fds fd = some (.down c) → fds fd' = some (.down c) → fd = fd'
  opened : ∀ cl ∈ clients, ∃ c, fds cl.socket = some (.down c)
  distinct : (clients.map Client.socket).Nodup
  marked : ∀ cl ∈ clients, cl.state = .remove → ∀ c, fds cl.socket = some (.down c) →
    ∃ r b, W.role c = some (.answered r b)
  waiting : ∀ hashId, ∀ req ∈ queue hashId, ∃ k r, fds req.socket = some (.down k) ∧
    W.role k = some (.held r) ∧ req.packet = r.packet ∧ keyHash r.key = hashId
  once : ∀ hashId, ((queue hashId).map Request.socket).Nodup

/-- What happens to a connection: it has its target for good, is accepted once and
closed once. -/
structure Link.Grows (l l' : Link ι) : Prop where
  target : l'.target = l.target
  accepted : l.accepted = true → l'.accepted = true
  downClosed : l.downClosed = true → l'.downClosed = true

theorem Link.Grows.refl (l : Link ι) : l.Grows l := ⟨rfl, id, id⟩

theorem Link.Grows.trans {l l' l'' : Link ι} (h : l.Grows l') (h' : l'.Grows l'') : l.Grows l'' :=
  ⟨h'.target.trans h.target, fun ha => h'.accepted (h.accepted ha),
    fun hd => h'.downClosed (h.downClosed hd)⟩

/-- The roles a peer relies on without looking at the connection. -/
inductive Role.Settled : Role → Prop where
  | held (r : ClientRequest) : Role.Settled (.held r)
  | answered (r : ClientRequest) (b : Bytes) : Role.Settled (.answered r b)

theorem sockets_erase (clients : List Client) (fd : Int) :
    (clients.eraseP fun cl => cl.socket == fd).map Client.socket =
      (clients.map Client.socket).erase fd :=
  unlinkClient_sockets ⟨0, 0, clients⟩ fd

theorem update_up_down {fds : Int → Option LinkEnd} {fd : Int} (hfree : fds fd = none) (d : ℕ)
    (x : Int) (c : ℕ) :
    Function.update fds fd (some (.up d)) x = some (.down c) ↔ fds x = some (.down c) := by
  by_cases he : x = fd
  · rw [he, Function.update_self, hfree]
    constructor <;> intro h <;> cases h
  · rw [Function.update_of_ne he]

theorem update_none_down {fds : Int → Option LinkEnd} {fd : Int} {d : ℕ}
    (hup : fds fd = some (.up d)) (x : Int) (c : ℕ) :
    Function.update fds fd none x = some (.down c) ↔ fds x = some (.down c) := by
  by_cases he : x = fd
  · rw [he, Function.update_self, hup]
    constructor <;> intro h <;> cases h
  · rw [Function.update_of_ne he]

namespace Serves
variable {fds fds' : Int → Option LinkEnd} {clients : List Client}
  {queue queue' : UInt16 → List Request} {W W' : Paths ι} {c : ℕ}

/-- The connections change, but no role of a connection the peer relies on. -/
theorem change (h : Serves i fds clients queue W)
    (hlinks : ∀ c l, W.conns c = some l → ∃ l', W'.conns c = some l' ∧ l.Grows l')
    (hroles : ∀ c l rl, W.conns c = some l → l.target = i → rl.Settled → W.role c = some rl →
      W'.role c = some rl ∨ ∃ r, rl = .held r ∧ ∀ hashId, ∀ req ∈ queue hashId,
        fds req.socket ≠ some (.down c)) : Serves i fds clients queue W' where
  owned fd c hfd := by
    obtain ⟨l, hl, ht, ha⟩ := h.owned fd c hfd
    obtain ⟨l', hl', hg⟩ := hlinks c l hl
    exact ⟨l', hl', hg.target.trans ht, hg.accepted ha⟩
  inj := h.inj
  opened := h.opened
  distinct := h.distinct
  marked cl hcl hstate c hfd := by
    obtain ⟨r, b, hrole⟩ := h.marked cl hcl hstate c hfd
    obtain ⟨l, hl, ht, -⟩ := h.owned _ c hfd
    obtain hsame | ⟨r', hr', -⟩ := hroles c l _ hl ht (.answered r b) hrole
    · exact ⟨r, b, hsame⟩
    · cases hr'
  waiting hashId req hreq := by
    obtain ⟨k, r, hfd, hrole, hp, hkey⟩ := h.waiting hashId req hreq
    obtain ⟨l, hl, ht, -⟩ := h.owned _ k hfd
    obtain hsame | ⟨-, -, hnone⟩ := hroles k l _ hl ht (.held r) hrole
    · exact ⟨k, r, hfd, hsame, hp, hkey⟩
    · exact absurd hfd (hnone hashId req hreq)
  once := h.once

/-- Numbers change that belong to no accepted connection. -/
theorem sameDown (h : Serves i fds clients queue W)
    (hfds : ∀ fd c, fds' fd = some (.down c) ↔ fds fd = some (.down c)) :
    Serves i fds' clients queue W where
  owned fd c hfd := h.owned fd c ((hfds fd c).mp hfd)
  inj fd fd' c hfd hfd' := h.inj fd fd' c ((hfds fd c).mp hfd) ((hfds fd' c).mp hfd')
  opened cl hcl := by
    obtain ⟨c, hfd⟩ := h.opened cl hcl
    exact ⟨c, (hfds _ c).mpr hfd⟩
  distinct := h.distinct
  marked cl hcl hstate c hfd := h.marked cl hcl hstate c ((hfds _ c).mp hfd)
  waiting hashId req hreq := by
    obtain ⟨k, r, hfd, hrest⟩ := h.waiting hashId req hreq
    exact ⟨k, r, (hfds _ k).mpr hfd, hrest⟩
  once := h.once

theorem queues (h : Serves i fds clients queue W)
    (hsub : ∀ hashId, (queue' hashId).Sublist (queue hashId)) :
    Serves i fds clients queue' W :=
  { h with
    waiting := fun hashId req hreq => h.waiting hashId req ((hsub hashId).subset hreq)
    once := fun hashId => ((hsub hashId).map _).nodup (h.once hashId) }

theorem not_waiting (h : Serves i fds clients queue W) (hrole : ∀ r, W.role c ≠ some (.held r))
    {hashId : UInt16} {req : Request} (hreq : req ∈ queue hashId) :
    fds req.socket ≠ some (.down c) := by
  obtain ⟨k, r, hk, hheld, -⟩ := h.waiting hashId req hreq
  intro hc
  cases hk.symm.trans hc
  exact hrole r hheld

theorem not_waiting_twice {hashId : UInt16} {req : Request} {rest : List Request}
    (h : Serves i fds clients queue W) (hq : queue hashId = req :: rest)
    (hfd : fds req.socket = some (.down c)) {h' : UInt16} {req' : Request}
    (hreq' : req' ∈ Function.update queue hashId rest h') : fds req'.socket ≠ some (.down c) := by
  intro hc
  have hsocket : req'.socket = req.socket := h.inj _ _ c hc hfd
  obtain ⟨k, r, hk, hheld, -, hkey⟩ := h.waiting hashId req (by rw [hq]; exact List.mem_cons_self)
  by_cases hh : h' = hashId
  · rw [hh, Function.update_self] at hreq'
    have honce := h.once hashId
    rw [hq, List.map_cons, List.nodup_cons, ← hsocket] at honce
    exact honce.1 (List.mem_map_of_mem hreq')
  · rw [Function.update_of_ne hh] at hreq'
    obtain ⟨k', r', hk', hheld', -, hkey'⟩ := h.waiting h' req' hreq'
    rw [hsocket, hk, Option.some.injEq, LinkEnd.down.injEq] at hk'
    rw [← hk', hheld, Option.some.injEq, Role.held.injEq] at hheld'
    exact hh (by rw [← hkey', ← hheld', hkey])

theorem dequeue {hashId : UInt16} {req : Request} {rest : List Request}
    (h : Serves i fds clients queue W) (hq : queue hashId = req :: rest) :
    Serves i fds clients (Function.update queue hashId rest) W := by
  refine h.queues fun h' => ?_
  by_cases hh : h' = hashId
  · rw [hh, Function.update_self, hq]
    exact List.sublist_cons_self req rest
  · rw [Function.update_of_ne hh]

theorem relay {d : ℕ} (h : Serves i fds clients queue W) {fd : Int} (hfree : fds fd = none)
    (hd : W.conns d = none) {r : ClientRequest} (hheld : W.role c = some (.held r))
    (hnone : ∀ hashId, ∀ req ∈ queue hashId, fds req.socket ≠ some (.down c)) (l : Link ι) :
    Serves i (Function.update fds fd (some (.up d))) clients queue
      ((W.put d l (.proxied r c)).assign c (.relayed r d)) := by
  refine (h.change (fun e le he => ?_) fun e le rl he _ _ hrole => ?_).sameDown
    (update_up_down hfree d)
  · have hed : e ≠ d := fun hed => by
      rw [hed, hd] at he
      cases he
    exact ⟨le, by simp [hed, he], .refl le⟩
  · have hed : e ≠ d := fun hed => by
      rw [hed, hd] at he
      cases he
    by_cases hec : e = c
    · rw [hec, hheld, Option.some.injEq] at hrole
      rw [hec, ← hrole]
      exact Or.inr ⟨r, rfl, hnone⟩
    · exact Or.inl (by simp [hec, hed, hrole])

/-- A connection the peer has not settled yet gets another role. -/
theorem put (h : Serves i fds clients queue W) {l l' : Link ι} (hl : W.conns c = some l)
    (hg : l.Grows l') (hsettled : ∀ rl, W.role c = some rl → ¬ rl.Settled) (rl : Role) :
    Serves i fds clients queue (W.put c l' rl) := by
  refine h.change (fun e le he => ?_) fun e le rl' he _ hset hrole => ?_
  · by_cases hec : e = c
    · rw [hec, hl, Option.some.injEq] at he
      rw [hec, ← he]
      exact ⟨l', Function.update_self .., hg⟩
    · exact ⟨le, by simp [hec, he], .refl le⟩
  · have hec : e ≠ c := fun hec => hsettled rl' (hec ▸ hrole) hset
    exact Or.inl (by simp [hec, hrole])

theorem new (h : Serves i fds clients queue W) (hc : W.conns c = none) (l : Link ι) (rl : Role) :
    Serves i fds clients queue (W.put c l rl) := by
  have hne : ∀ e le, W.conns e = some le → e ≠ c := fun e le he hec => by
    rw [hec, hc] at he
    cases he
  exact h.change (fun e le he => ⟨le, by simp [hne e le he, he], .refl le⟩)
    fun e le rl' he _ _ hrole => Or.inl (by simp [hne e le he, hrole])

theorem execute (h : Serves i fds clients queue W) (k : ℕ) (r : ClientRequest) :
    Serves i fds clients queue (W.execute k r) :=
  ⟨h.owned, h.inj, h.opened, h.distinct, h.marked, h.waiting, h.once⟩

theorem accept (h : Serves i fds clients queue W) {fd : Int} (hfree : fds fd = none) {l : Link ι}
    (hl : W.conns c = some l) (ht : l.target = i) (hnew : l.accepted = false) :
    Serves i (Function.update fds fd (some (.down c))) (newClient fd :: clients) queue
      (W.relink c { l with accepted := true }) := by
  have hunowned : ∀ x, fds x ≠ some (.down c) := by
    intro x hx
    obtain ⟨l', hl', -, ha⟩ := h.owned x c hx
    cases hl.symm.trans hl'
    cases hnew.symm.trans ha
  have hold : ∀ x d, fds x = some (.down d) →
      Function.update fds fd (some (.down c)) x = some (.down d) := by
    intro x d hx
    have hne : x ≠ fd := fun he => by
      rw [he, hfree] at hx
      cases hx
    rwa [Function.update_of_ne hne]
  have hnewer : ∀ x d, Function.update fds fd (some (.down c)) x = some (.down d) →
      (x = fd ∧ d = c) ∨ fds x = some (.down d) := by
    intro x d hx
    by_cases he : x = fd
    · rw [he, Function.update_self] at hx
      cases hx
      exact Or.inl ⟨he, rfl⟩
    · exact Or.inr (by rwa [Function.update_of_ne he] at hx)
  refine {
    owned := fun x d hx => ?_, inj := fun x y d hx hy => ?_, opened := fun cl hcl => ?_,
    distinct := ?_, marked := fun cl hcl hstate d hx => ?_,
    waiting := fun hashId req hreq => ?_, once := h.once }
  · by_cases hd : d = c
    · rw [hd]
      exact ⟨_, Function.update_self .., ht, rfl⟩
    · obtain ⟨-, hdc⟩ | hx := hnewer x d hx
      · exact absurd hdc hd
      · obtain ⟨l', hl', hrest⟩ := h.owned x d hx
        exact ⟨l', by rw [Paths.relink_conns, Function.update_of_ne hd, hl'], hrest⟩
  · obtain ⟨hxfd, hdc⟩ | hx := hnewer x d hx
    · obtain ⟨hyfd, -⟩ | hy := hnewer y d hy
      · rw [hxfd, hyfd]
      · exact absurd (hdc ▸ hy) (hunowned y)
    · obtain ⟨-, hdc⟩ | hy := hnewer y d hy
      · exact absurd (hdc ▸ hx) (hunowned x)
      · exact h.inj x y d hx hy
  · obtain rfl | hcl := List.mem_cons.mp hcl
    · exact ⟨c, Function.update_self ..⟩
    · obtain ⟨d, hd⟩ := h.opened cl hcl
      exact ⟨d, hold _ d hd⟩
  · rw [List.map_cons, List.nodup_cons]
    refine ⟨fun hmem => ?_, h.distinct⟩
    obtain ⟨cl, hcl, hsocket⟩ := List.mem_map.mp hmem
    obtain ⟨d, hd⟩ := h.opened cl hcl
    rw [hsocket, newClient, hfree] at hd
    cases hd
  · obtain rfl | hcl := List.mem_cons.mp hcl
    · cases hstate
    · obtain ⟨hxfd, -⟩ | hx := hnewer _ d hx
      · obtain ⟨e, he⟩ := h.opened cl hcl
        rw [hxfd, hfree] at he
        cases he
      · exact h.marked cl hcl hstate d hx
  · obtain ⟨k, r, hk, hrest⟩ := h.waiting hashId req hreq
    exact ⟨k, r, hold _ k hk, hrest⟩

theorem remove (h : Serves i fds clients queue W) {fd : Int} (hfd : fds fd = some (.down c))
    {l : Link ι} (hl : W.conns c = some l) (hrole : ∀ r, W.role c ≠ some (.held r)) :
    Serves i (Function.update fds fd none) (clients.eraseP fun cl => cl.socket == fd) queue
      (W.relink c { l with downClosed := true }) := by
  have hold : ∀ x d, Function.update fds fd none x = some (.down d) →
      x ≠ fd ∧ fds x = some (.down d) := by
    intro x d hx
    by_cases he : x = fd
    · rw [he, Function.update_self] at hx
      cases hx
    · exact ⟨he, by rwa [Function.update_of_ne he] at hx⟩
  have hsub : (clients.eraseP fun cl => cl.socket == fd).Sublist clients := List.eraseP_sublist
  have hgone : ∀ cl ∈ clients.eraseP fun cl => cl.socket == fd, cl.socket ≠ fd := by
    intro cl hcl he
    have hmem : cl.socket ∈ (clients.map Client.socket).erase fd := by
      rw [← sockets_erase]
      exact List.mem_map_of_mem hcl
    rw [he] at hmem
    exact h.distinct.not_mem_erase hmem
  refine {
    owned := fun x d hx => ?_,
    inj := fun x y d hx hy => h.inj x y d (hold x d hx).2 (hold y d hy).2,
    opened := fun cl hcl => ?_, distinct := (hsub.map _).nodup h.distinct,
    marked := fun cl hcl hstate d hx => h.marked cl (hsub.subset hcl) hstate d (hold _ d hx).2,
    waiting := fun hashId req hreq => ?_, once := h.once }
  · obtain ⟨l', hl', ht, ha⟩ := h.owned x d (hold x d hx).2
    by_cases hd : d = c
    · rw [hd, hl] at hl'
      cases hl'
      exact ⟨{ l with downClosed := true }, by rw [hd]; exact Function.update_self .., ht, ha⟩
    · exact ⟨l', by rw [Paths.relink_conns, Function.update_of_ne hd, hl'], ht, ha⟩
  · obtain ⟨d, hd⟩ := h.opened cl (hsub.subset hcl)
    exact ⟨d, by rw [Function.update_of_ne (hgone cl hcl), hd]⟩
  · obtain ⟨k, r, hk, hrest⟩ := h.waiting hashId req hreq
    have hne : req.socket ≠ fd := fun he => h.not_waiting hrole hreq (he ▸ hfd)
    exact ⟨k, r, by rw [Function.update_of_ne hne, hk], hrest⟩

theorem mark (h : Serves i fds clients queue W) {fd : Int} (hfd : fds fd = some (.down c))
    {r : ClientRequest} {b : Bytes} (hrole : W.role c = some (.answered r b)) :
    Serves i fds (markSocket clients fd) queue W :=
  { h with
    opened := fun cl hcl => by
      obtain hold | ⟨cl0, hcl0, hsocket, rfl⟩ := markSocket_cases clients fd cl hcl
      · exact h.opened cl hold
      · exact h.opened cl0 hcl0
    distinct := by
      rw [markSocket_sockets]
      exact h.distinct
    marked := fun cl hcl hstate d hx => by
      obtain hold | ⟨cl0, hcl0, hsocket, rfl⟩ := markSocket_cases clients fd cl hcl
      · exact h.marked cl hold hstate d hx
      · rw [hsocket, hfd] at hx
        cases hx
        exact ⟨r, b, hrole⟩ }

theorem enqueue (h : Serves i fds clients queue W) {fd : Int} (hfd : fds fd = some (.down c))
    {r : ClientRequest} (hrole : W.role c = some (.held r))
    (hnew : ∀ req ∈ queue (keyHash r.key), req.socket ≠ fd)
    (hself : queue' (keyHash r.key) = queue (keyHash r.key) ++ [⟨r.packet, fd⟩])
    (hother : ∀ hashId, hashId ≠ keyHash r.key → queue' hashId = queue hashId) :
    Serves i fds clients queue' W :=
  { h with
    waiting := fun hashId req hreq => by
      by_cases hh : hashId = keyHash r.key
      · rw [hh, hself] at hreq
        obtain hold | hone := List.mem_append.mp hreq
        · exact h.waiting hashId req (hh ▸ hold)
        · rw [List.mem_singleton.mp hone]
          exact ⟨c, r, hfd, hrole, rfl, hh.symm⟩
      · rw [hother hashId hh] at hreq
        exact h.waiting hashId req hreq
    once := fun hashId => by
      by_cases hh : hashId = keyHash r.key
      · rw [hh, hself, List.map_append, List.nodup_append]
        refine ⟨h.once _, List.nodup_singleton _, fun a ha b hb => ?_⟩
        obtain ⟨req, hreq, rfl⟩ := List.mem_map.mp ha
        rw [List.mem_singleton.mp hb]
        exact hnew req hreq
      · rw [hother hashId hh]
        exact h.once hashId }

end Serves

end RN2223.Praxis2

import RN2223.Praxis2.RingClients

/-!
# The invariant of a working ring

What holds between a peer's own data and the ways of the requests: its table is
the common table on the keys the peer claims, and every request in its queues is
one a client waits for. Whatever one peer does, the others do not notice.
-/

namespace RN2223.Praxis2
open CMemory

variable {ι : Type} [Fintype ι] {R : LinkedRing ι} {net : RingNet R} {i j : ι}

/-! ### What one peer changes for the others -/

/-- Peer `i` changes the roles of connections to itself only, except that it takes
the answers of other peers, and the values of keys it claims. -/
structure Paths.Frame (R : LinkedRing ι) (i : ι) (W W' : Paths ι) : Prop where
  links : ∀ c l, W.conns c = some l → ∃ l', W'.conns c = some l' ∧ l.Grows l'
  roles : ∀ c l rl, W.conns c = some l → l.target ≠ i → W.role c = some rl →
    W'.role c = some rl ∨ ∃ r k b, rl = .served r k b
  store : ∀ key, ¬ R.Claims i (keyHash key) → W'.obj.store key = W.obj.store key

def Paths.carried (W : Paths ι) : List Packet := W.obj.order.map fun x => x.2.packet

/-- A move of peer `i` that carries out the requests with these packets. -/
structure Paths.Moves (R : LinkedRing ι) (i : ι) (ps : List Packet) (W W' : Paths ι) : Prop
    extends Paths.Frame R i W W' where
  history : W'.obj.history = W.obj.history
  carried : W'.carried = W.carried ++ ps

namespace Paths
variable {W W' W'' : Paths ι} {ps ps' : List Packet} {c k : ℕ} {l l' : Link ι}

theorem Moves.refl (W : Paths ι) : W.Moves R i [] W where
  links _ l hl := ⟨l, hl, .refl l⟩
  roles _ _ _ _ _ hrole := Or.inl hrole
  store _ _ := rfl
  history := rfl
  carried := (List.append_nil _).symm

theorem Moves.trans (h : W.Moves R i ps W') (h' : W'.Moves R i ps' W'') :
    W.Moves R i (ps ++ ps') W'' where
  links c l hl := by
    obtain ⟨l1, hl1, hg1⟩ := h.links c l hl
    obtain ⟨l2, hl2, hg2⟩ := h'.links c l1 hl1
    exact ⟨l2, hl2, hg1.trans hg2⟩
  roles c l rl hl ht hrole := by
    obtain ⟨l1, hl1, hg1⟩ := h.links c l hl
    rcases h.roles c l rl hl ht hrole with hrole1 | hserved
    · exact h'.roles c l1 rl hl1 (fun he => ht (hg1.target.symm.trans he)) hrole1
    · exact Or.inr hserved
  store key hkey := (h'.store key hkey).trans (h.store key hkey)
  history := h'.history.trans h.history
  carried := by rw [h'.carried, h.carried, List.append_assoc]

theorem moves_put (hl : W.conns c = some l) (hg : l.Grows l')
    (hown : l.target = i ∨ ∃ r k b, W.role c = some (.served r k b)) (rl : Role) :
    W.Moves R i [] (W.put c l' rl) where
  links d ld hd := by
    by_cases hdc : d = c
    · subst hdc
      obtain rfl := Option.some.inj (hl.symm.trans hd)
      exact ⟨l', Function.update_self .., hg⟩
    · exact ⟨ld, by simp [hdc, hd], .refl ld⟩
  roles d ld rl' hd hne hrole := by
    by_cases hdc : d = c
    · subst hdc
      rcases hown with hown | ⟨r, k, b, hserved⟩
      · obtain rfl := Option.some.inj (hl.symm.trans hd)
        exact absurd hown hne
      · exact Or.inr ⟨r, k, b, Option.some.inj (hrole.symm.trans hserved)⟩
    · exact Or.inl (by simp [hdc, hrole])
  store _ _ := rfl
  history := rfl
  carried := (List.append_nil _).symm

theorem moves_assign (hl : W.conns c = some l) (ht : l.target = i) (rl : Role) :
    W.Moves R i [] (W.assign c rl) where
  links d ld hd := ⟨ld, hd, .refl ld⟩
  roles d ld rl' hd hne hrole := by
    by_cases hdc : d = c
    · subst hdc
      obtain rfl := Option.some.inj (hl.symm.trans hd)
      exact absurd ht hne
    · exact Or.inl (by simp [hdc, hrole])
  store _ _ := rfl
  history := rfl
  carried := (List.append_nil _).symm

theorem moves_relink (hl : W.conns c = some l) (hg : l.Grows l') : W.Moves R i [] (W.relink c l') where
  links d ld hd := by
    by_cases hdc : d = c
    · subst hdc
      obtain rfl := Option.some.inj (hl.symm.trans hd)
      exact ⟨l', Function.update_self .., hg⟩
    · exact ⟨ld, by simp [hdc, hd], .refl ld⟩
  roles _ _ _ _ _ hrole := Or.inl hrole
  store _ _ := rfl
  history := rfl
  carried := (List.append_nil _).symm

theorem moves_new (hc : W.conns c = none) (l : Link ι) (rl : Role) :
    W.Moves R i [] (W.put c l rl) where
  links d ld hd := by
    have hdc : d ≠ c := fun he => by
      rw [he, hc] at hd
      cases hd
    exact ⟨ld, by simp [hdc, hd], .refl ld⟩
  roles d ld rl' hd hne hrole := by
    have hdc : d ≠ c := fun he => by
      rw [he, hc] at hd
      cases hd
    exact Or.inl (by simp [hdc, hrole])
  store _ _ := rfl
  history := rfl
  carried := (List.append_nil _).symm

theorem moves_relay {d : ℕ} (hl : W.conns c = some l) (ht : l.target = i) (hd : W.conns d = none)
    (ld : Link ι) (r : ClientRequest) :
    W.Moves R i [] ((W.put d ld (.proxied r c)).assign c (.relayed r d)) := by
  have hcd : c ≠ d := fun he => by
    rw [he, hd] at hl
    cases hl
  have hlink : (W.put d ld (.proxied r c)).conns c = some l := by
    rw [put_conns, Function.update_of_ne hcd, hl]
  exact (moves_new hd ld (.proxied r c)).trans (moves_assign hlink ht (.relayed r d))

theorem apply_store_of_ne (r : ClientRequest) (f : Bytes → Option Bytes) {key : Bytes}
    (hkey : key ≠ r.key) : (r.apply f).2 key = f key := if_neg hkey

theorem moves_execute {r : ClientRequest} (hr : R.Claims i (keyHash r.key)) :
    W.Moves R i [r.packet] (W.execute k r) where
  links d ld hd := ⟨ld, hd, .refl ld⟩
  roles _ _ _ _ _ hrole := Or.inl hrole
  store key hkey := apply_store_of_ne r _ fun he => hkey (he ▸ hr)
  history := rfl
  carried := by simp [carried, AtomicObject.execute]

end Paths

/-! ### What a peer knows -/

/-- The neighbours are those of the ring, and the table has what the common table
has under the keys the peer claims. -/
structure Knows (R : LinkedRing ι) (i : ι) (s : PeerState) (W : Paths ι) : Prop where
  wired : R.Wired i s
  unique : s.rt.Unique
  store : ∃ f, Represents s.ht f ∧ ∀ key, R.Claims i (keyHash key) → f key = W.obj.store key

theorem Knows.frame {s : PeerState} {W W' : Paths ι} (h : Knows R i s W) (hf : W.Frame R j W')
    (hne : i ≠ j) : Knows R i s W' := by
  obtain ⟨f, hrep, hstore⟩ := h.store
  refine ⟨h.wired, h.unique, f, hrep, fun key hkey => ?_⟩
  rw [hf.store key fun hj => hne (R.claims_unique hkey hj)]
  exact hstore key hkey

theorem Knows.same {s s' : PeerState} {W W' : Paths ι} (h : Knows R i s W)
    (hwired : R.Wired i s') (hunique : s'.rt.Unique) (hht : s'.ht = s.ht)
    (hstore : W'.obj.store = W.obj.store) : Knows R i s' W' := by
  obtain ⟨f, hrep, hf⟩ := h.store
  refine ⟨hwired, hunique, f, hht ▸ hrep, fun key hkey => ?_⟩
  rw [hstore]
  exact hf key hkey

theorem Knows.withServer {s : PeerState} {W W' : Paths ι} (h : Knows R i s W) (srv : Server)
    (hstore : W'.obj.store = W.obj.store) : Knows R i { s with srv := srv } W' :=
  h.same ⟨h.wired.self, h.wired.pred, h.wired.succ⟩ h.unique rfl hstore

theorem Knows.withSucc {s : PeerState} {W W' : Paths ι} (h : Knows R i s W) {n : Peer}
    (hn : R.Names n (R.succ i)) (hstore : W'.obj.store = W.obj.store) :
    Knows R i { s with succ := n } W' :=
  h.same ⟨h.wired.self, h.wired.pred, hn⟩ h.unique rfl hstore

theorem Serves.frame {fds : Int → Option LinkEnd} {clients : List Client}
    {queue : UInt16 → List Request} {W W' : Paths ι} (h : Serves i fds clients queue W)
    (hf : W.Frame R j W') (hne : i ≠ j) : Serves i fds clients queue W' := by
  refine h.change hf.links fun c l rl hl ht hsettled hrole => ?_
  obtain hsame | ⟨r, k, b, rfl⟩ := hf.roles c l rl hl (fun he => hne (ht.symm.trans he)) hrole
  · exact Or.inl hsame
  · cases hsettled

end RN2223.Praxis2

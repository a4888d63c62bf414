import Mathlib.Data.Fintype.EquivFin
import Mathlib.Data.Fin.VecNotation
import RN2223.Lib.CyclicOrder
import RN2223.Praxis2.Peer

/-!
# Chord rings

Peers with distinct 16-bit ids, each linked to the next smaller and the next
larger id going round, and the intervals they claim with `peer_is_responsible`.
-/

namespace RN2223.Praxis2
open CyclicOrder

structure Ring (ι : Type) [Fintype ι] where
  id : ι → UInt16
  pred : ι → ι
  two_le_card : 2 ≤ Fintype.card ι
  id_injective : Function.Injective id
  isPred : ∀ i, IsPred (fun j => (id j).toNat) (pred i) i

variable {ι : Type} [Fintype ι]

namespace Ring
variable (R : Ring ι)

def pos (i : ι) : ℕ := (R.id i).toNat

/-- Peer `i` takes itself to be responsible for `hashId`. -/
def Claims (i : ι) (hashId : UInt16) : Prop :=
  peerIsResponsible (R.id (R.pred i)) (R.id i) hashId ≠ 0

instance (i : ι) (hashId : UInt16) : Decidable (R.Claims i hashId) :=
  inferInstanceAs (Decidable (_ ≠ _))

theorem pos_injective : Function.Injective R.pos := by
  intro i j hij
  exact R.id_injective (UInt16.toNat.inj hij)

theorem isPred_pos (i : ι) : IsPred R.pos (R.pred i) i := R.isPred i

theorem pred_ne (i : ι) : R.pred i ≠ i := by
  intro he
  have hp := R.isPred_pos i
  rw [he] at hp
  rcases hp with ⟨hlt, -⟩ | ⟨hmin, hmax⟩
  · exact lt_irrefl _ hlt
  · -- lowest and highest at once: the only peer
    have hall : ∀ j, j = i := fun j => R.pos_injective (le_antisymm (hmax j) (hmin j))
    have hone : Fintype.card ι ≤ 1 :=
      Fintype.card_le_one_iff.mpr fun a b => (hall a).trans (hall b).symm
    have htwo := R.two_le_card
    omega

end Ring

theorem peerIsResponsible_iff (predId peerId hashId : UInt16) :
    peerIsResponsible predId peerId hashId ≠ 0 ↔ predId.toNat < hashId.toNat ∧
      (peerId.toNat < predId.toNat ∨ hashId.toNat ≤ peerId.toNat) := by
  simp only [peerIsResponsible, gt_iff_lt, UInt16.lt_iff_toNat_lt, UInt16.le_iff_toNat_le]
  split
  · simp
    omega
  · split
    · simp
      omega
    · simp
      omega

namespace Ring
variable (R : Ring ι)

/-- The claimed interval is the arc below the peer, except that its part below
every id of the ring is left out. -/
theorem claims_iff (i : ι) (hashId : UInt16) : R.Claims i hashId ↔
    (∃ j, R.id j < hashId) ∧ IsSuccessor R.pos hashId.toNat i := by
  have hp := R.isPred_pos i
  have harc := inArc_iff_isSuccessor R.pos_injective (R.pred_ne i) hp hashId.toNat
  have hne : R.pos (R.pred i) ≠ R.pos i := fun he => R.pred_ne i (R.pos_injective he)
  rw [Claims, peerIsResponsible_iff, ← harc, InArc]
  change R.pos (R.pred i) < hashId.toNat ∧ _ ↔ _
  constructor
  · rintro ⟨hlt, hle⟩
    refine ⟨⟨R.pred i, UInt16.lt_iff_toNat_lt.mpr hlt⟩, ?_⟩
    split
    · next h =>
      rcases hle with hle | hle
      · exact absurd hle (Nat.lt_asymm h)
      · exact ⟨hlt, hle⟩
    · exact Or.inl hlt
  · rintro ⟨⟨j, hj⟩, hin⟩
    have hj' : R.pos j < hashId.toNat := UInt16.lt_iff_toNat_lt.mp hj
    split at hin
    · exact ⟨hin.1, Or.inr hin.2⟩
    · next h =>
      have hback : R.pos i < R.pos (R.pred i) := by omega
      refine ⟨?_, Or.inl hback⟩
      rcases hin with hin | hin
      · exact hin
      · -- the arc of the smallest id: nothing lies below it
        rcases hp with ⟨hlt, -⟩ | ⟨hmin, -⟩
        · exact absurd hlt h
        · have hij := hmin j
          omega

theorem claims_unique {hashId : UInt16} {i j : ι} (hi : R.Claims i hashId)
    (hj : R.Claims j hashId) : i = j :=
  isSuccessor_unique R.pos_injective ((R.claims_iff i hashId).mp hi).2
    ((R.claims_iff j hashId).mp hj).2

/-- Exactly one peer claims the hash, and it is the Chord successor. -/
def CoveredOnce (hashId : UInt16) : Prop :=
  ∃ i, (∀ j, R.Claims j hashId ↔ j = i) ∧ IsSuccessor R.pos hashId.toNat i

/-- A hash is claimed by its successor alone precisely when it is above the
smallest id of the ring; at or below it nobody claims it. -/
theorem coveredOnce_iff (hashId : UInt16) :
    R.CoveredOnce hashId ↔ ∃ j, R.id j < hashId := by
  constructor
  · rintro ⟨i, hall, -⟩
    exact ((R.claims_iff i hashId).mp ((hall i).mpr rfl)).1
  · intro hex
    have : Nonempty ι := hex.nonempty
    obtain ⟨i, hi⟩ := exists_isSuccessor R.pos hashId.toNat
    have hclaim : R.Claims i hashId := (R.claims_iff i hashId).mpr ⟨hex, hi⟩
    refine ⟨i, fun j => ⟨fun hj => R.claims_unique hj hclaim, ?_⟩, hi⟩
    rintro rfl
    exact hclaim

end Ring

/-! ### Linked rings -/

/-- A ring whose peers know both neighbours, and the hostnames and ports the
peers were started with (`peer.c:290-309`). -/
structure LinkedRing (ι : Type) [Fintype ι] extends Ring ι where
  succ : ι → ι
  isSucc : ∀ i, IsPred (fun j => (id j).toNat) i (succ i)
  hostname : ι → String
  port : ι → UInt16

namespace LinkedRing
variable (R : LinkedRing ι)

structure Names (n : Peer) (i : ι) : Prop where
  nodeId : n.nodeId = R.id i
  hostname : n.hostname = R.hostname i
  port : n.port = R.port i

/-- The process with these globals is peer `i` of the ring. -/
structure Wired (i : ι) (s : PeerState) : Prop where
  self : R.Names s.self i
  pred : R.Names s.pred (R.pred i)
  succ : R.Names s.succ (R.succ i)

def peer (i : ι) : Peer := peerInit (R.id i) (R.hostname i) (R.port i)

/-- Peer `i` as `main` sets it up (`peer.c:300-326`). -/
def start (i : ι) : PeerState where
  ht := []
  rt := []
  self := R.peer i
  pred := R.peer (R.pred i)
  succ := R.peer (R.succ i)
  srv := ⟨3, 0, []⟩

theorem names_peer (i : ι) : R.Names (R.peer i) i := ⟨rfl, rfl, rfl⟩

theorem start_wired (i : ι) : R.Wired i (R.start i) :=
  ⟨R.names_peer i, R.names_peer _, R.names_peer _⟩

theorem names_closed {n : Peer} {i : ι} (h : R.Names n i) : R.Names n.closed i :=
  ⟨h.nodeId, h.hostname, h.port⟩

theorem pred_succ (i : ι) : R.pred (R.succ i) = i :=
  isPred_unique R.pos_injective (R.isPred_pos (R.succ i)) (R.isSucc i)

theorem succ_ne (i : ι) : R.succ i ≠ i := fun he => R.pred_ne (R.succ i) (by rw [R.pred_succ, he])

end LinkedRing

/-- A ring of four peers (`scratch1.c:131-175`). -/
def scratchRing : Ring (Fin 4) where
  id := ![10, 74, 138, 202]
  pred := ![3, 0, 1, 2]
  two_le_card := by decide
  id_injective := by decide
  isPred := by
    unfold IsPred
    decide

def scratchFirst : Fin 4 := 0

def scratchLast : Fin 4 := 3

/-- Peer 138, in front of the last one. -/
def scratchThird : Fin 4 := 2

def scratchLinked : LinkedRing (Fin 4) where
  toRing := scratchRing
  succ := ![1, 2, 3, 0]
  isSucc := by
    unfold IsPred
    decide
  hostname := fun _ => inetNtop 2130706433
  port := ![4710, 4711, 4712, 4713]

/-- A hash below the smallest id belongs to the peer with id 10, which does not
claim it; nobody does. -/
theorem scratchRing_gap : ¬ scratchRing.CoveredOnce 5 := by
  unfold Ring.CoveredOnce
  rintro ⟨i, hall, -⟩
  revert i
  decide

end RN2223.Praxis2

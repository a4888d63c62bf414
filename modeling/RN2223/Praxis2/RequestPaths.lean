import RN2223.Praxis2.RingHandlers

/-!
# The ways of the requests

What every connection of a working ring is there for and how far the request on
it has come. A request that is not on its way to a peer any more is held by the
peer, relayed by it over a second connection, or answered; the object that
carries out each request at a single moment goes along.
-/

namespace RN2223.Praxis2
open CMemory ByteOrder

variable {ι : Type} [Fintype ι] {R : LinkedRing ι} {i : ι}

/-! ### The hash of a key -/

def keyHash : Bytes → UInt16
  | b0 :: b1 :: _ => join16 b0 b1
  | [b0] => b0.toUInt16
  | [] => 0

theorem pseudoHash_exact {key : Bytes} {n : ℕ} (h : key.length = n) :
    pseudoHash key n = .ok (keyHash key) := by
  subst h
  match key with
  | [] => rfl
  | [_] => rfl
  | b0 :: b1 :: rest =>
    have hlen : (b0 :: b1 :: rest).length ≥ 2 := by simp
    simp only [pseudoHash, if_pos hlen, readByte, List.getElem?_cons_zero,
      List.getElem?_cons_succ, ok_bind, keyHash]

theorem route_data (s : PeerState) {p : Packet} (hp : p.Exact)
    (hdata : flagSet p.flags pktFlagCtrl = false) :
    route s p = .ok .own ∨ route s p = .ok .proxy ∨
      route s p = .ok (.register (keyHash p.key)) := by
  rw [route, hdata, if_neg (by decide), pseudoHash_exact hp.key, ok_bind]
  split
  · exact Or.inl rfl
  · split
    · exact Or.inr (Or.inl rfl)
    · exact Or.inr (Or.inr rfl)

/-- A peer of a ring runs the requests whose keys it claims and sends those to its
successor that the successor claims. -/
theorem route_wired {s : PeerState} (hs : R.Wired i s) {p : Packet} (hp : p.Exact)
    (hdata : flagSet p.flags pktFlagCtrl = false) : route s p = .ok
      (if R.Claims i (keyHash p.key) then .own
      else if R.Claims (R.succ i) (keyHash p.key) then .proxy else .register (keyHash p.key)) := by
  have hown : peerIsResponsible s.pred.nodeId s.self.nodeId (keyHash p.key) ≠ 0 ↔
      R.Claims i (keyHash p.key) := by
    rw [hs.pred.nodeId, hs.self.nodeId, Ring.Claims]
  have hnext : peerIsResponsible s.self.nodeId s.succ.nodeId (keyHash p.key) ≠ 0 ↔
      R.Claims (R.succ i) (keyHash p.key) := by
    rw [hs.self.nodeId, hs.succ.nodeId, Ring.Claims, R.pred_succ]
  rw [route, hdata, if_neg Bool.false_ne_true, pseudoHash_exact hp.key, ok_bind]
  simp only [hown, hnext]
  split
  · rfl
  · split <;> rfl

theorem route_lookup (net : RingNet R) (s : PeerState) (o : ι) (hashId : UInt16) :
    route s (net.lookup o hashId) = .ok .lookup := by
  rw [route, if_pos (net.lookup_ctrl o hashId), if_pos (net.lookup_lkup o hashId)]

theorem route_reply (net : RingNet R) (s : PeerState) (m : ι) (hashId : UInt16) :
    route s (net.reply m hashId) = .ok .reply := by
  rw [route, if_pos (net.reply_ctrl m hashId), net.reply_lkup, if_neg Bool.false_ne_true,
    if_pos (net.reply_rply m hashId)]

/-! ### Requests as calls on one table -/

def ClientRequest.apply (r : ClientRequest) (f : Bytes → Option Bytes) :
    Bytes × (Bytes → Option Bytes) :=
  ((r.ack (f r.key)).wire, r.toOwnRequest.apply f)

theorem ClientRequest.decode (r : ClientRequest) :
    packetDecode r.packet.wire r.packet.wire.length = .ok (some r.packet) := by
  rw [packetDecode_wire fun _ => r.exact, r.onWire]

theorem wire_ne_nil (p : Packet) : p.wire ≠ [] := by
  unfold Packet.wire
  split
  · exact List.cons_ne_nil _ _
  · exact List.cons_ne_nil _ _

abbrev RequestObject := AtomicObject ℕ ClientRequest Bytes (Bytes → Option Bytes)

/-- The client's request is under way, waits in the peer, is relayed over
connection `c`, or is answered; of a connection between peers, it has the
request of client `k`, or its answer, or a LOOKUP or REPLY, or nothing any more. -/
inductive Role where
  | asked (r : ClientRequest)
  | held (r : ClientRequest)
  | relayed (r : ClientRequest) (c : ℕ)
  | answered (r : ClientRequest) (b : Bytes)
  | proxied (r : ClientRequest) (k : ℕ)
  | served (r : ClientRequest) (k : ℕ) (b : Bytes)
  | control (p : Packet)
  | spent

def Role.partner : Role → Option ℕ
  | .relayed _ c => some c
  | .proxied _ k => some k
  | .served _ k _ => some k
  | _ => none

/-- The connections of the ring, seen as the ways of the requests. -/
structure Paths (ι : Type) where
  conns : ℕ → Option (Link ι)
  role : ℕ → Option Role
  obj : RequestObject

inductive RingNet.Control (net : RingNet R) : Packet → Prop where
  | lookup (o : ι) (hashId : UInt16) : net.Control (net.lookup o hashId)
  | reply (m : ι) (hashId : UInt16) (hm : R.Claims m hashId) : net.Control (net.reply m hashId)

theorem RingNet.Control.decode {net : RingNet R} {p : Packet} (h : net.Control p) :
    packetDecode p.wire p.wire.length = .ok (some p) := by
  cases h with
  | lookup o hashId => exact net.decode_lookup o hashId
  | reply m hashId hm => exact net.decode_reply m hashId

structure Link.Silent (l : Link ι) : Prop where
  upClosed : l.upClosed = false
  down : l.down = []
  downClosed : l.downClosed = false

namespace Paths

def partner (W : Paths ι) (c : ℕ) : Option ℕ := (W.role c).bind Role.partner

/-- What connection `c` is like in its role. -/
def Fits (net : RingNet R) (W : Paths ι) (c : ℕ) (l : Link ι) : Role → Prop
  | .asked r => l.source = none ∧ l.up = r.packet.wire ∧ l.Silent ∧
      W.obj.phase c = some (.pending r)
  | .held r => l.source = none ∧ l.up = [] ∧ l.accepted = true ∧ l.Silent ∧
      W.obj.phase c = some (.pending r)
  | .relayed r d => l.source = none ∧ l.up = [] ∧ l.accepted = true ∧ l.Silent ∧
      (W.role d = some (.proxied r c) ∨ ∃ b, W.role d = some (.served r c b))
  | .answered r b => l.source = none ∧ l.up = [] ∧ l.accepted = true ∧ l.down = b ∧
      W.obj.phase c = some (if l.upClosed then .responded r b else .executed r b)
  | .proxied r k => l.source ≠ none ∧ l.up = r.packet.wire ∧ l.Silent ∧
      R.Claims l.target (keyHash r.key) ∧ W.role k = some (.relayed r c) ∧
      W.obj.phase k = some (.pending r)
  | .served r k b => l.source ≠ none ∧ l.up = [] ∧ l.accepted = true ∧ l.down = b ∧
      W.role k = some (.relayed r c) ∧ W.obj.phase k = some (.executed r b)
  | .control p => l.source ≠ none ∧ l.up = p.wire ∧ l.downClosed = false ∧ net.Control p
  | .spent => l.source ≠ none ∧ l.up = [] ∧ l.accepted = true

def FitsAt (net : RingNet R) (W : Paths ι) (c : ℕ) : Option Role → Option (Link ι) → Prop
  | none, none => W.obj.phase c = none
  | some rl, some l => W.Fits net c l rl
  | _, _ => False

structure Ok (net : RingNet R) (W : Paths ι) : Prop where
  fits : ∀ c, W.FitsAt net c (W.role c) (W.conns c)
  obj : W.obj.Reachable ClientRequest.apply fun _ => none

def relink (W : Paths ι) (c : ℕ) (l : Link ι) : Paths ι :=
  { W with conns := Function.update W.conns c (some l) }

def assign (W : Paths ι) (c : ℕ) (role : Role) : Paths ι :=
  { W with role := Function.update W.role c (some role) }

def put (W : Paths ι) (c : ℕ) (l : Link ι) (role : Role) : Paths ι := (W.relink c l).assign c role

def execute (W : Paths ι) (k : ℕ) (r : ClientRequest) : Paths ι :=
  { W with obj := W.obj.execute ClientRequest.apply k r }

section
variable (W : Paths ι) {net : RingNet R} {W' : Paths ι} {c k : ℕ} {r : ClientRequest} {l lc : Link ι}

omit [Fintype ι] in
@[simp] theorem relink_conns : (W.relink c l).conns = Function.update W.conns c (some l) := rfl

omit [Fintype ι] in
@[simp] theorem relink_role : (W.relink c l).role = W.role := rfl

omit [Fintype ι] in
@[simp] theorem relink_obj : (W.relink c l).obj = W.obj := rfl

omit [Fintype ι] in
@[simp] theorem assign_conns (rl : Role) : (W.assign c rl).conns = W.conns := rfl

omit [Fintype ι] in
@[simp] theorem assign_role (rl : Role) :
    (W.assign c rl).role = Function.update W.role c (some rl) := rfl

omit [Fintype ι] in
@[simp] theorem assign_obj (rl : Role) : (W.assign c rl).obj = W.obj := rfl

omit [Fintype ι] in
@[simp] theorem put_conns (rl : Role) :
    (W.put c l rl).conns = Function.update W.conns c (some l) := rfl

omit [Fintype ι] in
@[simp] theorem put_role (rl : Role) :
    (W.put c l rl).role = Function.update W.role c (some rl) := rfl

omit [Fintype ι] in
@[simp] theorem put_obj (rl : Role) : (W.put c l rl).obj = W.obj := rfl

omit [Fintype ι] in
theorem put_execute_put (rl rl' : Role) (l' : Link ι) :
    ((W.put c l rl).execute k r).put c l' rl' = (W.execute k r).put c l' rl' := by
  simp [put, relink, assign, execute]

omit [Fintype ι] in
@[simp] theorem execute_conns : (W.execute k r).conns = W.conns := rfl

omit [Fintype ι] in
@[simp] theorem execute_role : (W.execute k r).role = W.role := rfl

omit [Fintype ι] in
@[simp] theorem execute_obj :
    (W.execute k r).obj = W.obj.execute ClientRequest.apply k r := rfl

variable {W}

theorem Ok.link (h : W.Ok net) {rl : Role} (hc : W.role c = some rl) :
    ∃ l, W.conns c = some l ∧ W.Fits net c l rl := by
  have hfit := h.fits c
  rw [hc] at hfit
  cases hl : W.conns c with
  | none =>
    rw [hl] at hfit
    exact hfit.elim
  | some l =>
    rw [hl] at hfit
    exact ⟨l, rfl, hfit⟩

theorem Ok.fit (h : W.Ok net) {rl : Role} (hc : W.role c = some rl) (hl : W.conns c = some l) :
    W.Fits net c l rl := by
  have hfit := h.fits c
  rwa [hc, hl] at hfit

theorem Ok.role (h : W.Ok net) (hl : W.conns c = some l) :
    ∃ rl, W.role c = some rl ∧ W.Fits net c l rl := by
  have hfit := h.fits c
  rw [hl] at hfit
  cases hc : W.role c with
  | none =>
    rw [hc] at hfit
    exact hfit.elim
  | some rl =>
    rw [hc] at hfit
    exact ⟨rl, rfl, hfit⟩

theorem Ok.new (h : W.Ok net) (hc : W.conns c = none) :
    W.role c = none ∧ W.obj.phase c = none := by
  have hfit := h.fits c
  rw [hc] at hfit
  cases hrole : W.role c with
  | none =>
    rw [hrole] at hfit
    exact ⟨rfl, hfit⟩
  | some rl =>
    rw [hrole] at hfit
    exact hfit.elim

omit [Fintype ι] in
theorem partner_eq {rl : Role} (hc : W.role c = some rl) : W.partner c = rl.partner := by
  rw [partner, hc, Option.bind_some]

theorem Ok.partner_new (h : W.Ok net) (hc : W.conns c = none) : W.partner c = none := by
  rw [Paths.partner, (h.new hc).1, Option.bind_none]

theorem Ok.partner (h : W.Ok net) {d : ℕ} (hc : W.partner c = some d) : W.partner d = some c := by
  obtain ⟨rl, hrl, hd⟩ := Option.bind_eq_some_iff.mp hc
  obtain ⟨l, -, hfit⟩ := h.link hrl
  cases rl with
  | relayed r e =>
    cases hd
    obtain ⟨-, -, -, -, hrole | ⟨b, hrole⟩⟩ := hfit <;> exact partner_eq hrole
  | proxied r k =>
    cases hd
    obtain ⟨-, -, -, -, hrole, -⟩ := hfit
    exact partner_eq hrole
  | served r k b =>
    cases hd
    obtain ⟨-, -, -, -, hrole, -⟩ := hfit
    exact partner_eq hrole
  | _ => cases hd

/-- The role only looks at the connection itself and its partner. -/
theorem Fits.congr {rl : Role} (h : W.Fits net c l rl) (hphase : W'.obj.phase c = W.obj.phase c)
    (hpartner : ∀ d, rl.partner = some d →
      W'.role d = W.role d ∧ W'.obj.phase d = W.obj.phase d) : W'.Fits net c l rl := by
  cases rl with
  | asked r => simpa only [Fits, hphase] using h
  | held r => simpa only [Fits, hphase] using h
  | relayed r d => simpa only [Fits, hpartner d rfl] using h
  | answered r b => simpa only [Fits, hphase] using h
  | proxied r k => simpa only [Fits, hpartner k rfl] using h
  | served r k b => simpa only [Fits, hpartner k rfl] using h
  | control p => exact h
  | spent => exact h

/-- A change of some connections, partners together, concerns no others. -/
theorem Ok.change (h : W.Ok net) (S : List ℕ) (hS : ∀ c ∈ S, ∀ d, W.partner c = some d → d ∈ S)
    (hsame : ∀ c, c ∉ S → W'.conns c = W.conns c ∧ W'.role c = W.role c ∧
      W'.obj.phase c = W.obj.phase c)
    (hfits : ∀ c ∈ S, W'.FitsAt net c (W'.role c) (W'.conns c))
    (hobj : W'.obj.Reachable ClientRequest.apply fun _ => none) : W'.Ok net := by
  refine ⟨fun c => ?_, hobj⟩
  by_cases hc : c ∈ S
  · exact hfits c hc
  · obtain ⟨hconns, hrole, hphase⟩ := hsame c hc
    rw [hrole, hconns]
    have hfit := h.fits c
    cases hrl : W.role c with
    | none =>
      rw [hrl] at hfit
      cases hl : W.conns c with
      | none =>
        rw [hl] at hfit
        exact hphase.trans hfit
      | some l =>
        rw [hl] at hfit
        exact hfit
    | some rl =>
      obtain ⟨l, hl, hfit⟩ := h.link hrl
      rw [hl]
      refine hfit.congr hphase fun d hd => ?_
      have hcd : W.partner c = some d := (partner_eq hrl).trans hd
      have hdS : d ∉ S := fun hdS => hc (hS d hdS c (h.partner hcd))
      exact (hsame d hdS).2

theorem Ok.change_one {rl : Role} (h : W.Ok net) (k : ℕ) (hk : W.partner k = none)
    (hsame : ∀ c, c ≠ k → W'.conns c = W.conns c ∧ W'.role c = W.role c ∧
      W'.obj.phase c = W.obj.phase c)
    (hrole : W'.role k = some rl) (hl : W'.conns k = some l) (hfit : W'.Fits net k l rl)
    (hobj : W'.obj.Reachable ClientRequest.apply fun _ => none) : W'.Ok net := by
  refine h.change [k] (fun c hc d hd => ?_) (fun c hc => ?_) (fun c hc => ?_) hobj
  · rw [List.mem_singleton.mp hc, hk] at hd
    cases hd
  · exact hsame c fun he => hc (List.mem_singleton.mpr he)
  · rw [List.mem_singleton.mp hc, hrole, hl]
    exact hfit

theorem Ok.change_two {a b : Role} {x y : Link ι} (h : W.Ok net) (k c : ℕ)
    (hk : ∀ d, W.partner k = some d → d = c) (hc : ∀ d, W.partner c = some d → d = k)
    (hsame : ∀ e, e ≠ k → e ≠ c → W'.conns e = W.conns e ∧ W'.role e = W.role e ∧
      W'.obj.phase e = W.obj.phase e)
    (hrole : W'.role k = some a) (hl : W'.conns k = some x) (hfit : W'.Fits net k x a)
    (hrole' : W'.role c = some b) (hl' : W'.conns c = some y) (hfit' : W'.Fits net c y b)
    (hobj : W'.obj.Reachable ClientRequest.apply fun _ => none) : W'.Ok net := by
  refine h.change [k, c] (fun e he d hd => ?_) (fun e he => ?_) (fun e he => ?_) hobj
  · rcases List.mem_pair.mp he with rfl | rfl
    · rw [hk d hd]
      exact List.mem_cons_of_mem _ (List.mem_singleton_self _)
    · rw [hc d hd]
      exact List.mem_cons_self
  · exact hsame e (fun hek => he (List.mem_pair.mpr (Or.inl hek)))
      fun hec => he (List.mem_pair.mpr (Or.inr hec))
  · rcases List.mem_pair.mp he with rfl | rfl
    · rw [hrole, hl]
      exact hfit
    · rw [hrole', hl']
      exact hfit'

/-! ### One move at a time -/

theorem Ok.take (h : W.Ok net) (hk : W.role k = some (.asked r)) (hl : W.conns k = some l)
    (ha : l.accepted = true) : (W.put k { l with up := [] } (.held r)).Ok net := by
  obtain ⟨hsource, -, hsilent, hphase⟩ := h.fit hk hl
  exact h.change_one k (partner_eq hk) (fun c hne => by simp [hne]) (Function.update_self ..)
    (Function.update_self ..) ⟨hsource, rfl, ha, ⟨hsilent.1, hsilent.2, hsilent.3⟩, hphase⟩ h.obj

theorem Ok.spend {p : Packet} (h : W.Ok net) (hk : W.role k = some (.control p))
    (hl : W.conns k = some l) (ha : l.accepted = true) :
    (W.put k { l with up := [] } .spent).Ok net := by
  obtain ⟨hsource, -, -, -⟩ := h.fit hk hl
  exact h.change_one k (partner_eq hk) (fun c hne => by simp [hne]) (Function.update_self ..)
    (Function.update_self ..) ⟨hsource, rfl, ha⟩ h.obj

theorem Ok.send {p : Packet} (h : W.Ok net) (hc : W.conns c = none) (hp : net.Control p)
    (i j : ι) : (W.put c { Link.sent i j p with upClosed := true } (.control p)).Ok net :=
  h.change_one c (h.partner_new hc) (fun c hne => by simp [hne]) (Function.update_self ..)
    (Function.update_self ..) ⟨by simp [Link.sent, Link.fresh], rfl, rfl, hp⟩ h.obj

theorem Ok.relay (h : W.Ok net) (hk : W.role k = some (.held r)) (hc : W.conns c = none)
    {j : ι} (hj : R.Claims j (keyHash r.key)) (i : ι) :
    ((W.put c (.sent i j r.packet) (.proxied r k)).assign k (.relayed r c)).Ok net := by
  obtain ⟨l, hl, hsource, hup, ha, hsilent, hphase⟩ := h.link hk
  have hne : k ≠ c := fun he => by
    rw [he, hc] at hl
    cases hl
  have hpk : W.partner k = none := partner_eq hk
  have hpc := h.partner_new hc
  refine h.change_two (x := l) (y := .sent i j r.packet) k c (fun d hd => ?_) (fun d hd => ?_)
    (fun e hek hec => by simp [hek, hec]) (Function.update_self ..) (by simp [hne, hl])
    ⟨hsource, hup, ha, hsilent, Or.inl (by simp [hne.symm])⟩ (b := .proxied r k)
    (by simp [hne.symm]) (by simp)
    ⟨by simp [Link.sent, Link.fresh], rfl, ⟨rfl, rfl, rfl⟩, hj, by simp, hphase⟩ h.obj
  · cases hpk.symm.trans hd
  · cases hpc.symm.trans hd

theorem Ok.answer (h : W.Ok net) (hk : W.role k = some (.held r)) (hl : W.conns k = some l) :
    ((W.execute k r).put k { l with down := l.down ++ (r.apply W.obj.store).1 }
      (.answered r (r.apply W.obj.store).1)).Ok net := by
  obtain ⟨hsource, hup, ha, hsilent, hphase⟩ := h.fit hk hl
  refine h.change_one k (partner_eq hk) (fun c hne => ?_) (Function.update_self ..)
    (Function.update_self ..) ⟨hsource, hup, ha, ?_, ?_⟩ (.execute h.obj hphase)
  · simp [hne, AtomicObject.execute]
  · simp [hsilent.down]
  · simp [AtomicObject.execute, hsilent.upClosed]

theorem Ok.serve (h : W.Ok net) (hc : W.role c = some (.proxied r k)) (hl : W.conns c = some l)
    (ha : l.accepted = true) :
    ((W.execute k r).put c { l with up := [], down := l.down ++ (r.apply W.obj.store).1 }
      (.served r k (r.apply W.obj.store).1)).Ok net := by
  obtain ⟨hsource, -, hsilent, -, hk, hphase⟩ := h.fit hc hl
  obtain ⟨lk, hlk, hksource, hkup, hka, hksilent, -⟩ := h.link hk
  have hne : k ≠ c := fun he => by
    rw [he, hc] at hk
    cases hk
  have hpk : W.partner k = some c := partner_eq hk
  have hpc : W.partner c = some k := partner_eq hc
  refine h.change_two (x := lk) k c (fun d hd => ?_) (fun d hd => ?_) (fun e hek hec => ?_)
    (a := .relayed r c) (by simp [hne, hk]) (by simp [hne, hlk])
    ⟨hksource, hkup, hka, hksilent, Or.inr ⟨(r.apply W.obj.store).1, by simp⟩⟩
    (Function.update_self ..) (Function.update_self ..)
    ⟨hsource, rfl, ha, ?_, by simp [hne, hk], ?_⟩ (.execute h.obj hphase)
  · exact Option.some.inj (hd.symm.trans hpk)
  · exact Option.some.inj (hd.symm.trans hpc)
  · simp [hek, hec, AtomicObject.execute]
  · simp [hsilent.down]
  · simp [AtomicObject.execute]

theorem Ok.passOn {b : Bytes} (h : W.Ok net) (hc : W.role c = some (.served r k b))
    (hlc : W.conns c = some lc) (hl : W.conns k = some l) :
    ((W.put c { lc with upClosed := true } .spent).put k { l with down := l.down ++ lc.down }
      (.answered r b)).Ok net := by
  obtain ⟨hsource, hup, ha, hdown, hk, hphase⟩ := h.fit hc hlc
  obtain ⟨hksource, hkup, hka, hksilent, -⟩ := h.fit hk hl
  have hne : k ≠ c := fun he => by
    rw [he, hc] at hk
    cases hk
  have hpk : W.partner k = some c := partner_eq hk
  have hpc : W.partner c = some k := partner_eq hc
  refine h.change_two k c (fun d hd => ?_) (fun d hd => ?_) (fun e hek hec => by simp [hek, hec])
    (Function.update_self ..) (Function.update_self ..) ⟨hksource, hkup, hka, ?_, ?_⟩
    (b := .spent) (y := { lc with upClosed := true }) (by simp [hne.symm]) (by simp [hne.symm])
    ⟨hsource, hup, ha⟩ h.obj
  · exact Option.some.inj (hd.symm.trans hpk)
  · exact Option.some.inj (hd.symm.trans hpc)
  · simp [hksilent.down, hdown]
  · simpa [hksilent.upClosed] using hphase

theorem Ok.relink {rl : Role} {l' : Link ι} (h : W.Ok net) (hc : W.role c = some rl)
    (hfit : W.Fits net c l' rl) : (W.relink c l').Ok net := by
  refine ⟨fun d => ?_, h.obj⟩
  have hold := h.fits d
  rw [relink_role, relink_conns]
  by_cases hd : d = c
  · rw [hd, hc, Function.update_self]
    exact hfit.congr rfl fun _ _ => ⟨rfl, rfl⟩
  · rw [Function.update_of_ne hd]
    cases hrole : W.role d <;> cases hl : W.conns d <;> rw [hrole, hl] at hold
    · exact hold
    · exact hold
    · exact hold
    · exact Fits.congr hold rfl fun _ _ => ⟨rfl, rfl⟩

theorem Ok.accept (h : W.Ok net) (hl : W.conns c = some l) :
    (W.relink c { l with accepted := true }).Ok net := by
  obtain ⟨rl, hrl, hfit⟩ := h.role hl
  refine h.relink hrl ?_
  have hsilent : l.Silent → ({ l with accepted := true } : Link ι).Silent :=
    fun hs => ⟨hs.upClosed, hs.down, hs.downClosed⟩
  cases rl with
  | asked r => exact ⟨hfit.1, hfit.2.1, hsilent hfit.2.2.1, hfit.2.2.2⟩
  | held r => exact ⟨hfit.1, hfit.2.1, rfl, hsilent hfit.2.2.2.1, hfit.2.2.2.2⟩
  | relayed r d => exact ⟨hfit.1, hfit.2.1, rfl, hsilent hfit.2.2.2.1, hfit.2.2.2.2⟩
  | answered r b => exact ⟨hfit.1, hfit.2.1, rfl, hfit.2.2.2⟩
  | proxied r k => exact ⟨hfit.1, hfit.2.1, hsilent hfit.2.2.1, hfit.2.2.2⟩
  | served r k b => exact ⟨hfit.1, hfit.2.1, rfl, hfit.2.2.2⟩
  | control p => exact hfit
  | spent => exact ⟨hfit.1, hfit.2.1, rfl⟩

def Finished (W : Paths ι) (c : ℕ) : Prop :=
  (∃ r b, W.role c = some (.answered r b)) ∨ (∃ r k b, W.role c = some (.served r k b)) ∨
    W.role c = some .spent

theorem Ok.close (h : W.Ok net) (hfin : W.Finished c) (hl : W.conns c = some l) :
    (W.relink c { l with downClosed := true }).Ok net := by
  rcases hfin with ⟨r, b, hrole⟩ | ⟨r, k, b, hrole⟩ | hrole
  · have hfit := h.fit hrole hl
    exact h.relink hrole hfit
  · have hfit := h.fit hrole hl
    exact h.relink hrole hfit
  · have hfit := h.fit hrole hl
    exact h.relink hrole hfit

def invoke (W : Paths ι) (c : ℕ) (r : ClientRequest) (e : ι) : Paths ι :=
  { W.put c { Link.fresh none e with up := r.packet.wire } (.asked r) with
    obj := W.obj.invoke c r }

theorem Ok.invoke (h : W.Ok net) (hc : W.conns c = none) (r : ClientRequest) (e : ι) :
    (W.invoke c r e).Ok net := by
  refine h.change_one c (h.partner_new hc) (fun d hne => ?_) (Function.update_self ..)
    (Function.update_self ..) ⟨rfl, rfl, ⟨rfl, rfl, rfl⟩, Function.update_self ..⟩
    (.invoke h.obj r (h.new hc).2)
  simp [Paths.invoke, hne, AtomicObject.invoke]

def respond (W : Paths ι) (c : ℕ) (l : Link ι) (r : ClientRequest) : Paths ι :=
  { W.relink c { l with upClosed := true } with obj := W.obj.respond c r l.down }

theorem Ok.respond {b : Bytes} (h : W.Ok net) (hrole : W.role c = some (.answered r b))
    (hl : W.conns c = some l) (hopen : l.upClosed = false) : (W.respond c l r).Ok net := by
  obtain ⟨hsource, hup, ha, rfl, hphase⟩ := h.fit hrole hl
  rw [hopen] at hphase
  refine h.change_one c (partner_eq hrole) (fun d hne => ?_) hrole (Function.update_self ..)
    ⟨hsource, hup, ha, rfl, Function.update_self ..⟩ (.respond h.obj hphase)
  simp [Paths.respond, hne, AtomicObject.respond]

/-! ### What a connection tells about its role -/

/-- Only an answered client finds its connection closed by the peer. -/
theorem Ok.answered_of_closed (h : W.Ok net) (hl : W.conns c = some l) (hs : l.source = none)
    (hclosed : l.downClosed = true) : ∃ r b, W.role c = some (.answered r b) := by
  obtain ⟨rl, hrl, hfit⟩ := h.role hl
  cases rl with
  | answered r b => exact ⟨r, b, hrl⟩
  | asked r => cases hclosed.symm.trans hfit.2.2.1.downClosed
  | held r => cases hclosed.symm.trans hfit.2.2.2.1.downClosed
  | relayed r d => cases hclosed.symm.trans hfit.2.2.2.1.downClosed
  | proxied r k => exact absurd hs hfit.1
  | served r k b => exact absurd hs hfit.1
  | control p => exact absurd hs hfit.1
  | spent => exact absurd hs hfit.1

/-- The second connection of a relayed request; the peer behind it has answered if
it closed its end. -/
theorem Ok.relayed (h : W.Ok net) (hk : W.role k = some (.relayed r c)) :
    ∃ l, W.conns c = some l ∧ c ≠ k ∧
      (l.downClosed = true → ∃ b, W.role c = some (.served r k b)) := by
  obtain ⟨lk, -, -, -, -, -, hproxied | ⟨b, hserved⟩⟩ := h.link hk
  · obtain ⟨l, hl, -, -, hsilent, -⟩ := h.link hproxied
    refine ⟨l, hl, fun he => ?_, fun hclosed => ?_⟩
    · rw [he, hk] at hproxied
      cases hproxied
    · cases hclosed.symm.trans hsilent.downClosed
  · obtain ⟨l, hl, -⟩ := h.link hserved
    refine ⟨l, hl, fun he => ?_, fun _ => ⟨b, hserved⟩⟩
    rw [he, hk] at hserved
    cases hserved

theorem Ok.finished_of_end (h : W.Ok net) (hl : W.conns c = some l) (hup : l.up = [])
    (hclosed : l.upClosed = true) : W.Finished c := by
  obtain ⟨rl, hrl, hfit⟩ := h.role hl
  cases rl with
  | answered r b => exact Or.inl ⟨r, b, hrl⟩
  | served r k b => exact Or.inr (Or.inl ⟨r, k, b, hrl⟩)
  | spent => exact Or.inr (Or.inr hrl)
  | asked r => cases hclosed.symm.trans hfit.2.2.1.upClosed
  | held r => cases hclosed.symm.trans hfit.2.2.2.1.upClosed
  | relayed r d => cases hclosed.symm.trans hfit.2.2.2.1.upClosed
  | proxied r k => cases hclosed.symm.trans hfit.2.2.1.upClosed
  | control p => exact absurd (hfit.2.1.symm.trans hup) (wire_ne_nil p)

/-- What a peer reads from a connection is a request or a packet of the ring. -/
theorem Ok.readable (h : W.Ok net) (hl : W.conns c = some l) {p : Packet}
    (hp : packetDecode l.up l.up.length = .ok (some p)) :
    (∃ r, W.role c = some (.asked r) ∧ p = r.packet) ∨
    (∃ r k, W.role c = some (.proxied r k) ∧ p = r.packet) ∨
    (W.role c = some (.control p) ∧ net.Control p) := by
  obtain ⟨rl, hrl, hfit⟩ := h.role hl
  have hempty : l.up ≠ [] := fun he => by
    rw [he] at hp
    cases hp
  cases rl with
  | asked r =>
    rw [hfit.2.1, r.decode] at hp
    exact Or.inl ⟨r, hrl, (Option.some.inj (Except.ok.inj hp)).symm⟩
  | proxied r k =>
    rw [hfit.2.1, r.decode] at hp
    exact Or.inr (Or.inl ⟨r, k, hrl, (Option.some.inj (Except.ok.inj hp)).symm⟩)
  | control q =>
    rw [hfit.2.1, hfit.2.2.2.decode] at hp
    obtain rfl := Option.some.inj (Except.ok.inj hp)
    exact Or.inr (Or.inr ⟨hrl, hfit.2.2.2⟩)
  | held r => exact absurd hfit.2.1 hempty
  | relayed r d => exact absurd hfit.2.1 hempty
  | answered r b => exact absurd hfit.2.1 hempty
  | served r k b => exact absurd hfit.2.1 hempty
  | spent => exact absurd hfit.2.1 hempty

end

end Paths

end RN2223.Praxis2

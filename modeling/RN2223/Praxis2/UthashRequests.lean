import RN2223.Lib.ByteOrder
import RN2223.Lib.SinglyLinked
import RN2223.Praxis2.UthashStores

/-!
# The request table on uthash

`requests.c` on the pointer structures: the entries are found by the two bytes of
their hash id, and the requests of an entry hang on one another by their `next`. The
requests of an entry that is cleared are freed, the entry is not.
-/

namespace RN2223.Praxis2.Uthash
open CMemory ByteOrder

/-- `struct _rtable` (`requests.h:13-17`) without its hash handle. -/
structure RtStruct where
  hashId : UInt16
  openRequests : Option Addr
  deriving DecidableEq, Repr

/-- The table and the structs `struct _request` (`requests.h:7-11`), whose `next` is a
map from addresses. The packet of a request is part of it. -/
structure RequestHeap where
  table : UTHash RtStruct
  requests : Heap Request
  next : Addr → Option Addr

/-- What `malloc` would answer. -/
structure RequestBlocks where
  entry : Heap RtStruct → Addr
  request : Heap Request → Addr

/-- The object `hash_id`, its low byte first. -/
def hashIdBytes (hashId : UInt16) : Bytes := [octet16 hashId 0, octet16 hashId 8]

def rtKey (e : RtStruct) : Bytes := hashIdBytes e.hashId

namespace RequestHeap
variable (s : RequestHeap)

def deref (a : Addr) : Except Abort Unit :=
  if a ∈ s.requests then .ok () else .error (.fault .outOfBounds)

def fuel : ℕ := s.requests.keys.length

/-- What `HASH_FIND` has found. -/
def entry (existing : Addr) : Except Abort RtStruct :=
  match s.table.heap.lookup existing with
  | some e => .ok e
  | none => .error (.fault .outOfBounds)

/-- `for (re = open_requests; re->next != NULL; re = re->next)` (`requests.c:13-15`). -/
def lastRequest : ℕ → Option Addr → Except Abort Addr
  | _, none => .error (.fault .nullPointer)
  | 0, some _ => .error .endless
  | fuel + 1, some re => do
    s.deref re
    if s.next re = none then .ok re else lastRequest fuel (s.next re)

/-- What the loop over the requests of a hash comes to see (`peer.c:245-246`). -/
def requestsFrom : ℕ → Option Addr → Except Abort (List Request)
  | _, none => .ok []
  | 0, some _ => .error .endless
  | fuel + 1, some r =>
    match s.requests.lookup r with
    | some request => do
      let rest ← requestsFrom fuel (s.next r)
      .ok (request :: rest)
    | none => .error (.fault .outOfBounds)

end RequestHeap

/-- The loop of `clear_requests` (`requests.c:43-48`). -/
def freeRequests : ℕ → Option Addr → RequestHeap → Except Abort RequestHeap
  | _, none, s => .ok s
  | 0, some _, _ => .error .endless
  | fuel + 1, some re, s => do
    s.deref re
    freeRequests fuel (s.next re) { s with requests := s.requests.erase re }

/-- `packet_dup` (`packet.c:21-38`); a `struct _packet` has 40 bytes. -/
def packetDup (alloc : ℕ → Bool) (p : Packet) : Except Abort Packet := do
  mallocUsed alloc 40
  mallocFilled alloc p.keyLen.toNat
  mallocFilled alloc p.valueLen.toNat
  attempt (Praxis2.packetDup p)

/-- Lines 9 to 24 of `add_request`: the block `r` goes behind the requests of the hash. -/
def linkRequest (alloc : ℕ → Bool) (blocks : RequestBlocks) (s : RequestHeap) (hashId : UInt16)
    (r : Addr) : Except Abort RequestHeap := do
  match ← hashFind s.table (hashIdBytes hashId) 2 with
  | some existing =>
    let e ← s.entry existing
    let re ← s.lastRequest s.fuel e.openRequests
    .ok { s with next := Function.update (Function.update s.next re (some r)) r none }
  | none =>
    mallocUsed alloc 72
    let entry := blocks.entry s.table.heap
    let table := { s.table with heap := s.table.heap.insert entry ⟨hashId, some r⟩ }
    let table ← hashAddKeyptr alloc table (hashIdBytes hashId) 2 entry
    .ok { s with table := table, next := Function.update s.next r none }

/-- `add_request` (`requests.c:3-25`); a request has 24 bytes, an entry 72. -/
def addRequest (alloc : ℕ → Bool) (blocks : RequestBlocks) (s : RequestHeap) (hashId : UInt16)
    (socket : Int) (packet : Packet) : Except Abort RequestHeap := do
  mallocUsed alloc 24
  let r := blocks.request s.requests
  let dup ← packetDup alloc packet
  linkRequest alloc blocks { s with requests := s.requests.insert r ⟨dup, socket⟩ } hashId r

/-- `get_requests` (`requests.c:27-34`). -/
def getRequests (s : RequestHeap) (hashId : UInt16) : Except Abort (Option Addr) := do
  match ← hashFind s.table (hashIdBytes hashId) 2 with
  | some existing =>
    let e ← s.entry existing
    .ok e.openRequests
  | none => .ok none

/-- `clear_requests` (`requests.c:36-51`). -/
def clearRequests (s : RequestHeap) (hashId : UInt16) : Except Abort RequestHeap := do
  match ← hashFind s.table (hashIdBytes hashId) 2 with
  | some existing =>
    let e ← s.entry existing
    let s ← freeRequests s.fuel e.openRequests s
    let table ← hashDelete s.table existing
    .ok { s with table := table }
  | none => .ok s

theorem hashIdBytes_inj {a b : UInt16} (h : hashIdBytes a = hashIdBytes b) : a = b := by
  simp only [hashIdBytes, List.cons.injEq, and_true] at h
  rw [← UInt16.toNat_inj]
  have hlo := congrArg UInt8.toNat h.1
  have hhi := congrArg UInt8.toNat h.2
  rw [octet16_lo_toNat, octet16_lo_toNat] at hlo
  rw [octet16_hi_toNat, octet16_hi_toNat] at hhi
  omega

/-! ### The requests of one entry -/

/-- The nodes of one entry are the requests of `rs`. -/
structure Queued (s : RequestHeap) (p : Option Addr) (ns : List Addr) (rs : List Request) :
    Prop where
  linked : Linked s.next p ns
  values : ns.map s.requests.lookup = rs.map some

section
variable {s s' : RequestHeap} {p : Option Addr} {ns : List Addr} {rs : List Request}

theorem Queued.frame (h : Queued s p ns rs) (hnext : ∀ a ∈ ns, s'.next a = s.next a)
    (hlook : ∀ a ∈ ns, s'.requests.lookup a = s.requests.lookup a) : Queued s' p ns rs where
  linked := h.linked.frame hnext
  values := (List.map_congr_left hlook).trans h.values

theorem Queued.live (h : Queued s p ns rs) {a : Addr} (ha : a ∈ ns) : a ∈ s.requests := by
  have hmem := List.mem_map_of_mem (f := s.requests.lookup) ha
  rw [h.values] at hmem
  obtain ⟨r, -, hr⟩ := List.mem_map.mp hmem
  rw [← AList.lookup_isSome, ← hr]
  rfl

theorem Queued.exists_last {r : Request} (h : Queued s p ns (r :: rs)) :
    ∃ ns' x, ns = ns' ++ [x] := by
  rcases List.eq_nil_or_concat' ns with rfl | ⟨ns', x, rfl⟩
  · cases h.values
  · exact ⟨ns', x, rfl⟩

theorem request_deref {a : Addr} (ha : a ∈ s.requests) : s.deref a = .ok () := if_pos ha

theorem lastRequest_eq {x : Addr} {fuel : ℕ} (h : Linked s.next p (ns ++ [x]))
    (hlive : ∀ a ∈ ns ++ [x], a ∈ s.requests) (hfuel : (ns ++ [x]).length ≤ fuel) :
    s.lastRequest fuel p = .ok x := by
  induction ns generalizing p fuel with
  | nil =>
    cases fuel with
    | zero => simp at hfuel
    | succ fuel =>
      obtain ⟨rfl, hx⟩ := h
      have hlast : s.next x = none := hx
      rw [RequestHeap.lastRequest, request_deref (hlive x (by simp)), abort_ok_bind, if_pos hlast]
  | cons a ns ih =>
    cases fuel with
    | zero => simp at hfuel
    | succ fuel =>
      obtain ⟨rfl, hrest⟩ := h
      have hmore : s.next a ≠ none := by
        rw [hrest.head_eq]
        cases ns <;> exact Option.some_ne_none _
      rw [RequestHeap.lastRequest, request_deref (hlive a (by simp)), abort_ok_bind, if_neg hmore]
      exact ih hrest (fun b hb => hlive b (List.mem_cons_of_mem a hb))
        (Nat.le_of_succ_le_succ hfuel)

theorem Queued.requestsFrom_eq {fuel : ℕ} (h : Queued s p ns rs) (hfuel : ns.length ≤ fuel) :
    s.requestsFrom fuel p = .ok rs := by
  obtain ⟨hlinked, hvalues⟩ := h
  induction ns generalizing p rs fuel with
  | nil =>
    obtain rfl : p = none := hlinked
    obtain rfl : rs = [] := List.map_eq_nil_iff.mp hvalues.symm
    rw [RequestHeap.requestsFrom]
  | cons a ns ih =>
    cases fuel with
    | zero => simp at hfuel
    | succ fuel =>
      obtain ⟨rfl, hrest⟩ := hlinked
      cases rs with
      | nil => cases hvalues
      | cons r rs =>
        obtain ⟨hr, hvalues⟩ := List.cons.inj hvalues
        have hlook : s.requests.lookup a = some r := hr
        rw [RequestHeap.requestsFrom, hlook]
        dsimp only
        rw [ih (Nat.le_of_succ_le_succ hfuel) hrest hvalues, abort_ok_bind]

theorem freeRequests_eq {fuel : ℕ} (h : Linked s.next p ns) (hnd : ns.Nodup)
    (hlive : ∀ a ∈ ns, a ∈ s.requests) (hfuel : ns.length ≤ fuel) : ∃ requests,
    freeRequests fuel p s = .ok { s with requests := requests } ∧
      (∀ a ∉ ns, requests.lookup a = s.requests.lookup a) ∧
      s.requests.keys.Perm (ns ++ requests.keys) := by
  induction ns generalizing p fuel s with
  | nil =>
    obtain rfl : p = none := h
    exact ⟨s.requests, by rw [freeRequests], fun _ _ => rfl, List.Perm.refl _⟩
  | cons x ns ih =>
    cases fuel with
    | zero => simp at hfuel
    | succ fuel =>
      obtain ⟨rfl, hrest⟩ := h
      obtain ⟨hx, hnd⟩ := List.nodup_cons.mp hnd
      have hkept : ∀ a ≠ x, (s.requests.erase x).lookup a = s.requests.lookup a :=
        fun a ha => AList.lookup_erase_ne ha
      obtain ⟨requests, hrun, hlook, hperm⟩ :=
        ih (s := { s with requests := s.requests.erase x }) hrest hnd (fun a ha => by
          rw [← AList.lookup_isSome, hkept a (ne_of_mem_of_not_mem ha hx), AList.lookup_isSome]
          exact hlive a (List.mem_cons_of_mem x ha)) (Nat.le_of_succ_le_succ hfuel)
      refine ⟨requests, ?_, fun a ha => ?_, ?_⟩
      · rw [freeRequests, request_deref (hlive x List.mem_cons_self), abort_ok_bind]
        exact hrun
      · obtain ⟨hax, ha⟩ := not_or.mp (mt List.mem_cons.mpr ha)
        exact (hlook a ha).trans (hkept a hax)
      · have hkeys := List.perm_cons_erase (AList.mem_keys.mp (hlive x List.mem_cons_self))
        rw [← AList.keys_erase] at hkeys
        exact hkeys.trans (List.Perm.cons x hperm)

end

/-! ### The table and its nodes -/

/-- An entry, with the nodes its requests hang on. -/
structure Row (s : RequestHeap) (row : RtStruct × List Addr) (e : RtEntry) : Prop where
  hashId : row.1.hashId = e.hashId
  queued : Queued s row.1.openRequests row.2 e.openRequests

/-- The structs at `xs` are the entries of `table`, and the nodes of `rows` are all the
requests allocated. The entry structs `lost` are allocated and in no table any more. -/
structure Rows (s : RequestHeap) (xs : List Addr) (rows : List (RtStruct × List Addr))
    (table : RTable) (lost : List Addr) : Prop where
  stands : Stands rtKey s.table xs (rows.map Prod.fst)
  structs : s.table.heap.keys.Perm (xs ++ lost)
  queues : List.Forall₂ (Row s) rows table
  nodes : s.requests.keys.Perm (rows.flatMap Prod.snd)

def HoldsRequests (s : RequestHeap) (table : RTable) (lost : List Addr) : Prop :=
  ∃ xs rows, Rows s xs rows table lost

/-- The struct at `a` is the entry of a hash id, which stands between the others. -/
structure FoundAt (s : RequestHeap) (hashId : UInt16) (a : Addr)
    (rows₁ : List (RtStruct × List Addr)) (row : RtStruct × List Addr)
    (rows₂ : List (RtStruct × List Addr)) (table₁ : RTable) (e : RtEntry) (table₂ : RTable) :
    Prop where
  run : hashFind s.table (hashIdBytes hashId) 2 = .ok (some a)
  struct : s.table.heap.lookup a = some row.1
  key : s.table.hh.key a = hashIdBytes hashId
  hashId_eq : e.hashId = hashId
  before : ∀ x ∈ table₁, x.hashId ≠ hashId
  queues₁ : List.Forall₂ (Row s) rows₁ table₁
  queue : Row s row e
  queues₂ : List.Forall₂ (Row s) rows₂ table₂

section
variable {s s' : RequestHeap} {xs lost : List Addr} {rows : List (RtStruct × List Addr)}
  {table : RTable}

theorem rows_hashIds (h : List.Forall₂ (Row s) rows table) :
    rows.map (fun row => row.1.hashId) = table.map RtEntry.hashId := by
  induction h with
  | nil => rfl
  | cons hrow _ ih => rw [List.map_cons, List.map_cons, hrow.hashId, ih]

theorem queues_frame (h : List.Forall₂ (Row s) rows table)
    (hsame : ∀ a ∈ rows.flatMap Prod.snd,
      s'.next a = s.next a ∧ s'.requests.lookup a = s.requests.lookup a) :
    List.Forall₂ (Row s') rows table := by
  induction h with
  | nil => exact List.Forall₂.nil
  | cons hrow _ ih =>
    rw [List.flatMap_cons] at hsame
    refine List.Forall₂.cons ⟨hrow.hashId, hrow.queued.frame ?_ ?_⟩ (ih ?_)
    · exact fun a ha => (hsame a (List.mem_append_left _ ha)).1
    · exact fun a ha => (hsame a (List.mem_append_left _ ha)).2
    · exact fun a ha => hsame a (List.mem_append_right _ ha)

theorem queues_cut {row : RtStruct × List Addr} {rows₁ rows₂ : List (RtStruct × List Addr)}
    (h : List.Forall₂ (Row s) (rows₁ ++ row :: rows₂) table) : ∃ table₁ e table₂,
    table = table₁ ++ e :: table₂ ∧ List.Forall₂ (Row s) rows₁ table₁ ∧ Row s row e ∧
      List.Forall₂ (Row s) rows₂ table₂ := by
  induction rows₁ generalizing table with
  | nil =>
    obtain ⟨e, table₂, hrow, hrest, rfl⟩ := List.forall₂_cons_left_iff.mp h
    exact ⟨[], e, table₂, rfl, List.Forall₂.nil, hrow, hrest⟩
  | cons row' rows₁ ih =>
    obtain ⟨e', table', hrow, hrest, rfl⟩ := List.forall₂_cons_left_iff.mp h
    obtain ⟨table₁, e, table₂, rfl, h₁, he, h₂⟩ := ih hrest
    exact ⟨e' :: table₁, e, table₂, rfl, List.Forall₂.cons hrow h₁, he, h₂⟩

theorem FoundAt.before_rows {hashId : UInt16} {a : Addr} {row : RtStruct × List Addr}
    {rows₁ rows₂ : List (RtStruct × List Addr)} {table₁ table₂ : RTable} {e : RtEntry}
    (h : FoundAt s hashId a rows₁ row rows₂ table₁ e table₂) :
    ∀ row' ∈ rows₁, row'.1.hashId ≠ hashId := by
  intro row' hrow' hid
  have hmem := List.mem_map_of_mem (f := fun row : RtStruct × List Addr => row.1.hashId) hrow'
  rw [rows_hashIds h.queues₁] at hmem
  obtain ⟨x, hx, hxid⟩ := List.mem_map.mp hmem
  exact h.before x hx (hxid.trans hid)

theorem eraseP_cut {α : Type} {p : α → Bool} {l₁ l₂ : List α} {x : α} (hx : p x)
    (hbefore : ∀ y ∈ l₁, ¬ p y) : (l₁ ++ x :: l₂).eraseP p = l₁ ++ l₂ := by
  rw [List.eraseP_append_right _ hbefore, List.eraseP_cons_of_pos hx]

theorem rtFind_cut {hashId : UInt16} {table₁ table₂ : RTable} {e : RtEntry}
    (he : e.hashId = hashId) (hbefore : ∀ x ∈ table₁, x.hashId ≠ hashId) :
    rtFind (table₁ ++ e :: table₂) hashId = some e := by
  rw [rtFind, List.find?_append, List.find?_eq_none.mpr fun x hx => by simpa using hbefore x hx,
    Option.none_or, List.find?_cons_of_pos (by simpa using he)]

theorem rtReplace_cut {hashId : UInt16} {table₁ table₂ : RTable} {e : RtEntry}
    (he : e.hashId = hashId) (hbefore : ∀ x ∈ table₁, x.hashId ≠ hashId)
    (f : RtEntry → RtEntry) :
    rtReplace (table₁ ++ e :: table₂) hashId f = table₁ ++ f e :: table₂ := by
  induction table₁ with
  | nil => exact if_pos (by simpa using he)
  | cons x table₁ ih =>
    have hx : ¬ (x.hashId == hashId) = true := by simpa using hbefore x List.mem_cons_self
    rw [List.cons_append, rtReplace, if_neg hx,
      ih fun y hy => hbefore y (List.mem_cons_of_mem x hy)]
    rfl

theorem rtFind_none {hashId : UInt16} (h : List.Forall₂ (Row s) rows table)
    (hnone : ∀ row ∈ rows, row.1.hashId ≠ hashId) : rtFind table hashId = none := by
  refine List.find?_eq_none.mpr fun e he hid => ?_
  have hmem := List.mem_map_of_mem (f := RtEntry.hashId) he
  rw [← rows_hashIds h] at hmem
  obtain ⟨row, hrow, hrow'⟩ := List.mem_map.mp hmem
  exact hnone row hrow (hrow'.trans (beq_iff_eq.mp hid))

theorem Rows.find (h : Rows s xs rows table lost) (hashId : UInt16) :
    (∃ a rows₁ row rows₂ table₁ e table₂, rows = rows₁ ++ row :: rows₂ ∧
      table = table₁ ++ e :: table₂ ∧ a ∈ xs ∧
      FoundAt s hashId a rows₁ row rows₂ table₁ e table₂) ∨
    hashFind s.table (hashIdBytes hashId) 2 = .ok none ∧ ∀ row ∈ rows, row.1.hashId ≠ hashId := by
  rcases h.stands.find (hashIdBytes hashId) with
    ⟨a, x, hrun, ha, hlook, hk, hfind⟩ | ⟨hrun, hnone⟩
  · obtain ⟨hx, structs₁, structs₂, hsplit, hbefore⟩ := List.find?_eq_some_iff_append.mp hfind
    obtain ⟨rows₁, rest, rfl, rfl, hrest⟩ := List.map_eq_append_iff.mp hsplit
    obtain ⟨row, rows₂, rfl, rfl, rfl⟩ := List.map_eq_cons_iff.mp hrest
    obtain ⟨table₁, e, table₂, rfl, h₁, he, h₂⟩ := queues_cut h.queues
    have hid : row.1.hashId = hashId := hashIdBytes_inj (beq_iff_eq.mp hx)
    refine Or.inl ⟨a, rows₁, row, rows₂, table₁, e, table₂, rfl, rfl, ha, hrun, hlook, hk,
      he.hashId.symm.trans hid, fun y hy hyid => ?_, h₁, he, h₂⟩
    have hmem := List.mem_map_of_mem (f := RtEntry.hashId) hy
    rw [← rows_hashIds h₁] at hmem
    obtain ⟨row', hrow', hid'⟩ := List.mem_map.mp hmem
    have hne := hbefore row'.1 (List.mem_map_of_mem hrow')
    rw [rtKey, hid'.trans hyid, beq_self_eq_true] at hne
    cases hne
  · refine Or.inr ⟨hrun, fun row hrow hid => ?_⟩
    refine List.find?_eq_none.mp hnone row.1 (List.mem_map_of_mem hrow) ?_
    rw [rtKey, hid, beq_self_eq_true]

theorem Rows.live (h : Rows s xs rows table lost) {b : Addr} (hb : b ∈ rows.flatMap Prod.snd) :
    b ∈ s.requests :=
  AList.mem_keys.mpr (h.nodes.mem_iff.mpr hb)

/-- No two entries share a node. -/
theorem Rows.apart {row : RtStruct × List Addr} {rows₁ rows₂ : List (RtStruct × List Addr)}
    (h : Rows s xs (rows₁ ++ row :: rows₂) table lost) :
    row.2.Nodup ∧ ∀ b ∈ row.2, b ∉ rows₁.flatMap Prod.snd ∧ b ∉ rows₂.flatMap Prod.snd := by
  have hnd := h.nodes.nodup_iff.mp s.requests.keys_nodup
  rw [List.flatMap_append, List.flatMap_cons] at hnd
  obtain ⟨-, hnd₂, hapart₁⟩ := List.nodup_append'.mp hnd
  obtain ⟨hrow, -, hapart₂⟩ := List.nodup_append'.mp hnd₂
  exact ⟨hrow, fun b hb => ⟨fun hm => hapart₁ hm (List.mem_append_left _ hb), hapart₂ hb⟩⟩

theorem Rows.row_le_fuel {row : RtStruct × List Addr} (h : Rows s xs rows table lost)
    (hrow : row ∈ rows) : row.2.length ≤ s.fuel := by
  rw [RequestHeap.fuel, h.nodes.length_eq]
  exact (List.sublist_flatten_of_mem (List.mem_map_of_mem hrow)).length_le

theorem getRequests_holds (h : HoldsRequests s table lost) (hashId : UInt16) : ∃ p,
    getRequests s hashId = .ok p ∧
      s.requestsFrom s.fuel p = .ok (Praxis2.getRequests table hashId) := by
  obtain ⟨xs, rows, h⟩ := h
  rcases h.find hashId with
    ⟨a, rows₁, row, rows₂, table₁, e, table₂, rfl, rfl, -, hat⟩ | ⟨hrun, hnone⟩
  · refine ⟨row.1.openRequests, ?_, ?_⟩
    · simp only [getRequests, hat.run, abort_ok_bind, RequestHeap.entry, hat.struct]
    · rw [Praxis2.getRequests, rtFind_cut hat.hashId_eq hat.before]
      exact hat.queue.queued.requestsFrom_eq (h.row_le_fuel (by simp))
  · refine ⟨none, by simp only [getRequests, hrun, abort_ok_bind], ?_⟩
    rw [Praxis2.getRequests, rtFind_none h.queues hnone]
    cases s.fuel <;> rfl

/-- The nodes of an entry that is cleared are freed, its struct is not. -/
theorem clearRequests_holds (h : HoldsRequests s table lost) (hashId : UInt16) :
    ∃ s' lost', clearRequests s hashId = .ok s' ∧
      HoldsRequests s' (Praxis2.clearRequests table hashId) (lost' ++ lost) ∧
      lost'.length = if (rtFind table hashId).isSome then 1 else 0 := by
  obtain ⟨xs, rows, h⟩ := h
  rcases h.find hashId with
    ⟨a, rows₁, row, rows₂, table₁, e, table₂, rfl, rfl, ha, hat⟩ | ⟨hrun, hnone⟩
  · obtain ⟨hndrow, hapart⟩ := h.apart
    have hnodes := h.nodes
    rw [List.flatMap_append, List.flatMap_cons] at hnodes
    obtain ⟨requests, hfree, hlook, hperm⟩ := freeRequests_eq hat.queue.queued.linked hndrow
      (fun b hb => hat.queue.queued.live hb) (h.row_le_fuel (by simp))
    obtain ⟨table', hdel, hheap, hstands⟩ := h.stands.delete ha
    have hrun : clearRequests s hashId = .ok { s with table := table', requests := requests } := by
      simp only [clearRequests, hat.run, abort_ok_bind, RequestHeap.entry, hat.struct, hfree, hdel]
    have hfind : rtFind (table₁ ++ e :: table₂) hashId = some e :=
      rtFind_cut hat.hashId_eq hat.before
    refine ⟨_, [a], hrun, ⟨xs.erase a, rows₁ ++ rows₂, ?_, ?_, ?_, ?_⟩, by simp [hfind]⟩
    · have hkept : ((rows₁ ++ row :: rows₂).map Prod.fst).eraseP
          (fun x => rtKey x == s.table.hh.key a) = (rows₁ ++ rows₂).map Prod.fst := by
        rw [List.map_append, List.map_cons, List.map_append, eraseP_cut]
        · rw [hat.key, rtKey, hat.queue.hashId, hat.hashId_eq, beq_self_eq_true]
        · intro x hx hk
          obtain ⟨row', hrow', rfl⟩ := List.mem_map.mp hx
          exact hat.before_rows row' hrow' (hashIdBytes_inj ((beq_iff_eq.mp hk).trans hat.key))
      rwa [hkept] at hstands
    · rw [hheap]
      refine h.structs.trans (((List.perm_cons_erase ha).append_right lost).trans ?_)
      exact List.perm_middle.symm
    · rw [Praxis2.clearRequests, hfind]
      dsimp only
      rw [eraseP_cut (p := fun x => x.hashId == hashId) (beq_iff_eq.mpr hat.hashId_eq)
        fun x hx hid => hat.before x hx (beq_iff_eq.mp hid)]
      have hq₁ : List.Forall₂ (Row { s with table := table', requests := requests }) rows₁ table₁ :=
        queues_frame hat.queues₁ fun b hb => ⟨rfl, hlook b fun hm => (hapart b hm).1 hb⟩
      have hq₂ : List.Forall₂ (Row { s with table := table', requests := requests }) rows₂ table₂ :=
        queues_frame hat.queues₂ fun b hb => ⟨rfl, hlook b fun hm => (hapart b hm).2 hb⟩
      exact List.rel_append hq₁ hq₂
    · have hall : (row.2 ++ requests.keys).Perm (row.2 ++ (rows₁ ++ rows₂).flatMap Prod.snd) := by
        refine (hperm.symm.trans hnodes).trans ?_
        rw [List.flatMap_append, ← List.append_assoc, ← List.append_assoc]
        exact List.perm_append_comm.append_right _
      exact (List.perm_append_left_iff row.2).mp hall
  · refine ⟨s, [], by simp only [clearRequests, hrun, abort_ok_bind], ⟨xs, rows, ?_⟩, ?_⟩
    · rw [Praxis2.clearRequests, rtFind_none h.queues hnone]
      exact h
    · simp [rtFind_none h.queues hnone]

section
variable {alloc : ℕ → Bool} {packet : Packet} {hashId : UInt16} {socket : Int}

theorem packetDup_refused_or (alloc : ℕ → Bool) (hp : packet.Exact) :
    Refused alloc (packetDup alloc packet) ∨ packetDup alloc packet = .ok packet := by
  have hdup : packetDup alloc packet = mallocUsed alloc 40 >>= fun _ =>
      mallocFilled alloc packet.keyLen.toNat >>= fun _ =>
        mallocFilled alloc packet.valueLen.toNat >>= fun _ => .ok packet := by
    rw [packetDup, packetDup_exact hp, attempt_ok]
  rw [hdup]
  exact copies_refused_or_eq alloc 40 packet.keyLen.toNat packet.valueLen.toNat _

theorem append_openRequests (request : Request) (e : RtEntry) :
    (e.append request).openRequests = e.openRequests ++ [request] := by
  rw [RtEntry.openRequests, RtEntry.append, appendRequest_eq]
  rfl

/-- A request behind the others of its entry. -/
theorem Rows.append {r : Addr} {request : Request} {a : Addr} {row : RtStruct × List Addr}
    {rows₁ rows₂ : List (RtStruct × List Addr)} {table₁ table₂ : RTable} {e : RtEntry}
    {ns : List Addr} {x : Addr} (h : Rows s xs (rows₁ ++ row :: rows₂) (table₁ ++ e :: table₂) lost)
    (hat : FoundAt s hashId a rows₁ row rows₂ table₁ e table₂) (hr : r ∉ s.requests)
    (hrow : row.2 = ns ++ [x]) (hs' : s' = { s with
      requests := s.requests.insert r request
      next := Function.update (Function.update s.next x (some r)) r none }) :
    Rows s' xs (rows₁ ++ (row.1, row.2 ++ [r]) :: rows₂)
      (table₁ ++ e.append request :: table₂) lost := by
  obtain ⟨hnd, hapart⟩ := h.apart
  have hx : x ∈ row.2 := by simp [hrow]
  have hne : ∀ b ∈ s.requests, b ≠ r := fun b hb hbr => hr (hbr ▸ hb)
  have hlook : ∀ b ∈ s.requests, s'.requests.lookup b = s.requests.lookup b := fun b hb => by
    rw [hs']
    exact AList.lookup_insert_ne (hne b hb)
  have hsame : ∀ b ∈ s.requests, b ≠ x →
      s'.next b = s.next b ∧ s'.requests.lookup b = s.requests.lookup b := fun b hb hbx => by
    refine ⟨?_, hlook b hb⟩
    rw [hs']
    exact (Function.update_of_ne (hne b hb) _ _).trans (Function.update_of_ne hbx _ _)
  have hrowlive : ∀ b ∈ row.2, b ∈ s.requests := fun b hb => hat.queue.queued.live hb
  have hlive₁ : ∀ b ∈ rows₁.flatMap Prod.snd, b ∈ s.requests := fun b hb =>
    h.live (by simp only [List.flatMap_append, List.mem_append, hb, true_or])
  have hlive₂ : ∀ b ∈ rows₂.flatMap Prod.snd, b ∈ s.requests := fun b hb =>
    h.live (by simp only [List.flatMap_append, List.flatMap_cons, List.mem_append, hb, or_true])
  refine ⟨?_, ?_, List.rel_append (queues_frame hat.queues₁ fun b hb => ?_)
    (List.Forall₂.cons ⟨hat.queue.hashId, ⟨?_, ?_⟩⟩ (queues_frame hat.queues₂ fun b hb => ?_)), ?_⟩
  · rw [hs']
    simpa only [List.map_append, List.map_cons] using h.stands
  · rw [hs']
    exact h.structs
  · exact hsame b (hlive₁ b hb) fun hbx => (hapart x hx).1 (hbx ▸ hb)
  · have hlinked := hat.queue.queued.linked
    rw [hrow] at hlinked hnd
    rw [hs', hrow]
    exact hlinked.append hnd fun hm => hr (hrowlive r (hrow ▸ hm))
  · have hvalues := hat.queue.queued.values
    rw [append_openRequests, List.map_append, List.map_append, ← hvalues]
    congr 1
    · exact List.map_congr_left fun b hb => hlook b (hrowlive b hb)
    · rw [hs']
      simp
  · exact hsame b (hlive₂ b hb) fun hbx => (hapart x hx).2 (hbx ▸ hb)
  · have hnodes := h.nodes
    rw [List.flatMap_append, List.flatMap_cons, ← List.append_assoc] at hnodes
    rw [hs', keys_insert_fresh hr, List.flatMap_append, List.flatMap_cons, List.append_assoc,
      ← List.append_assoc]
    exact (List.Perm.cons r hnodes).trans List.perm_middle.symm

/-- A request in an entry of its own. -/
theorem Rows.add {r entry : Addr} {request : Request} {table' : UTHash RtStruct}
    (h : Rows s xs rows table lost) (hr : r ∉ s.requests) (hentry : entry ∉ s.table.heap)
    (hstands : Stands rtKey table' (xs ++ [entry]) (rows.map Prod.fst ++ [⟨hashId, some r⟩]))
    (hheap : table'.heap = s.table.heap.insert entry ⟨hashId, some r⟩)
    (hs' : s' = ⟨table', s.requests.insert r request, Function.update s.next r none⟩) :
    Rows s' (xs ++ [entry]) (rows ++ [(⟨hashId, some r⟩, [r])])
      (table ++ [⟨hashId, request, []⟩]) lost := by
  subst hs'
  refine ⟨?_, ?_, List.rel_append (queues_frame h.queues fun b hb => ?_)
    (List.Forall₂.cons ⟨rfl, ⟨Linked.single s.next r, ?_⟩⟩ List.Forall₂.nil), ?_⟩
  · simpa only [List.map_append, List.map_cons, List.map_nil] using hstands
  · dsimp only
    rw [hheap, keys_insert_fresh hentry, List.append_assoc]
    exact (List.Perm.cons _ h.structs).trans List.perm_middle.symm
  · have hbr : b ≠ r := fun hbr => hr (hbr ▸ h.live hb)
    exact ⟨Function.update_of_ne hbr _ _, AList.lookup_insert_ne hbr⟩
  · simp [RtEntry.openRequests]
  · dsimp only
    rw [keys_insert_fresh hr, List.flatMap_append, List.flatMap_singleton]
    exact (List.Perm.cons r h.nodes).trans (List.perm_append_singleton _ _).symm

theorem linkRequest_existing {r a x : Addr} {e : RtStruct} (blocks : RequestBlocks)
    (hrun : hashFind s.table (hashIdBytes hashId) 2 = .ok (some a))
    (hstruct : s.table.heap.lookup a = some e)
    (hlast : s.lastRequest s.fuel e.openRequests = .ok x) :
    linkRequest alloc blocks s hashId r = .ok { s with
      next := Function.update (Function.update s.next x (some r)) r none } := by
  simp only [linkRequest, hrun, abort_ok_bind, RequestHeap.entry, hstruct, hlast]

theorem linkRequest_new {r : Addr} (blocks : RequestBlocks)
    (hrun : hashFind s.table (hashIdBytes hashId) 2 = .ok none) :
    linkRequest alloc blocks s hashId r = mallocUsed alloc 72 >>= fun _ =>
      hashAddKeyptr alloc
        { s.table with
          heap := s.table.heap.insert (blocks.entry s.table.heap) ⟨hashId, some r⟩ }
        (hashIdBytes hashId) 2 (blocks.entry s.table.heap) >>= fun table =>
          .ok { s with table := table, next := Function.update s.next r none } := by
  simp only [linkRequest, hrun, abort_ok_bind]

theorem addRequest_holds {blocks : RequestBlocks} (halloc : NoGiant alloc)
    (hfreshr : Fresh blocks.request) (hfreshe : Fresh blocks.entry)
    (h : HoldsRequests s table lost) (hashId : UInt16) (socket : Int) (hp : packet.Exact) :
    Refused alloc (addRequest alloc blocks s hashId socket packet) ∨
    ∃ s' table', addRequest alloc blocks s hashId socket packet = .ok s' ∧
      Praxis2.addRequest table hashId socket packet = .ok table' ∧
      HoldsRequests s' table' lost := by
  obtain ⟨xs, rows, h⟩ := h
  have hr := hfreshr s.requests
  have hentry := hfreshe s.table.heap
  rw [addRequest]
  rcases refused_or_eq (mallocUsed_cases alloc 24) _ with hno | heq
  · exact Or.inl hno
  rw [heq]
  rcases packetDup_refused_or alloc hp with hno | hdup
  · exact Or.inl (hno.bind _)
  rw [hdup, abort_ok_bind]
  rcases h.find hashId with
    ⟨a, rows₁, row, rows₂, table₁, e, table₂, rfl, rfl, -, hat⟩ | ⟨hrun, hnone⟩
  · obtain ⟨ns, x, hrow⟩ := hat.queue.queued.exists_last
    refine Or.inr ⟨_, table₁ ++ e.append ⟨packet, socket⟩ :: table₂,
      linkRequest_existing blocks hat.run hat.struct ?_, ?_, xs, _, h.append hat hr hrow rfl⟩
    · have hlinked := hat.queue.queued.linked
      have hlen : row.2.length ≤ s.fuel := h.row_le_fuel (by simp)
      rw [hrow] at hlinked hlen
      refine lastRequest_eq hlinked (fun b hb => (AList.mem_insert s.requests).mpr
        (Or.inr (hat.queue.queued.live (hrow ▸ hb)))) (le_trans hlen ?_)
      rw [RequestHeap.fuel, RequestHeap.fuel, keys_insert_fresh hr]
      exact Nat.le_succ _
    · simp only [Praxis2.addRequest, packetDup_exact hp, ok_bind,
        rtFind_cut hat.hashId_eq hat.before, rtReplace_cut hat.hashId_eq hat.before]
  · rw [linkRequest_new (s := ⟨s.table, s.requests.insert _ ⟨packet, socket⟩, s.next⟩) blocks hrun]
    rcases refused_or_eq (mallocUsed_cases alloc 72) _ with hno | heq
    · exact Or.inl hno
    rw [heq]
    have hnot : blocks.entry s.table.heap ∉ xs := fun hm => hentry (h.stands.rep.live _ hm)
    have hstands := h.stands.withHeap
      (s.table.heap.insert (blocks.entry s.table.heap) ⟨hashId, some (blocks.request s.requests)⟩)
      fun b hb => AList.lookup_insert_ne (ne_of_mem_of_not_mem hb hnot)
    have hnew : ∀ x ∈ rows.map Prod.fst, rtKey x ≠ hashIdBytes hashId := by
      intro x hx hk
      obtain ⟨row, hrow, rfl⟩ := List.mem_map.mp hx
      exact hnone row hrow (hashIdBytes_inj hk)
    rcases hstands.add halloc (show (hashIdBytes hashId).length < 2^32 by simp [hashIdBytes])
      (AList.lookup_insert ..) rfl hnot hnew with ⟨size, hsize, he⟩ | ⟨table', he, hheap, hstands'⟩
    · refine Or.inl (Refused.bind ⟨size, hsize, Or.inl he⟩ _)
    · refine Or.inr ⟨_, table ++ [⟨hashId, ⟨packet, socket⟩, []⟩], ?_, ?_, _, _,
        h.add hr hentry hstands' hheap rfl⟩
      · have hadd : hashAddKeyptr alloc { s.table with heap := s.table.heap.insert _ _ }
            (hashIdBytes hashId) 2 (blocks.entry s.table.heap) = .ok table' := he
        dsimp only
        rw [hadd, abort_ok_bind]
      · simp only [Praxis2.addRequest, packetDup_exact hp, ok_bind, rtFind_none h.queues hnone]

end

end

/-! ### Runs of the request table -/

/-- A call with what `malloc` would answer. -/
inductive RtCall where
  | add (blocks : RequestBlocks) (hashId : UInt16) (socket : Int) (packet : Packet)
  | get (hashId : UInt16)
  | clear (hashId : UInt16)

def RtCall.Right : RtCall → Prop
  | .add blocks _ _ packet => Fresh blocks.entry ∧ Fresh blocks.request ∧ packet.Exact
  | .get _ => True
  | .clear _ => True

/-- A call, and the requests its caller comes to see from the pointer `get_requests`
returns. -/
def RtCall.step (alloc : ℕ → Bool) (s : RequestHeap) :
    RtCall → Except Abort (RequestHeap × List Request)
  | .add blocks hashId socket packet => do
    let s ← addRequest alloc blocks s hashId socket packet
    .ok (s, [])
  | .get hashId => do
    let p ← getRequests s hashId
    let rs ← s.requestsFrom s.fuel p
    .ok (s, rs)
  | .clear hashId => do
    let s ← clearRequests s hashId
    .ok (s, [])

def RtCall.onList (table : RTable) : RtCall → Except Fault (RTable × List Request)
  | .add _ hashId socket packet => do
    let table ← Praxis2.addRequest table hashId socket packet
    .ok (table, [])
  | .get hashId => .ok (table, Praxis2.getRequests table hashId)
  | .clear hashId => .ok (Praxis2.clearRequests table hashId, [])

/-- The entries a call takes out of the table. -/
def RtCall.cleared (table : RTable) : RtCall → ℕ
  | .clear hashId => if (rtFind table hashId).isSome then 1 else 0
  | _ => 0

/-- No table and no request yet, in memory of any content. -/
def RequestHeap.new (hh : UTHashHandles) (next : Addr → Option Addr) : RequestHeap :=
  ⟨UTHash.new hh, ∅, next⟩

section
variable {s : RequestHeap} {table : RTable} {lost : List Addr} {alloc : ℕ → Bool}

theorem RtCall.step_refines (halloc : NoGiant alloc) (h : HoldsRequests s table lost) {c : RtCall}
    (hc : c.Right) : Refused alloc (c.step alloc s) ∨
    ∃ s' table' a lost', c.step alloc s = .ok (s', a) ∧ c.onList table = .ok (table', a) ∧
      HoldsRequests s' table' (lost' ++ lost) ∧ lost'.length = c.cleared table := by
  cases c with
  | add blocks hashId socket packet =>
    rcases addRequest_holds halloc hc.2.1 hc.1 h hashId socket hc.2.2 with
      hno | ⟨s', table', he, hl, hh⟩
    · exact Or.inl (hno.bind _)
    · refine Or.inr ⟨s', table', [], [], ?_, ?_, hh, rfl⟩
      · rw [RtCall.step, he, abort_ok_bind]
      · rw [RtCall.onList, hl, ok_bind]
  | get hashId =>
    obtain ⟨p, hp, hrs⟩ := getRequests_holds h hashId
    refine Or.inr ⟨s, table, _, [], ?_, rfl, h, rfl⟩
    rw [RtCall.step, hp, abort_ok_bind, hrs, abort_ok_bind]
  | clear hashId =>
    obtain ⟨s', lost', he, hh, hlen⟩ := clearRequests_holds h hashId
    exact Or.inr ⟨s', _, [], lost', by rw [RtCall.step, he, abort_ok_bind], rfl, hh, hlen⟩

end

end RN2223.Praxis2.Uthash

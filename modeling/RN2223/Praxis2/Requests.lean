import RN2223.Praxis2.Packet

/-!
# Open requests (requests.h / requests.c)

A uthash table from hash ids to chains of open requests, appended to at the end
of a chain and torn down a whole chain at a time.
-/

namespace RN2223.Praxis2
open CMemory

/-- `struct _request` without its `next` pointer (`requests.h:7-11`). -/
structure Request where
  packet : Packet
  socket : Int
  deriving DecidableEq, Repr

/-- `struct _rtable` (`requests.h:13-17`): `open_requests` is never `NULL` in an
entry, so the chain is its first request and the ones behind it. -/
structure RtEntry where
  hashId : UInt16
  first : Request
  rest : List Request
  deriving DecidableEq, Repr

def RtEntry.openRequests (e : RtEntry) : List Request := e.first :: e.rest

abbrev RTable := List RtEntry

def rtFind (table : RTable) (hashId : UInt16) : Option RtEntry :=
  table.find? fun e => e.hashId == hashId

/-- The walk `for (re = open_requests; re->next != NULL; re = re->next)` and the
assignment to the last `next`. -/
def appendRequest : List Request → Request → List Request
  | [], r => [r]
  | re :: next, r => re :: appendRequest next r

def RtEntry.append (r : Request) (e : RtEntry) : RtEntry :=
  { e with rest := appendRequest e.rest r }

def rtReplace : RTable → UInt16 → (RtEntry → RtEntry) → RTable
  | [], _, _ => []
  | e :: es, hashId, f => if e.hashId == hashId then f e :: es else e :: rtReplace es hashId f

/-- `add_request` (`requests.c:3-25`). -/
def addRequest (table : RTable) (hashId : UInt16) (socket : Int) (packet : Packet) :
    Except Fault RTable := do
  let dup ← packetDup packet
  let r : Request := ⟨dup, socket⟩
  match rtFind table hashId with
  | some _ => .ok (rtReplace table hashId (RtEntry.append r))
  | none => .ok (table ++ [⟨hashId, r, []⟩])

/-- `get_requests` (`requests.c:27-34`). -/
def getRequests (table : RTable) (hashId : UInt16) : List Request :=
  match rtFind table hashId with
  | some existing => existing.openRequests
  | none => []

/-- `clear_requests` (`requests.c:36-51`). -/
def clearRequests (table : RTable) (hashId : UInt16) : RTable :=
  match rtFind table hashId with
  | some _ => table.eraseP fun e => e.hashId == hashId
  | none => table

/-! ### The queues of a table -/

def RTable.Unique (table : RTable) : Prop := table.Pairwise fun x y => x.hashId ≠ y.hashId

theorem appendRequest_eq (l : List Request) (r : Request) : appendRequest l r = l ++ [r] := by
  induction l with
  | nil => rfl
  | cons re next ih => simp only [appendRequest, ih, List.cons_append]

theorem append_hashId (r : Request) (e : RtEntry) : (e.append r).hashId = e.hashId := rfl

theorem rtReplace_hashIds (table : RTable) (hashId : UInt16) (f : RtEntry → RtEntry)
    (hf : ∀ e, (f e).hashId = e.hashId) :
    (rtReplace table hashId f).map RtEntry.hashId = table.map RtEntry.hashId := by
  induction table with
  | nil => rfl
  | cons e es ih =>
    by_cases he : e.hashId == hashId
    · simp [rtReplace, he, hf]
    · simp [rtReplace, he, ih]

theorem rtFind_replace_self {table : RTable} {hashId : UInt16} {e : RtEntry}
    {f : RtEntry → RtEntry} (hf : ∀ e, (f e).hashId = e.hashId)
    (h : rtFind table hashId = some e) : rtFind (rtReplace table hashId f) hashId = some (f e) := by
  induction table with
  | nil => simp [rtFind] at h
  | cons x xs ih =>
    by_cases hx : x.hashId == hashId
    · simp only [rtFind, List.find?_cons, hx] at h
      cases h
      simp [rtReplace, rtFind, hx, hf]
    · simp only [rtFind, List.find?_cons, hx] at h
      simpa [rtReplace, rtFind, hx] using ih h

theorem rtFind_replace_ne (table : RTable) {hashId h' : UInt16} (hne : h' ≠ hashId)
    {f : RtEntry → RtEntry} (hf : ∀ e, (f e).hashId = e.hashId) :
    rtFind (rtReplace table hashId f) h' = rtFind table h' := by
  induction table with
  | nil => rfl
  | cons x xs ih =>
    by_cases hx : x.hashId == hashId
    · have hx' : ¬ hashId = h' := fun he => hne he.symm
      have hxe : x.hashId = hashId := by simpa using hx
      simp [rtReplace, rtFind, hf, hxe, hx']
    · by_cases hy : x.hashId == h'
      · simp [rtReplace, rtFind, hx, hy]
      · simpa [rtReplace, rtFind, hx, hy] using ih

theorem unique_iff_nodup (table : RTable) :
    table.Unique ↔ (table.map RtEntry.hashId).Nodup := by
  rw [RTable.Unique, List.Nodup, List.pairwise_map]

/-- Registering a request appends it to its own queue, in a table that stays
well formed, and leaves the other queues alone. -/
theorem addRequest_spec (table : RTable) (hashId : UInt16) (socket : Int) {packet : Packet}
    (hp : packet.Exact) : ∃ table', addRequest table hashId socket packet = .ok table' ∧
      (table.Unique → table'.Unique) ∧
      getRequests table' hashId = getRequests table hashId ++ [⟨packet, socket⟩] ∧
      ∀ h', h' ≠ hashId → getRequests table' h' = getRequests table h' := by
  simp only [addRequest, packetDup_exact hp, ok_bind]
  cases hfind : rtFind table hashId with
  | some e =>
    refine ⟨_, rfl, fun hu => ?_, ?_, fun h' hne => ?_⟩
    · rw [unique_iff_nodup, rtReplace_hashIds _ _ _ (append_hashId _)]
      exact (unique_iff_nodup table).mp hu
    · rw [getRequests, rtFind_replace_self (append_hashId _) hfind, getRequests, hfind]
      simp only [RtEntry.openRequests, RtEntry.append, appendRequest_eq, List.cons_append]
    · simp only [getRequests]
      rw [rtFind_replace_ne table hne (append_hashId _)]
  | none =>
    refine ⟨_, rfl, fun hu => ?_, ?_, fun h' hne => ?_⟩
    · rw [RTable.Unique, List.pairwise_append]
      refine ⟨hu, List.pairwise_singleton _ _, fun x hx y hy => ?_⟩
      rw [List.mem_singleton.mp hy]
      have hn := List.find?_eq_none.mp hfind x hx
      simpa using hn
    · simp only [getRequests, hfind]
      rw [rtFind] at hfind
      simp [rtFind, List.find?_append, hfind, RtEntry.openRequests]
    · have hne' : ¬ hashId = h' := fun he => hne he.symm
      have hsame : rtFind (table ++ [⟨hashId, ⟨packet, socket⟩, []⟩]) h' = rtFind table h' := by
        simp [rtFind, List.find?_append, hne']
      simp only [getRequests, hsame]

theorem rtFind_erase_self {table : RTable} (hu : table.Unique) (hashId : UInt16) :
    rtFind (table.eraseP fun e => e.hashId == hashId) hashId = none := by
  induction table with
  | nil => rfl
  | cons x xs ih =>
    rw [RTable.Unique, List.pairwise_cons] at hu
    by_cases hx : x.hashId == hashId
    · rw [List.eraseP_cons_of_pos (by simpa using hx), rtFind, List.find?_eq_none]
      intro e he
      have hxe : x.hashId = hashId := by simpa using hx
      have hne := hu.1 e he
      rw [hxe] at hne
      simpa using fun h => hne h.symm
    · rw [List.eraseP_cons_of_neg (by simpa using hx)]
      simpa [rtFind, hx] using ih hu.2

theorem rtFind_erase_ne (table : RTable) {hashId h' : UInt16} (hne : h' ≠ hashId) :
    rtFind (table.eraseP fun e => e.hashId == hashId) h' = rtFind table h' := by
  induction table with
  | nil => rfl
  | cons x xs ih =>
    by_cases hx : x.hashId == hashId
    · have hxe : x.hashId = hashId := by simpa using hx
      have hx' : ¬ hashId = h' := fun he => hne he.symm
      rw [List.eraseP_cons_of_pos (by simpa using hx)]
      simp [rtFind, hxe, hx']
    · rw [List.eraseP_cons_of_neg (by simpa using hx)]
      by_cases hy : x.hashId == h'
      · simp [rtFind, hy]
      · simpa [rtFind, hy] using ih

theorem clearRequests_unique {table : RTable} (hu : table.Unique) (hashId : UInt16) :
    (clearRequests table hashId).Unique := by
  unfold clearRequests
  split
  · exact List.Pairwise.sublist List.eraseP_sublist hu
  · exact hu

theorem getRequests_clear_self {table : RTable} (hu : table.Unique) (hashId : UInt16) :
    getRequests (clearRequests table hashId) hashId = [] := by
  unfold clearRequests
  cases hfind : rtFind table hashId with
  | some e => simp only [getRequests, rtFind_erase_self hu hashId]
  | none => simp only [getRequests, hfind]

theorem getRequests_clear_ne (table : RTable) {hashId h' : UInt16} (hne : h' ≠ hashId) :
    getRequests (clearRequests table hashId) h' = getRequests table h' := by
  unfold clearRequests
  cases hfind : rtFind table hashId with
  | some e => simp only [getRequests, rtFind_erase_ne table hne]
  | none => rfl

end RN2223.Praxis2

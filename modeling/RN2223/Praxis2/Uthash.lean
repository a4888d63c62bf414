import Mathlib.Data.List.AList
import RN2223.Lib.Chaining
import RN2223.Lib.CMemory

/-!
# uthash (uthash.h)

The macros the key-value store and the request table are built from. A struct
is its address; the fields of the hash handles are maps from addresses, so that
a write to one field leaves the others alone, and the remaining fields of the
structs are the values of the heap. All handles of a table point to the one
`UT_hash_table`, which is part of the state. `alloc` says which sizes `malloc`
grants.
-/

namespace RN2223.Praxis2.Uthash
open CMemory

abbrev Addr := ℕ

/-- What ends a macro before its last line: undefined behaviour, a walk that
never comes to an end, `uthash_fatal` for a block that `malloc` has refused, or
`HASH_OOPS`. The code around uthash goes on with a refused block, and so with
`NULL`. -/
inductive Abort where
  | fault (f : Fault)
  | endless
  | fatal (size : ℕ)
  | unchecked (size : ℕ)
  | oops
  deriving DecidableEq, Repr

def attempt {α : Type} : Except Fault α → Except Abort α
  | .ok a => .ok a
  | .error f => .error (.fault f)

def uthashMalloc (alloc : ℕ → Bool) (size : ℕ) : Except Abort Unit :=
  if alloc size then .ok () else .error (.fatal size)

/-! ### HASH_JEN -/

/-- `HASH_JEN_MIX` (`uthash.h:705-734`). -/
def hashJenMix (a b c : UInt32) : UInt32 × UInt32 × UInt32 :=
  let a := (a - b - c) ^^^ (c >>> 13)
  let b := (b - c - a) ^^^ (a <<< 8)
  let c := (c - a - b) ^^^ (b >>> 13)
  let a := (a - b - c) ^^^ (c >>> 12)
  let b := (b - c - a) ^^^ (a <<< 16)
  let c := (c - a - b) ^^^ (b >>> 5)
  let a := (a - b - c) ^^^ (c >>> 3)
  let b := (b - c - a) ^^^ (a <<< 10)
  let c := (c - a - b) ^^^ (b >>> 15)
  (a, b, c)

def keyByte (key : Bytes) (i : ℕ) : Except Fault UInt32 := (readByte key i).map UInt8.toUInt32

/-- Four bytes of the key, least significant first. -/
def keyWord (key : Bytes) (i : ℕ) : Except Fault UInt32 := do
  let b0 ← keyByte key i
  let b1 ← keyByte key (i + 1)
  let b2 ← keyByte key (i + 2)
  let b3 ← keyByte key (i + 3)
  .ok (b0 + (b1 <<< 8) + (b2 <<< 16) + (b3 <<< 24))

/-- The loop over blocks of twelve bytes, `n` of which are left. -/
def hashJenBlocks (key : Bytes) : ℕ → ℕ → UInt32 × UInt32 × UInt32 →
    Except Fault (UInt32 × UInt32 × UInt32)
  | 0, _, s => .ok s
  | n + 1, p, (i, j, hashv) => do
    let x ← keyWord key p
    let y ← keyWord key (p + 4)
    let z ← keyWord key (p + 8)
    hashJenBlocks key n (p + 12) (hashJenMix (i + x) (j + y) (hashv + z))

/-- What `case n` of the switch adds from byte `n - 1`. -/
def hashJenCase (n : ℕ) (b : UInt32) : UInt32 × UInt32 × UInt32 → UInt32 × UInt32 × UInt32
  | (i, j, hashv) => match n with
    | 11 => (i, j, hashv + (b <<< 24))
    | 10 => (i, j, hashv + (b <<< 16))
    | 9 => (i, j, hashv + (b <<< 8))
    | 8 => (i, j + (b <<< 24), hashv)
    | 7 => (i, j + (b <<< 16), hashv)
    | 6 => (i, j + (b <<< 8), hashv)
    | 5 => (i, j + b, hashv)
    | 4 => (i + (b <<< 24), j, hashv)
    | 3 => (i + (b <<< 16), j, hashv)
    | 2 => (i + (b <<< 8), j, hashv)
    | 1 => (i + b, j, hashv)
    | _ => (i, j, hashv)

/-- The switch: every case falls through to the one below it. -/
def hashJenSwitch (key : Bytes) (p : ℕ) : ℕ → UInt32 × UInt32 × UInt32 →
    Except Fault (UInt32 × UInt32 × UInt32)
  | 0, s => .ok s
  | n + 1, s => do
    let b ← keyByte key (p + n)
    hashJenSwitch key p n (hashJenCase (n + 1) b s)

/-- `HASH_JEN` (`uthash.h:736-785`); `keylen` is cut to an `unsigned`. -/
def hashJen (key : Bytes) (keylen : ℕ) : Except Fault UInt32 := do
  let k := (UInt32.ofNat keylen).toNat
  let (i, j, hashv) ← hashJenBlocks key (k / 12) 0 (0x9e3779b9, 0x9e3779b9, 0xfeedbeef)
  let (i, j, hashv) ← hashJenSwitch key (k / 12 * 12) (k % 12) (i, j, hashv + UInt32.ofNat keylen)
  .ok (hashJenMix i j hashv).2.2

/-! ### Tables -/

/-- `UT_hash_bucket` (`uthash.h:1295-1313`). -/
structure UTHashBucket where
  hhHead : Option Addr
  count : UInt32
  expandMult : UInt32
  deriving DecidableEq, Repr

/-- `UT_hash_table` (`uthash.h:1319-1352`) without the offset of the handles and
the signature. -/
structure UTHashTable where
  buckets : List UTHashBucket
  numBuckets : UInt32
  log2NumBuckets : UInt32
  numItems : UInt32
  tail : Option Addr
  idealChainMaxlen : UInt32
  nonidealItems : UInt32
  ineffExpands : UInt32
  noexpand : UInt32
  deriving DecidableEq, Repr

/-- `UT_hash_handle` (`uthash.h:1354-1363`), field by field: `app` holds `next`
and `prev`, `bkt` holds `hh_next` and `hh_prev`. The key is the object `key`
points to. -/
structure UTHashHandles where
  app : ListLinks Addr
  bkt : ListLinks Addr
  key : Addr → Bytes
  keylen : Addr → UInt32
  hashv : Addr → UInt32

structure UTHash (β : Type) where
  head : Option Addr
  tbl : Option UTHashTable
  hh : UTHashHandles
  heap : AList fun _ : Addr => β

variable {β : Type} (alloc : ℕ → Bool)

def UTHash.deref (u : UTHash β) (a : Addr) : Except Abort Unit :=
  if a ∈ u.heap then .ok () else .error (.fault .outOfBounds)

def UTHash.derefIf (u : UTHash β) : Option Addr → Except Abort Unit
  | none => .ok ()
  | some a => u.deref a

/-- `(head)->hh.tbl`. -/
def UTHash.table (u : UTHash β) : Except Abort UTHashTable :=
  match u.head, u.tbl with
  | none, _ => .error (.fault .nullPointer)
  | some _, none => .error (.fault .outOfBounds)
  | some head, some t => do
    u.deref head
    .ok t

/-- `HASH_TO_BKT` (`uthash.h:483-486`). -/
def hashToBkt (hashv numBkts : UInt32) : UInt32 := hashv &&& (numBkts - 1)

def bucketAt (buckets : List UTHashBucket) (bkt : UInt32) : Except Abort UTHashBucket :=
  match buckets[bkt.toNat]? with
  | some b => .ok b
  | none => .error (.fault .outOfBounds)

def memcmp (a b : Bytes) (n : ℕ) : Except Abort Bool :=
  if n ≤ a.length ∧ n ≤ b.length then .ok (a.take n == b.take n) else .error (.fault .outOfBounds)

/-- The loop of `HASH_FIND_IN_BKT` (`uthash.h:942-962`). A walk over more structs
than there are has come back to one it has seen. -/
def findInBkt (u : UTHash β) (key : Bytes) (keylen : ℕ) (hashval : UInt32) :
    ℕ → Option Addr → Except Abort (Option Addr)
  | _, none => .ok none
  | 0, some _ => .error .endless
  | fuel + 1, some out => do
    u.deref out
    if u.hh.hashv out = hashval ∧ (u.hh.keylen out).toNat = keylen then
      if ← memcmp (u.hh.key out) key keylen then
        .ok (some out)
      else
        findInBkt u key keylen hashval fuel (u.hh.bkt.next out)
    else
      findInBkt u key keylen hashval fuel (u.hh.bkt.next out)

def UTHash.fuel (u : UTHash β) : ℕ := u.heap.keys.length

/-- `HASH_FIND` (`uthash.h:189-197`). -/
def hashFind (u : UTHash β) (key : Bytes) (keylen : ℕ) : Except Abort (Option Addr) :=
  match u.head with
  | none => .ok none
  | some _ => do
    let hashv ← attempt (hashJen key keylen)
    let t ← u.table
    let b ← bucketAt t.buckets (hashToBkt hashv t.numBuckets)
    findInBkt u key keylen hashv u.fuel b.hhHead

/-- `HASH_MAKE_TABLE` (`uthash.h:242-276`): 64 and 16 are the sizes of
`UT_hash_table` and `UT_hash_bucket`. -/
def hashMakeTable (head : Addr) : Except Abort UTHashTable := do
  uthashMalloc alloc 64
  uthashMalloc alloc (32 * 16)
  .ok {
    buckets := List.replicate 32 ⟨none, 0, 0⟩
    numBuckets := 32
    log2NumBuckets := 5
    numItems := 0
    tail := some head
    idealChainMaxlen := 0
    nonidealItems := 0
    ineffExpands := 0
    noexpand := 0 }

/-- `HASH_APPEND_LIST` (`uthash.h:319-325`). -/
def hashAppendList (u : UTHash β) (add : Addr) : Except Abort (UTHash β) := do
  let t ← u.table
  u.deref add
  match t.tail with
  | none => .error (.fault .nullPointer)
  | some tail =>
    u.deref tail
    .ok { u with
      hh := { u.hh with app := u.hh.app.append tail add }, tbl := some { t with tail := some add } }

/-! ### Bucket expansion -/

/-- What `HASH_EXPAND_BUCKETS` builds up while it walks the old buckets. -/
structure Expansion where
  newBuckets : List UTHashBucket
  nonidealItems : UInt32
  bkt : ListLinks Addr

/-- The count of a new bucket goes up by one (`uthash.h:1058-1065`). -/
def countItem (ideal : UInt32) (b : UTHashBucket) : UTHashBucket :=
  let count := b.count + 1
  if ideal < count ∧ b.expandMult * ideal < count then
    { b with count := count, expandMult := b.expandMult + 1 }
  else
    { b with count := count }

/-- `thh` at the front of new bucket `i`, which was `b` (`uthash.h:1058-1072`). -/
def Expansion.moved (e : Expansion) (ideal : UInt32) (i : ℕ) (b : UTHashBucket) (thh : Addr) :
    Expansion where
  newBuckets := e.newBuckets.set i { countItem ideal b with hhHead := some thh }
  nonidealItems := if ideal < b.count + 1 then e.nonidealItems + 1 else e.nonidealItems
  bkt := e.bkt.pushFront b.hhHead thh

/-- One round of the inner loop (`uthash.h:1053-1073`). -/
def moveItem (u : UTHash β) (numBkts ideal : UInt32) (thh : Addr) (e : Expansion) :
    Except Abort Expansion := do
  let bkt := hashToBkt (u.hh.hashv thh) numBkts
  let b ← bucketAt e.newBuckets bkt
  u.derefIf b.hhHead
  .ok (e.moved ideal bkt.toNat b thh)

def moveChain (u : UTHash β) (numBkts ideal : UInt32) :
    ℕ → Option Addr → Expansion → Except Abort Expansion
  | _, none, e => .ok e
  | 0, some _, _ => .error .endless
  | fuel + 1, some thh, e => do
    u.deref thh
    let nxt := e.bkt.next thh
    let e ← moveItem u numBkts ideal thh e
    moveChain u numBkts ideal fuel nxt e

/-- The outer loop, from bucket `i` on. -/
def moveBuckets (u : UTHash β) (t : UTHashTable) (ideal : UInt32) :
    ℕ → ℕ → Expansion → Except Abort Expansion
  | 0, _, e => .ok e
  | n + 1, i, e => do
    let b ← bucketAt t.buckets (UInt32.ofNat i)
    let e ← moveChain u (t.numBuckets * 2) ideal u.fuel b.hhHead e
    moveBuckets u t ideal n (i + 1) e

/-- The longest chain of an even distribution over twice the buckets
(`uthash.h:1042-1046`). -/
def UTHashTable.idealMaxlen (t : UTHashTable) : UInt32 :=
  (t.numItems >>> (t.log2NumBuckets + 1)) +
    if t.numItems &&& (t.numBuckets * 2 - 1) ≠ 0 then 1 else 0

/-- The table with its new buckets (`uthash.h:1074-1084`). -/
def UTHashTable.expanded (t : UTHashTable) (ideal : UInt32) (e : Expansion) : UTHashTable :=
  let ineff := if t.numItems >>> 1 < e.nonidealItems then t.ineffExpands + 1 else 0
  { t with
    buckets := e.newBuckets
    numBuckets := t.numBuckets * 2
    log2NumBuckets := t.log2NumBuckets + 1
    idealChainMaxlen := ideal
    nonidealItems := e.nonidealItems
    ineffExpands := ineff
    noexpand := if 1 < ineff then 1 else t.noexpand }

/-- `HASH_EXPAND_BUCKETS` (`uthash.h:1028-1086`). -/
def hashExpandBuckets (u : UTHash β) (t : UTHashTable) : Except Abort (UTHash β) := do
  uthashMalloc alloc (2 * t.numBuckets.toNat * 16)
  let ideal := t.idealMaxlen
  let start : Expansion :=
    ⟨List.replicate (2 * t.numBuckets.toNat) ⟨none, 0, 0⟩, 0, u.hh.bkt⟩
  let e ← moveBuckets u t ideal t.numBuckets.toNat 0 start
  .ok { u with hh := { u.hh with bkt := e.bkt }, tbl := some (t.expanded ideal e) }

/-! ### Adding and deleting -/

/-- `HASH_ADD_TO_BKT` (`uthash.h:965-981`). -/
def hashAddToBkt (u : UTHash β) (t : UTHashTable) (bkt : UInt32) (addhh : Addr) :
    Except Abort (UTHash β) := do
  let b ← bucketAt t.buckets bkt
  u.derefIf b.hhHead
  let b' := { b with count := b.count + 1, hhHead := some addhh }
  let t := { t with buckets := t.buckets.set bkt.toNat b' }
  let u :=
    { u with hh := { u.hh with bkt := u.hh.bkt.pushFront b.hhHead addhh }, tbl := some t }
  if (b'.expandMult + 1) * 10 ≤ b'.count ∧ t.noexpand = 0 then
    hashExpandBuckets alloc u t
  else
    .ok u

/-- `HASH_ADD_TO_TABLE` (`uthash.h:376-386`). -/
def hashAddToTable (u : UTHash β) (hashval : UInt32) (add : Addr) : Except Abort (UTHash β) := do
  let t ← u.table
  u.deref add
  let t := { t with numItems := t.numItems + 1 }
  hashAddToBkt alloc u t (hashToBkt hashval t.numBuckets) add

/-- The first three assignments of `HASH_ADD_KEYPTR_BYHASHVALUE`. -/
def UTHashHandles.setKey (hh : UTHashHandles) (add : Addr) (key : Bytes) (keylen : ℕ)
    (hashval : UInt32) : UTHashHandles :=
  { hh with
    hashv := Function.update hh.hashv add hashval
    key := Function.update hh.key add key
    keylen := Function.update hh.keylen add (UInt32.ofNat keylen) }

/-- `HASH_ADD_KEYPTR` (`uthash.h:446-475`). -/
def hashAddKeyptr (u : UTHash β) (key : Bytes) (keylen : ℕ) (add : Addr) :
    Except Abort (UTHash β) := do
  let hashv ← attempt (hashJen key keylen)
  u.deref add
  let u := { u with hh := u.hh.setKey add key keylen hashv }
  let u ← match u.head with
    | none => do
      let t ← hashMakeTable alloc add
      .ok { u with
        hh := { u.hh with app := (u.hh.app.setNext add none).setPrev add none }
        tbl := some t
        head := some add }
    | some _ => hashAppendList u add
  hashAddToTable alloc u hashv add

/-- `HASH_DEL_IN_BKT` (`uthash.h:984-996`). -/
def hashDelInBkt (u : UTHash β) (t : UTHashTable) (bkt : UInt32) (delhh : Addr) :
    Except Abort (UTHash β) := do
  let b ← bucketAt t.buckets bkt
  u.derefIf (u.hh.bkt.prev delhh)
  u.derefIf (u.hh.bkt.next delhh)
  let b' : UTHashBucket :=
    { b with
      count := b.count - 1
      hhHead := if b.hhHead = some delhh then u.hh.bkt.next delhh else b.hhHead }
  .ok { u with
    hh := { u.hh with bkt := u.hh.bkt.unlink delhh }
    tbl := some { t with buckets := t.buckets.set bkt.toNat b' } }

/-- `HASH_DELETE_HH` (`uthash.h:502-535`). -/
def hashDelete (u : UTHash β) (del : Addr) : Except Abort (UTHash β) := do
  u.deref del
  let t ← u.table
  if u.hh.app.prev del = none ∧ u.hh.app.next del = none then
    .ok { u with tbl := none, head := none }
  else
    u.derefIf (u.hh.app.prev del)
    u.derefIf (u.hh.app.next del)
    let t := if t.tail = some del then { t with tail := u.hh.app.prev del } else t
    let head := if u.hh.app.prev del = none then u.hh.app.next del else u.head
    let u := { u with head := head, hh := { u.hh with app := u.hh.app.unlink del }, tbl := some t }
    let u ← hashDelInBkt u t (hashToBkt (u.hh.hashv del) t.numBuckets) del
    let t ← u.table
    .ok { u with tbl := some { t with numItems := t.numItems - 1 } }

/-! ### HASH_FSCK -/

/-- The walks of `HASH_FSCK`: every link back is checked, the elements are
counted; `HASH_OOPS` exits. -/
def fsckWalk (u : UTHash β) (l : ListLinks Addr) :
    ℕ → Option Addr → Option Addr → UInt32 → Except Abort UInt32
  | _, _, none, count => .ok count
  | 0, _, some _, _ => .error .endless
  | fuel + 1, prev, some thh, count => do
    u.deref thh
    if prev = l.prev thh then
      fsckWalk u l fuel (some thh) (l.next thh) (count + 1)
    else
      .error .oops

def fsckBuckets (u : UTHash β) (t : UTHashTable) : ℕ → ℕ → UInt32 → Except Abort UInt32
  | 0, _, count => .ok count
  | n + 1, i, count => do
    let b ← bucketAt t.buckets (UInt32.ofNat i)
    let bktCount ← fsckWalk u u.hh.bkt u.fuel none b.hhHead 0
    if b.count = bktCount then
      fsckBuckets u t n (i + 1) (count + bktCount)
    else
      .error .oops

/-- `HASH_FSCK` (`uthash.h:579-629`). -/
def hashFsck (u : UTHash β) : Except Abort Unit :=
  match u.head with
  | none => .ok ()
  | some head => do
    let t ← u.table
    let count ← fsckBuckets u t t.numBuckets.toNat 0 0
    if count ≠ t.numItems then
      .error .oops
    else
      let count ← fsckWalk u u.hh.app u.fuel none (some head) 0
      if count ≠ t.numItems then .error .oops else .ok ()

end RN2223.Praxis2.Uthash

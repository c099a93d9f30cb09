import Chime.Lib.Machine
import Mathlib.Algebra.BigOperators.Group.Finset.Basic
import Mathlib.Data.UInt

/-!
# The hotspot cache (`IdxCache.h`)

A hash table of pointers to entries, which one thread uses. An entry is a heap identity: `new` takes a fresh one, and
its content stays readable. A compare-and-swap of the thread succeeds, and the slot that it was made on, which the
source names by a reference, then has the new value. `log` records what becomes of the entries. The picks of the
eviction, and the candidate that an unstable sort puts in front, are arguments.
-/

namespace Chime

/-- `sizeof(IdxCacheEntry)`. -/
def sizeofIdxCacheEntry : Nat := 8 + 2 * 2 + 4

/-- `INT_MAX`. -/
def intMax : Int := 2 ^ 31 - 1

/-- `key2fp`: the last two bytes of the key. -/
def key2fp (k : Nat) : Nat := k % 256 * 256 + k / 256 % 256

/-- The constants of the cache; `cacheSize` is in MB. -/
structure IdxCacheSizes where
  cacheSize : Nat
  hashTableSize : Nat
  bucketSize : Nat
  safelyFreeEpoch : Nat
  leafSpanSize : Nat
  hashTableSize_pos : 0 < hashTableSize

/-- The constants of the default build. -/
def IdxCacheSizes.default : IdxCacheSizes where
  cacheSize := 30
  hashTableSize := 1000000
  bucketSize := 16
  safelyFreeEpoch := 20 * 65 * 8
  leafSpanSize := 64
  hashTableSize_pos := by decide

/-- The capacity in bytes. -/
def IdxCacheSizes.capacity (S : IdxCacheSizes) : Nat := 1024 * 1024 * S.cacheSize

structure IdxCacheEntry where
  leafAddr : UInt64
  kvIdx : Nat
  fingerprint : Nat
  cacheEntryFreq : Int
  deriving DecidableEq, Repr

/-- What becomes of the entries. -/
inductive HeapEvent
  /-- taken out of the hash table -/
  | removed (id : Nat)
  /-- pushed to `cache_entry_gc` -/
  | retired (id : Option Nat)
  | deleted (id : Nat)
  deriving DecidableEq, Repr

structure IdxCache where
  hashTable : Nat → List (Option Nat)
  /-- the entries by their identities; the next identity -/
  heap : Nat → IdxCacheEntry
  fresh : Nat
  cacheEntryGc : List (Option Nat)
  freeSize : Int
  delayCnt : Int
  /-- the newest first -/
  log : List HeapEvent

namespace IdxCache

variable (S : IdxCacheSizes)

/-- The constructor. -/
def init : IdxCache :=
  ⟨fun _ => List.replicate S.bucketSize none, fun _ => ⟨0, 0, 0, 0⟩, 0, [], S.capacity, 0, []⟩

/-- `is_disabled`. -/
def isDisabled : Bool := S.cacheSize = 0

/-- `get_hashed_cache_table_index`. -/
def getHashedCacheTableIndex (leafAddr : UInt64) (kvIdx : Nat) : Nat :=
  (leafAddr + UInt64.ofNat kvIdx).toNat % S.hashTableSize

variable (c : IdxCache)

/-- The entry is the one of a slot of a leaf. -/
def isFor (leafAddr : UInt64) (kvIdx : Nat) (e : Option Nat) : Bool :=
  e.any fun id => (c.heap id).leafAddr = leafAddr ∧ (c.heap id).kvIdx = kvIdx

/-- "search from existing slot" -/
def findEntry (bucket : List (Option Nat)) (leafAddr : UInt64) (kvIdx : Nat) : Option Nat :=
  (bucket.find? (c.isFor leafAddr kvIdx)).join

/-- `find_lfu_idx`, and the loop of `add_to_cache` over a full bucket: the first entry of the least frequency, if one
is below `INT_MAX`. -/
def findLfuIdx (bucket : List (Option Nat)) : Option Nat × Int :=
  bucket.zipIdx.foldl
    (fun best x =>
      match x.1 with
      | none => best
      | some id => if (c.heap id).cacheEntryFreq < best.2 then (some x.2, (c.heap id).cacheEntryFreq) else best)
    (none, intMax)

/-- The slot is assigned. -/
def setSlot (htIdx i : Nat) (e : Option Nat) : IdxCache :=
  { c with hashTable := Function.update c.hashTable htIdx ((c.hashTable htIdx).set i e) }

/-- `safely_delete`. -/
def safelyDelete (e : Option Nat) : IdxCache :=
  let queue := c.cacheEntryGc ++ [e]
  let overflow := queue.length - S.safelyFreeEpoch
  { c with
    cacheEntryGc := queue.drop overflow
    log := ((queue.take overflow).reduceOption.map HeapEvent.deleted).reverse ++ .retired e :: c.log }

/-- "erase an entry": the reference `entry` reads as null when it is handed to `safely_delete`. -/
def erase (htIdx i id : Nat) : IdxCache :=
  let c := { c.setSlot htIdx i none with log := .removed id :: c.log }
  let c := c.safelyDelete S ((c.hashTable htIdx).getD i none)
  { c with freeSize := c.freeSize + sizeofIdxCacheEntry }

/-- `evict_one`, with the two buckets that are picked; `none`: they are not two buckets, or a slot -1 is accessed. -/
def evictOne (pick : Nat × Nat) : Option IdxCache :=
  if pick.1 < S.hashTableSize ∧ pick.2 < S.hashTableSize ∧ pick.1 ≠ pick.2 then
    let lfu₁ := c.findLfuIdx (c.hashTable pick.1)
    let lfu₂ := c.findLfuIdx (c.hashTable pick.2)
    if lfu₁.1 = none ∧ lfu₂.1 = none then some c
    else
      let (htIdx, minIdx) := if lfu₁.2 < lfu₂.2 then (pick.1, lfu₁.1) else (pick.2, lfu₂.1)
      match minIdx with
      | none => none
      | some i =>
        match (c.hashTable htIdx).getD i none with
        | none => some c
        | some id => some (c.erase S htIdx i id)
  else none

/-- The loop of `evict`; `none`: the picks do not suffice. -/
def evictLoop : IdxCache → List (Nat × Nat) → Option IdxCache
  | _, [] => none
  | c, pick :: picks =>
    match c.evictOne S pick with
    | none => none
    | some c => if c.freeSize < 0 then evictLoop c picks else some c

/-- `evict`. -/
def evict (picks : List (Nat × Nat)) : Option IdxCache := evictLoop S { c with delayCnt := 10 } picks

/-- A hit: the frequency is an `int32_t`. -/
def hit (id fp : Nat) : IdxCache :=
  let e := c.heap id
  let e := if e.fingerprint ≠ fp then { e with fingerprint := fp, cacheEntryFreq := 1 }
    else { e with cacheEntryFreq := (e.cacheEntryFreq + 1).bmod (2 ^ 32) }
  { c with heap := Function.update c.heap id e }

/-- `new IdxCacheEntry(leaf_addr, kv_idx, k)`; `kv_idx` becomes a `uint16_t`. -/
def alloc (leafAddr : UInt64) (kvIdx k : Nat) : IdxCache :=
  { c with heap := Function.update c.heap c.fresh ⟨leafAddr, kvIdx % 2 ^ 16, key2fp k, 1⟩, fresh := c.fresh + 1 }

/-- "insert into empty slot" -/
def insertEmpty (htIdx i id : Nat) (picks : List (Nat × Nat)) : Option IdxCache :=
  let v := c.freeSize
  let c := { c.setSlot htIdx i (some id) with freeSize := c.freeSize - sizeofIdxCacheEntry }
  if v < 0 then c.evict S picks else some c

/-- "evict the lfu one": after the swap, the reference `e` reads as the new entry. -/
def replaceLfu (htIdx i id : Nat) : IdxCache :=
  let old := (c.hashTable htIdx).getD i none
  let c := c.setSlot htIdx i (some id)
  let c := { c with log := (old.toList.map HeapEvent.removed) ++ c.log }
  c.safelyDelete S ((c.hashTable htIdx).getD i none)

/-- `add_to_cache`; `none`: a slot -1 is accessed, or the picks do not suffice. -/
def addToCache (leafAddr : UInt64) (kvIdx k : Nat) (picks : List (Nat × Nat)) : Option (IdxCache × Bool) :=
  if isDisabled S then some (c, false)
  else
    let htIdx := getHashedCacheTableIndex S leafAddr kvIdx
    match c.findEntry (c.hashTable htIdx) leafAddr kvIdx with
    | some id => some (c.hit id (key2fp k), true)
    | none =>
      let delay := c.delayCnt
      let c := { c with delayCnt := c.delayCnt - 1 }
      if delay > 0 then some (c, false)
      else
        let newEntry := c.fresh
        let c := c.alloc leafAddr kvIdx k
        match (c.hashTable htIdx).findIdx? (·.isNone) with
        | some i => (c.insertEmpty S htIdx i newEntry picks).map fun c => (c, true)
        | none =>
          match (c.findLfuIdx (c.hashTable htIdx)).1 with
          | none => none
          | some i => some (c.replaceLfu S htIdx i newEntry, true)

/-- The indexes from `l_idx` to `r_idx` around the leaf, in the order of the search. -/
def searchedIdxs (lIdx rIdx : Nat) : List Nat :=
  if rIdx < lIdx then List.range (rIdx + 1) ++ List.range' lIdx (S.leafSpanSize - lIdx)
  else List.range' lIdx (rIdx + 1 - lIdx)

/-- `candidates`, with their frequencies. -/
def candidates (leafAddr : UInt64) (lIdx rIdx k : Nat) : List (Nat × Int) :=
  (searchedIdxs S lIdx rIdx).flatMap fun idx =>
    ((c.hashTable (getHashedCacheTableIndex S leafAddr idx)).reduceOption.filter fun id =>
      c.isFor leafAddr idx (some id) ∧
        (c.heap id).fingerprint = key2fp k).map fun id => (idx, (c.heap id).cacheEntryFreq)

/-- `search_idx_from_cache` can end with this index: a candidate of the highest frequency is the first one after the
sort. -/
def searchIdxFromCache (leafAddr : UInt64) (lIdx rIdx k : Nat) : Option Nat → Bool
  | none => isDisabled S ∨ c.candidates S leafAddr lIdx rIdx k = []
  | some kvIdx => ¬isDisabled S ∧ ∃ x ∈ c.candidates S leafAddr lIdx rIdx k, x.1 = kvIdx ∧
      ∀ y ∈ c.candidates S leafAddr lIdx rIdx k, y.2 ≤ x.2

/-- The operations, with what they pick. -/
inductive Op
  | add (leafAddr : UInt64) (kvIdx k : Nat) (picks : List (Nat × Nat))
  | search (leafAddr : UInt64) (lIdx rIdx k : Nat) (kvIdx : Option Nat)
  | evict (picks : List (Nat × Nat))
  deriving DecidableEq, Repr

def step : Op → Option IdxCache
  | .add leafAddr kvIdx k picks => (c.addToCache S leafAddr kvIdx k picks).map (·.1)
  | .search leafAddr lIdx rIdx k kvIdx => if c.searchIdxFromCache S leafAddr lIdx rIdx k kvIdx then some c else none
  | .evict picks => c.evict S picks

/-- The cache in the hands of one thread. -/
def machine : Machine IdxCache Op Empty where
  init := init S
  step c op := (c.step S op).map fun c => (c, [])

end IdxCache

end Chime

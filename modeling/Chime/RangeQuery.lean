import Chime.CacheLookup
import Chime.SegmentMerge

/-!
# Range queries (`Tree.cpp`, `TreeCache.h`)

`range_query` takes the ranges of the leaves from the cached nodes of level 1 and reads segments of the leaves: a whole
leaf, or the neighborhoods of the keys, or the slot that the hotspot cache names for a key. A segment that does not
pass its checks is read again. A key that was read speculatively and not found is looked for in its neighborhood, and
what is still missing at the end is searched. Without cached nodes all keys are searched.

A read gives the slots as they are in the leaf, without the range buffer in between: the segments of the `i`-th leaf of
a round are read to their offsets in the `i`-th place of the buffer, the places of a round do not overlap, and all of
them are decoded before the next round is read. So what is decoded is what was read.
-/

namespace Chime

open TreeCacheEntry

variable {L : Layout}

/-- `search_range_from_cache`. -/
def TreeCache.searchRangeFromCache (c : TreeCache) (fromKey toKey : Nat) : List InternalNode :=
  let entries := (c.entries.dropWhile (·.before ⟨fromKey, fromKey, none⟩)).filter (·.ptr.isSome)
  ((entries.takeWhile (·.fromKey ≤ toKey)).filterMap (·.ptr)).filter (·.level = 1)

/-! ## Leaves and their ranges -/

/-- `FenceKeys`. -/
structure FenceKeys where
  lowest : Nat
  highest : Nat
  deriving DecidableEq, Repr

namespace FenceKeys

variable (fences : FenceKeys) (fromKey toKey : Nat)

/-- The keys in the range and between the bounds. -/
def keys : List Nat := List.range' (max fences.lowest fromKey) (min fences.highest toKey - max fences.lowest fromKey)

/-- The range lies between the bounds. -/
def within : Bool := max fences.lowest fromKey = fences.lowest ∧ min fences.highest toKey = fences.highest

end FenceKeys

/-- `operator<` of addresses. -/
def GlobalAddress.before : GlobalAddress → GlobalAddress → Bool
  | .at a, .at b => a < b
  | .null, .null | .widest, _ | .at _, .null => false
  | .null, _ | .at _, .widest => true

/-- The assignment of an entry of a map that is ordered by addresses. -/
def assignEntry {α : Type} (p : GlobalAddress) (f : Option α → α) : List (GlobalAddress × α) → List (GlobalAddress × α)
  | [] => [(p, f none)]
  | (q, x) :: entries =>
    if q.before p then (q, x) :: assignEntry p f entries
    else if q = p then (p, f (some x)) :: entries
    else (p, f none) :: (q, x) :: entries

namespace InternalNode

/-- The children of the entries, each with its range. -/
def entryRanges (highest : Nat) : InternalEntry → List InternalEntry → List (GlobalAddress × FenceKeys)
  | e, [] => [(e.ptr, ⟨e.key, highest⟩)]
  | e, e' :: es => (e.ptr, ⟨e.key, e'.key⟩) :: entryRanges highest e' es

/-- The children, each with its range. In a node without records the entry that is read is null. -/
def childRanges (nd : InternalNode) : List (GlobalAddress × FenceKeys) :=
  let e := nd.records.headD ⟨kkeyNull, .null⟩
  (nd.leftmostPtr, ⟨nd.lowest, e.key⟩) :: entryRanges nd.highest e nd.records.tail

end InternalNode

/-- "parse cached internal nodes": `leaf_addrs` with `leaf_fences`. -/
def leafFences (nodes : List InternalNode) (fromKey toKey : Nat) : List (GlobalAddress × FenceKeys) :=
  ((nodes.flatMap InternalNode.childRanges).filter fun x => fromKey < x.2.highest ∧ x.2.lowest < toKey).foldl
    (fun fences x => assignEntry x.1 (fun _ => x.2) fences) []

/-! ## Segments -/

/-- The neighborhood of a home as intervals of slots. -/
def neighborIntervals (L : Layout) (hashIdx : Nat) : List (Nat × Nat) :=
  if hashIdx + L.neighborSize ≤ L.leafSpanSize then [(hashIdx, hashIdx + L.neighborSize)]
  else [(hashIdx, L.leafSpanSize), (0, L.neighborSize - (L.leafSpanSize - hashIdx))]

/-- A segment of a leaf: `start_idx`, `segment_size` and `leaf_addr`. -/
structure ReadSegment where
  startIdx : Nat
  segmentSize : Nat
  leafAddr : GlobalAddress
  deriving DecidableEq, Repr

/-- What a range query meets, apart from the remote memory and the index cache: the slot that the hotspot cache names
for a key of a leaf, whether `decode_segment_versions` rejects the segment in a round of reads, and what the steps of
the search of a key meet. `maxLeafEntryPerIO` is `none` without `GREEDY_RANGE_QUERY`. -/
structure QuerySurroundings (L : Layout) where
  maxLeafEntryPerIO : Option Nat
  speculativeIdx : GlobalAddress → Nat → Option (Fin L.leafSpanSize)
  rejected : Nat → ReadSegment → Bool
  search : Nat → Nat → Surroundings L

namespace QuerySurroundings

variable (o : QuerySurroundings L)

/-- "generate read segments": the intervals of a leaf, before they are merged. -/
def leafIntervals (fromKey toKey : Nat) (leaf : GlobalAddress × FenceKeys) : List (Nat × Nat) :=
  if leaf.2.within fromKey toKey then [(0, L.leafSpanSize)]
  else (leaf.2.keys fromKey toKey).flatMap fun k =>
    match o.speculativeIdx leaf.1 k with
    | some i => [(i.val, i.val + 1)]
    | none => neighborIntervals L (L.getHashedLeafEntryIndex k).val

/-- `speculative_keys` of a leaf. -/
def speculativeKeys (fromKey toKey : Nat) (leaf : GlobalAddress × FenceKeys) : List Nat :=
  if leaf.2.within fromKey toKey then []
  else (leaf.2.keys fromKey toKey).filter fun k => (o.speculativeIdx leaf.1 k).isSome

/-- The segments of a leaf that are read. -/
def segments (leafAddr : GlobalAddress) (intervals : List (Nat × Nat)) : List ReadSegment :=
  (mergeInternals o.maxLeafEntryPerIO intervals).map fun x => ⟨x.1, x.2 - x.1, leafAddr⟩

/-- The segments for `retry_leaf_keys`: the neighborhoods of the keys. -/
def retrySegments (retryLeafKeys : List (GlobalAddress × List Nat)) : List (List ReadSegment) :=
  retryLeafKeys.map fun x => o.segments x.1 (x.2.flatMap fun k => neighborIntervals L (L.getHashedLeafEntryIndex k).val)

end QuerySurroundings

/-! ## A round of reads -/

/-- "check hopping consistency" of a segment: the bits of its slots are for keys of the segment with that home. -/
def hopConsistent (r : Records L) (seg : ReadSegment) : Bool :=
  ∀ j < seg.segmentSize, ∀ i < min L.neighborSize (seg.segmentSize - j),
    (r.getEntry (seg.startIdx + j : Nat)).hopBit i = true →
      (r.getEntry (seg.startIdx + j + i : Nat)).key ≠ kkeyNull ∧
        (L.getHashedLeafEntryIndex (r.getEntry (seg.startIdx + j + i : Nat)).key).val = seg.startIdx + j

/-- "search key from the segments". -/
def collect (fromKey toKey : Nat) (r : Records L) (seg : ReadSegment) (ret : Nat → Option Nat) : Nat → Option Nat :=
  (List.range' seg.startIdx seg.segmentSize).foldl (fun ret (i : Nat) =>
    let e := r.getEntry i
    if e.key ≠ kkeyNull ∧ fromKey ≤ e.key ∧ e.key < toKey then Function.update ret e.key (some e.value) else ret) ret

namespace QuerySurroundings

variable (o : QuerySurroundings L)

/-- "parse read leaf segments", for the segments of one leaf: `ret`, and the segments that have to be read again. -/
def parseLeaf (s : Store L) (fromKey toKey round : Nat) : List ReadSegment → (Nat → Option Nat) →
    Option ((Nat → Option Nat) × List ReadSegment)
  | [], ret => some (ret, [])
  | seg :: segs, ret =>
    match s.read seg.leafAddr with
    | .leaf lf _ =>
      if o.rejected round seg ∨ ¬hopConsistent lf.records seg then
        (parseLeaf s fromKey toKey round segs ret).map fun x => (x.1, seg :: x.2)
      else parseLeaf s fromKey toKey round segs (collect fromKey toKey lf.records seg ret)
    | _ => none

/-- The same for all leaves; `next_info` has the leaves with such segments. -/
def parseLeaves (s : Store L) (fromKey toKey round : Nat) : List (List ReadSegment) → (Nat → Option Nat) →
    Option ((Nat → Option Nat) × List (List ReadSegment))
  | [], ret => some (ret, [])
  | segs :: info, ret => do
    let (ret, again) ← o.parseLeaf s fromKey toKey round segs ret
    let (ret, nextInfo) ← parseLeaves s fromKey toKey round info ret
    return (ret, if again = [] then nextInfo else again :: nextInfo)

end QuerySurroundings

/-! ## Searches -/

/-- What a call has returned within this many steps: the memory, the index cache and the value. -/
def CachedClient.returns (s : Store L) (c : CachedClient L) (o : Nat → Surroundings L) (fuel : Nat) :
    Option (Store L × TreeCache × Nat) :=
  (List.range fuel).findSome? fun n => (c.after s o n).bind fun x =>
    match x.2.client.pc with
    | .done v => some (x.1, x.2.treeCache, v)
    | _ => none

/-- The memory, the index cache and `ret`. -/
structure QueryState (L : Layout) where
  store : Store L
  treeCache : TreeCache
  ret : Nat → Option Nat

namespace QueryState

variable (o : QuerySurroundings L) (fuel : Nat) (q : QueryState L)

/-- `search(k, ret[k])`. -/
def search (k : Nat) : Option (QueryState L) := do
  let (store, treeCache, v) ← (CachedClient.call .search k q.treeCache).returns q.store (o.search k) fuel
  return ⟨store, treeCache, Function.update q.ret k (some v)⟩

/-- A key is searched if it is not in `ret`. -/
def searchMissing (k : Nat) : Option (QueryState L) := if (q.ret k).isSome then some q else q.search o fuel k

/-- The loop over `speculative_keys`: a key that was not found is searched, or noted under the leaf of its cached
parent in `retry_leaf_keys`. -/
def retrySpeculative (q : QueryState L) (retryLeafKeys : List (GlobalAddress × List Nat)) :
    List Nat → Option (QueryState L × List (GlobalAddress × List Nat))
  | [] => some (q, retryLeafKeys)
  | k :: keys =>
    if (q.ret k).isSome then retrySpeculative q retryLeafKeys keys
    else
      match (q.treeCache.searchFromCache k).filter (·.2.level = 1) with
      | none => (q.search o fuel k).bind fun q => retrySpeculative q retryLeafKeys keys
      | some (_, nd) =>
        retrySpeculative q (assignEntry (nd.childPtr k).1 (fun keys => keys.getD [] ++ [k]) retryLeafKeys) keys

/-- The loop `re_read`, of this many rounds at most. -/
def reRead (fromKey toKey : Nat) : Nat → Nat → List Nat → List (List ReadSegment) → QueryState L → Option (QueryState L)
  | 0, _, _, _, _ => none
  | rounds + 1, round, speculativeKeys, leafInfo, q => do
    let (ret, nextInfo) ← o.parseLeaves q.store fromKey toKey round leafInfo q.ret
    let (q, retryLeafKeys) ← retrySpeculative o fuel { q with ret } [] speculativeKeys
    let nextInfo := nextInfo ++ o.retrySegments retryLeafKeys
    if nextInfo.flatten = [] then return q else reRead fromKey toKey rounds (round + 1) [] nextInfo q

/-- The reads of the leaves of cached nodes. -/
def readLeaves (fromKey toKey : Nat) (nodes : List InternalNode) : Option (QueryState L) :=
  let leaves := leafFences nodes fromKey toKey
  q.reRead o fuel fromKey toKey fuel 0 (leaves.flatMap (o.speculativeKeys fromKey toKey))
    (leaves.map fun leaf => o.segments leaf.1 (o.leafIntervals fromKey toKey leaf))

/-- `range_query`: what it returns, and the state. -/
def rangeQuery (fromKey toKey : Nat) : Option (Bool × QueryState L) :=
  let keys := List.range' fromKey (toKey - fromKey)
  match q.treeCache.searchRangeFromCache fromKey toKey with
  | [] => do
    let q ← keys.foldlM (fun q k => search o fuel q k) q
    return (false, q)
  | nodes => do
    let q ← q.readLeaves o fuel fromKey toKey nodes
    let q ← keys.foldlM (fun q k => searchMissing o fuel q k) q
    return (true, q)

end QueryState

end Chime

import Chime.Hopscotch

/-!
# Leaf operations of the tree (`Tree.cpp`)

`leaf_node_insert`, `leaf_node_update` and `leaf_node_search` on one leaf. The operation reads parts of the remote leaf
into a local view (`hopscotchSearch`, `leafEntryRead`), decides what to do, and hands over the writes that it issues
together with the unlock. A read of a segment fetches the leaf metadata only if one of its replicas, one every
`neighborSize` slots, lies in the segment.
-/

namespace Chime

open Cyclic (slot)

variable {L : Layout}

/-- Slot `s` lies in the cyclic segment from `l` to `r`. -/
def inSegment {n : Nat} (l r s : Fin n) : Bool := if l ≤ r then l ≤ s ∧ s ≤ r else s ≤ r ∨ l ≤ s

/-- `MetadataManager::decode_segment_metadata` finds a replica in the segment of `len` slots from `start`. -/
def segmentHasMetadata (L : Layout) (start len : Nat) : Bool :=
  (L.neighborSize - start % L.neighborSize) % L.neighborSize < len

/-- `hopscotch_search`: read `entryNum` slots from `hashIdx` on, wrapping around, into the view `leaf`. -/
def hopscotchSearch (remote : LeafNode L) (hashIdx : Fin L.leafSpanSize) (entryNum : Nat) (leaf : LeafNode L) :
    Checked (LeafNode L) := do
  let sizeR := min entryNum (L.leafSpanSize - hashIdx.val)
  let sizeL := if entryNum ≤ L.leafSpanSize - hashIdx.val then 0 else entryNum - (L.leafSpanSize - hashIdx.val)
  let records : Records L := fun s =>
    if s.val < sizeL ∨ (hashIdx.val ≤ s.val ∧ s.val < hashIdx.val + sizeR) then remote.records s else leaf.records s
  let hasMetadataR := segmentHasMetadata L hashIdx.val sizeR
  if sizeL > 0 then
    Checked.assert .hasMetadata (segmentHasMetadata L 0 sizeL)
    return ⟨remote.metadata, records⟩
  else
    Checked.assert .hasMetadata (entryNum ≥ L.neighborSize → hasMetadataR)
    return ⟨if hasMetadataR then remote.metadata else leaf.metadata, records⟩

/-- `leaf_entry_read`. -/
def leafEntryRead (remote : LeafNode L) (idx : Fin L.leafSpanSize) (leaf : LeafNode L) : LeafNode L :=
  ⟨if segmentHasMetadata L idx.val 1 then remote.metadata else leaf.metadata,
    Function.update leaf.records idx (remote.records idx)⟩

/-- The writes of `segment_write_and_unlock` and `entry_write_and_unlock`: the slots from `l` to `r` get the records of
the view, and the lock word is stored. -/
structure LeafWrite (L : Layout) where
  l : Fin L.leafSpanSize
  r : Fin L.leafSpanSize
  records : Records L
  lock : Valock L

/-- The remote leaf after the writes. -/
def LeafWrite.apply (w : LeafWrite L) (remote : LeafNode L) : LeafNode L :=
  { remote with records := fun s => if inSegment w.l w.r s then w.records s else remote.records s }

/-- "update max_key_idx" of `segment_write_and_unlock`. -/
def hoppedMaxKeyIdx (r : Records L) (hoppedIdxes : List (Fin L.leafSpanSize)) (lock : Valock L) : Valock L :=
  if lock.getMaxKeyIdx ∈ hoppedIdxes.map (·.val) then
    lock.updateMaxKeyIdx (hoppedIdxes.foldl (fun (acc : Nat × Nat) idx =>
      if (r idx).key > acc.1 then ((r idx).key, idx.val) else acc) (kkeyNull, lock.getMaxKeyIdx)).2
  else lock

/-- `get_empty_idxes(l, r)`. -/
def getEmptyIdxes (rs : Records L) (l r : Nat) : List Nat :=
  (List.range' l (r - l)).filter fun i => (rs.getEntry i).key = kkeyNull

/-- `segment_write_and_unlock`. -/
def segmentWriteAndUnlock [Arithmetic] (rs : Records L) (l r : Fin L.leafSpanSize) (hoppedIdxes : List (Fin L.leafSpanSize))
    (lock : Valock L) : Checked (LeafWrite L) := do
  let lock := hoppedMaxKeyIdx rs hoppedIdxes lock
  let emptyIdxes := if l ≤ r then getEmptyIdxes rs l.val (r.val + 1)
    else getEmptyIdxes rs 0 (r.val + 1) ++ getEmptyIdxes rs l.val L.leafSpanSize
  let lock ← lock.updateVacancy l.val r.val emptyIdxes
  return ⟨l, r, rs, lock⟩

/-- `entry_write_and_unlock` of a leaf. -/
def entryWriteAndUnlock (rs : Records L) (idx : Fin L.leafSpanSize) (k v : Nat) (lock : Valock L) : LeafWrite L :=
  ⟨idx, idx, rs.update idx.val k v, lock⟩

/-- The two leaves of `hopscotch_split_and_unlock` with their lock words, and what its parent update needs. -/
structure LeafSplit (L : Layout) where
  isRoot : Bool
  splitKey : Nat
  left : LeafNode L
  leftLock : Valock L
  right : LeafNode L
  rightLock : Valock L

/-- `update_vacancy_bitmap` of `hopscotch_split_and_unlock`. -/
def updateVacancyBitmap [Arithmetic] (rs : Records L) (lock : Valock L) : Checked (Valock L) :=
  lock.updateVacancy 0 (L.leafSpanSize - 1) (getEmptyIdxes rs 0 L.leafSpanSize)

/-- `hopscotch_split_and_unlock` up to its writes; `siblingAddr` is the address allocated for the sibling. -/
def hopscotchSplitAndUnlock [Arithmetic] (leaf : LeafNode L) (k v : Nat) (lock : Valock L)
    (siblingAddr : GlobalAddress) : Checked (LeafSplit L) := do
  let splitKey ← hopscotchGetSplitKey leaf.records k
  let (records, siblingRecords) ← moveData splitKey leaf.records LeafNode.empty.records
  let (records, siblingRecords) ←
    if k < splitKey then do
      let (records, _) ← hopscotchInsertLocally records k v
      pure (records, siblingRecords)
    else do
      let (siblingRecords, _) ← hopscotchInsertLocally siblingRecords k v
      pure (records, siblingRecords)
  let maxKey := (records records.getMaxKeyIdx).key
  let lock := lock.updateMaxKeyIdx records.getMaxKeyIdx.val
  let siblingLock := Valock.mk' 0 siblingRecords.getMaxKeyIdx.val
  let lock ← updateVacancyBitmap records lock
  let siblingLock ← updateVacancyBitmap siblingRecords siblingLock
  return {
    isRoot := leaf.isRoot
    splitKey := L.keySucc maxKey
    left := ⟨⟨true, siblingAddr⟩, records⟩
    leftLock := lock
    right := ⟨⟨true, leaf.siblingPtr⟩, siblingRecords⟩
    rightLock := siblingLock }

/-- How `leaf_node_insert` ends on one leaf. -/
inductive LeafInsert (L : Layout)
  /-- unlock and return false -/
  | invalid
  /-- unlock and insert into the sibling -/
  | turnRight (siblingPtr : GlobalAddress)
  /-- write and unlock -/
  | write (w : LeafWrite L)
  /-- write the sibling, write the leaf and unlock, update the parent -/
  | split (s : LeafSplit L)

/-- The entries that `leaf_node_insert` reads first: `read_entry_num` after the metadata extension. -/
def insertReadNum [Arithmetic] (lock : Valock L) (lIdx : Nat) : Nat :=
  let readEntryNum := lock.getReadEntryNumFromBitmap lIdx
  let rIdx := lIdx + readEntryNum
  if readEntryNum < L.neighborSize ∧ lIdx % L.neighborSize ≠ 0 ∧
    lIdx / L.neighborSize = (rIdx - 1) / L.neighborSize then
    ((rIdx - 1 + L.neighborSize) / L.neighborSize * L.neighborSize + 1) - lIdx
  else readEntryNum

/-- The first read of `leaf_node_insert`. -/
def insertRead (remote : LeafNode L) (lIdx : Fin L.leafSpanSize) (readEntryNum : Nat) : Checked (LeafNode L) :=
  if readEntryNum < L.leafSpanSize then hopscotchSearch remote lIdx readEntryNum LeafNode.zeroed else .ok remote

/-- `check_larger_key(l, r)`. -/
def checkLargerKey (rs : Records L) (k l r : Nat) : Bool :=
  (List.range' l (r - l)).any fun i => (rs.getEntry i).key ≥ k

/-- The turn-right check of `leaf_node_insert`: the view it leaves (`max_key_idx` may have been read) and the split
key. -/
def insertSplitKey (remote leaf : LeafNode L) (lock : Valock L) (k : Nat) (lIdx rIdx : Nat) : LeafNode L × Nat :=
  if leaf.isRoot then (leaf, L.keyFull)
  else
    let hasLargeKey := if lIdx < rIdx then checkLargerKey leaf.records k lIdx rIdx
      else checkLargerKey leaf.records k 0 rIdx || checkLargerKey leaf.records k lIdx L.leafSpanSize
    if hasLargeKey then (leaf, L.keySucc k)
    else
      let maxKeyIdx := lock.getMaxKeyIdx
      let leaf := if (lIdx < rIdx ∧ (maxKeyIdx < lIdx ∨ maxKeyIdx ≥ rIdx)) ∨
          (lIdx ≥ rIdx ∧ maxKeyIdx ≥ rIdx ∧ maxKeyIdx < lIdx)
        then leafEntryRead remote (slot L.leafSpanSize maxKeyIdx) leaf else leaf
      (leaf, L.keySucc (leaf.records.getEntry maxKeyIdx).key)

/-- `leaf_node_insert` from "start insert" on: the view `leaf` holds the `readEntryNum` slots from `lIdx` on. -/
def insertIntoLeaf [Arithmetic] (remote leaf : LeafNode L) (lock : Valock L) (k v : Nat)
    (lIdx : Fin L.leafSpanSize) (readEntryNum : Nat) (siblingAddr : GlobalAddress) : Checked (LeafInsert L) := do
  let rIdx := slot L.leafSpanSize (lIdx.val + readEntryNum : Nat)
  let hasEmpty := ((List.range readEntryNum).any fun i => (leaf.records.getEntry (lIdx.val + i : Nat)).key = kkeyNull)
  Checked.assert .hasEmpty (readEntryNum = L.leafSpanSize ∨ hasEmpty)
  match (List.finRange L.leafSpanSize).find? fun i => (leaf.records i).key = k with
  | some i => return .write (entryWriteAndUnlock leaf.records i k v lock)
  | none =>
    match ← hopscotchInsertAndUnlock leaf.records k v readEntryNum with
    | some (records, lastIdx, hoppedIdxes) =>
      return .write (← segmentWriteAndUnlock records lIdx lastIdx hoppedIdxes lock)
    | none =>
      let leaf ← if readEntryNum < L.leafSpanSize then
        hopscotchSearch remote rIdx (L.leafSpanSize - readEntryNum) leaf else .ok leaf
      return .split (← hopscotchSplitAndUnlock leaf k v lock siblingAddr)

/-- `leaf_node_insert` with the given `read_entry_num`; with `leafSpanSize` it reads the whole leaf. -/
def leafNodeInsertReading [Arithmetic] (remote : LeafNode L) (lock : Valock L) (siblingAddr : GlobalAddress)
    (k v : Nat) (fromCache : Bool) (newAddr : GlobalAddress) (readEntryNum : Nat) : Checked (LeafInsert L) := do
  let lIdx := L.getHashedLeafEntryIndex k
  let rIdx := (lIdx.val + readEntryNum) % L.leafSpanSize
  let leaf ← insertRead remote lIdx readEntryNum
  if ¬leaf.metadata.valid ∨ (fromCache ∧ siblingAddr ≠ leaf.siblingPtr) then return .invalid
  else if siblingAddr ≠ leaf.siblingPtr then
    let (leaf, splitKey) := insertSplitKey remote leaf lock k lIdx.val rIdx
    if k ≥ splitKey then
      Checked.assert .siblingNull (leaf.metadata.siblingPtr ≠ .null)
      return .turnRight leaf.metadata.siblingPtr
    else insertIntoLeaf remote leaf lock k v lIdx readEntryNum newAddr
  else insertIntoLeaf remote leaf lock k v lIdx readEntryNum newAddr

/-- `leaf_node_insert` on a locked leaf whose lock word was `lock`; `newAddr` is the address that is allocated if the
leaf splits. -/
def leafNodeInsert [Arithmetic] (remote : LeafNode L) (lock : Valock L) (siblingAddr : GlobalAddress) (k v : Nat)
    (fromCache : Bool) (newAddr : GlobalAddress) : Checked (LeafInsert L) :=
  leafNodeInsertReading remote lock siblingAddr k v fromCache newAddr
    (insertReadNum lock (L.getHashedLeafEntryIndex k).val)

/-- The slots of a key's neighborhood. -/
def neighborhood (L : Layout) (hashIdx : Fin L.leafSpanSize) : List (Fin L.leafSpanSize) :=
  (List.range L.neighborSize).map fun i => slot L.leafSpanSize (hashIdx.val + i : Nat)

/-- How `leaf_node_update` ends on one leaf. -/
inductive LeafUpdate (L : Layout)
  | invalid
  | turnRight (siblingPtr : GlobalAddress)
  | write (w : LeafWrite L)

/-- `speculative_read`: the view after the read of the slot that the hotspot cache names, if that slot holds `k`. -/
def speculativeRead (remote leaf : LeafNode L) (k : Nat) (speculativeIdx : Option (Fin L.leafSpanSize)) :
    Option (LeafNode L × Fin L.leafSpanSize) :=
  match speculativeIdx with
  | none => none
  | some i => if (remote.records i).key = k then some (leafEntryRead remote i leaf, i) else none

/-- `leaf_node_update` on a locked leaf; `buffer` is what the view held before, `speculativeIdx` the slot that the
hotspot cache names. -/
def leafNodeUpdate (remote buffer : LeafNode L) (lock : Valock L) (siblingAddr : GlobalAddress) (k v : Nat)
    (fromCache : Bool) (speculativeIdx : Option (Fin L.leafSpanSize)) : Checked (LeafUpdate L) := do
  match speculativeRead remote buffer k speculativeIdx with
  | some (leaf, i) => return .write (entryWriteAndUnlock leaf.records i k v lock)
  | none =>
  let hashIdx := L.getHashedLeafEntryIndex k
  let leaf ← hopscotchSearch remote hashIdx L.neighborSize buffer
  if fromCache ∧ (¬leaf.metadata.valid ∨ siblingAddr ≠ leaf.siblingPtr) then return .invalid
  else
    match (neighborhood L hashIdx).find? fun i => (leaf.records i).key = k with
    | some i => return .write (entryWriteAndUnlock leaf.records i k v lock)
    | none =>
      if siblingAddr ≠ leaf.siblingPtr then
        Checked.assert .siblingNull (leaf.siblingPtr ≠ .null)
        return .turnRight leaf.siblingPtr
      else .error .keyMissing

/-- What the scan of a neighborhood in `leaf_node_search` concludes. -/
inductive Scan
  | found (v : Nat)
  | retry
  | absent
  deriving DecidableEq, Repr

/-- The loop "check hopping consistency && search key from the segments": the value if the key is met, else the bitmap
computed from the keys. -/
def scanLoop (r : Records L) (hashIdx : Fin L.leafSpanSize) (k : Nat) : List Nat → BitVec L.neighborSize →
    Nat ⊕ BitVec L.neighborSize
  | [], hopBitmap => .inr hopBitmap
  | i :: rest, hopBitmap =>
    let e := r.getEntry (hashIdx.val + i : Nat)
    if e.key ≠ kkeyNull ∧ L.getHashedLeafEntryIndex e.key = hashIdx then
      if e.key = k then .inl e.value
      else scanLoop r hashIdx k rest (hopBitmap ||| BitVec.twoPow _ (L.neighborSize - i - 1))
    else scanLoop r hashIdx k rest hopBitmap

/-- The scan of `leaf_node_search` over the neighborhood of `k`. -/
def scan (r : Records L) (k : Nat) : Scan :=
  let hashIdx := L.getHashedLeafEntryIndex k
  match scanLoop r hashIdx k (List.range L.neighborSize) 0 with
  | .inl v => .found v
  | .inr hopBitmap => if hopBitmap ≠ (r hashIdx).hopBitmap then .retry else .absent

/-- How `leaf_node_search` ends on one leaf. -/
inductive LeafSearch
  | invalid
  | reRead
  | turnRight (siblingPtr : GlobalAddress)
  /-- return, with the value read -/
  | done (v : Nat)
  deriving DecidableEq, Repr

/-- One round of `leaf_node_search`, with the arguments of `leafNodeUpdate`. -/
def leafNodeSearch (remote buffer : LeafNode L) (siblingAddr : GlobalAddress) (k : Nat) (fromCache : Bool)
    (speculativeIdx : Option (Fin L.leafSpanSize)) : Checked LeafSearch := do
  match speculativeRead remote buffer k speculativeIdx with
  | some (leaf, i) => return .done (leaf.records i).value
  | none =>
  let hashIdx := L.getHashedLeafEntryIndex k
  let leaf ← hopscotchSearch remote hashIdx L.neighborSize buffer
  if fromCache ∧ (¬leaf.metadata.valid ∨ siblingAddr ≠ leaf.siblingPtr) then return .invalid
  else
    match scan leaf.records k with
    | .found v => return .done v
    | .retry => return .reRead
    | .absent =>
      if siblingAddr ≠ leaf.siblingPtr then
        Checked.assert .siblingNull (leaf.siblingPtr ≠ .null)
        return .turnRight leaf.siblingPtr
      else return .done kValueNull

/-- The root leaf and its lock word as `Tree::Tree` builds them. -/
def rootLeaf [Arithmetic] (L : Layout) : Checked (LeafNode L × Valock L) := do
  let (records, maxKeyIdx) ← hopscotchInsertLocally (LeafNode.empty (L := L)).records L.ghostKey kValueNull
  let lock ← (Valock.mk' 0 maxKeyIdx.val).updateVacancy maxKeyIdx.val maxKeyIdx.val []
  return (⟨⟨true, .widest⟩, records⟩, lock)

end Chime

import Chime.SegmentPatch
import Chime.NodeRoundTrip

/-!
# Staged writes and the slots of their buffers (`RdmaBuffer.h`)

A function that releases a node encodes it into buffers that it takes from rings of fixed slots, and hands ranges of
them to the transport. `Staging` gives the buffers of a function, their bytes after it from those before, and the
ranges. It fits if no byte behind a slot is written, and no range reaches behind one.

Three functions need more than their slots have, each for some layouts: the write of the last entry of a node, which
puts the lock word behind it; the write of an internal node, whose buffer is one for leaves; the split of a leaf, which
sets the versions of the records that a last group does not have (`staged_writes_fit_iff`).
-/

namespace Chime

open Memory Frame PackedVersion

/-! ## The layout -/

/-- The constants of `Common.h` that the sizes of nodes and of buffers depend on. -/
structure BufferLayout where
  keyLen : Nat
  inlineValLen : Nat
  leafSpanSize : Nat
  internalSpanSize : Nat
  neighborSize : Nat
  /-- `SIBLING_BASED_VALIDATION`. -/
  siblingBasedValidation : Bool
  /-- `SPLIT_WRITE_UNLATCH`. -/
  splitWriteUnlatch : Bool
  neighborSize_pos : 0 < neighborSize
  neighborSize_le : neighborSize ≤ leafSpanSize
  internalSpanSize_pos : 0 < internalSpanSize

/-- The rings of `RdmaBuffer`. -/
inductive BufferSlot
  | lock
  | entry
  | segment
  | leaf
  | internal

namespace BufferLayout

variable (C : BufferLayout)

def scatterMetadataSize : Nat := versionSize + 1 + 8 + if C.siblingBasedValidation then 0 else C.keyLen * 2

def leafMetadataSize : Nat := versionSize + 1 * 2 + 8 + C.keyLen * 2

def leafEntrySize : Nat := versionSize + 2 + C.keyLen + C.inlineValLen

def internalMetadataSize : Nat := versionSize + 1 * 2 + 8 * 3 + C.keyLen * 2

def internalEntrySize : Nat := versionSize + C.keyLen + 8

theorem leafEntrySize_ge : 3 ≤ C.leafEntrySize := by
  rw [leafEntrySize, versionSize]
  omega

theorem scatterMetadataSize_ge : 2 ≤ C.scatterMetadataSize := by
  rw [scatterMetadataSize]
  omega

theorem internalMetadataSize_pos : 0 < C.internalMetadataSize := by
  rw [internalMetadataSize]
  omega

theorem internalEntrySize_pos : 0 < C.internalEntrySize := by
  rw [internalEntrySize]
  omega

def leafSizes : LeafSizes where
  leafSpanSize := C.leafSpanSize
  neighborSize := C.neighborSize
  leafEntrySize := C.leafEntrySize
  scatterMetadataSize := C.scatterMetadataSize
  neighborSize_pos := C.neighborSize_pos
  neighborSize_le := C.neighborSize_le
  leafEntrySize_ge := C.leafEntrySize_ge
  scatterMetadataSize_ge := C.scatterMetadataSize_ge

def nodeSizes : NodeSizes where
  headerSize := C.internalMetadataSize
  entrySize := C.internalEntrySize
  spanSize := C.internalSpanSize
  headerSize_pos := C.internalMetadataSize_pos
  entrySize_pos := C.internalEntrySize_pos
  spanSize_pos := C.internalSpanSize_pos

/-- The size of an encoded node, in `transLeafSize`, `transInternalSize` and `logicalTransLeafSize`. -/
def encodedSize (size : Nat) : Nat :=
  if size ≤ cachelineSize then size else cachelineSize + LeafSizes.addCachelineVersionSize (size - cachelineSize)

def allocationLeafSize : Nat := C.leafSizes.transLeafSize + allocationLockSize

def allocationInternalSize : Nat := C.nodeSizes.transSize + allocationLockSize

def logicalLeafSize : Nat :=
  max C.leafSizes.decodedLeafSize (C.leafMetadataSize + C.leafEntrySize * C.leafSpanSize)

def rdmaBufLeafSize : Nat :=
  if C.siblingBasedValidation then encodedSize C.logicalLeafSize + allocationLockSize else C.allocationLeafSize

def bufferEntrySize : Nat :=
  LeafSizes.addCachelineVersionSize (C.scatterMetadataSize + max C.leafEntrySize C.internalEntrySize)

/-- The size of a slot. -/
def slotSize : BufferSlot → Nat
  | .lock => lockSize
  | .entry => C.bufferEntrySize
  | .segment => C.allocationLeafSize
  | .leaf => C.rdmaBufLeafSize
  | .internal => C.allocationInternalSize

theorem standardSpan_pos : 0 < 64 := Nat.succ_pos 63

/-- The default build. -/
def standard : BufferLayout where
  keyLen := 8
  inlineValLen := 8
  leafSpanSize := 64
  internalSpanSize := 64
  neighborSize := 8
  siblingBasedValidation := true
  splitWriteUnlatch := true
  neighborSize_pos := Nat.succ_pos 7
  neighborSize_le := Nat.le_of_ble_eq_true rfl
  internalSpanSize_pos := standardSpan_pos

end BufferLayout

/-! ## The staged writes -/

/-- What a function does to its buffers. -/
structure Staging where
  /-- The rings that the buffers are taken from. -/
  slot : Nat → BufferSlot
  /-- The bytes of the buffers after the function, from those before. -/
  staged : (Nat → Nat → UInt8) → Nat → Nat → UInt8
  /-- The ranges handed to the transport: the first bytes of a buffer. -/
  sources : List (Nat × Nat)

/-- No byte behind a slot is written, whatever the buffers hold, and no range reaches behind a slot. -/
structure Staging.Fits (C : BufferLayout) (s : Staging) : Prop where
  staged : ∀ rbuf i p, C.slotSize (s.slot i) ≤ p → s.staged rbuf i p = rbuf i p
  sources : ∀ x ∈ s.sources, x.2 ≤ C.slotSize (s.slot x.1)

/-- The intermediate buffer of a segment after it is encoded; the entry versions are incremented in it. -/
def LeafSizes.interSegment (S : LeafSizes) (leaf : RawLeaf) (hoppedIdxes : List Nat) (startIdx num : Nat)
    (inter : Nat → UInt8) :
    Nat → UInt8 :=
  let (firstMetadataOffset, _) := MetadataManager.getOffsetInfo S startIdx num
  LeafVersionManager.incrementEntryVersions S hoppedIdxes startIdx (startIdx + num - 1) firstMetadataOffset
    (MetadataManager.encodeSegmentMetadata S (fun x => leaf.records (startIdx * S.leafEntrySize + x)) inter
      firstMetadataOffset num leaf.metadata)

/-- The encoded bytes of a part of a node; the lock word is copied behind those of the last part. -/
def unlockPart (transSize : Nat) (last : Bool) (rawLen : Nat) (encoded lockBuffer : Nat → UInt8) : Nat → UInt8 :=
  if last then copy encoded (rawLen + getLockInfo transSize - transSize) lockBuffer 0 lockSize else encoded

/-- The encoded bytes of a node, with the lock word behind them. -/
def unlockNodeBuffer (transSize : Nat) (splitWriteUnlatch : Bool) (encoded lockBuffer : Nat → UInt8) : Nat → UInt8 :=
  if splitWriteUnlatch then copy encoded (getLockInfo transSize) lockBuffer 0 lockSize else encoded

/-- The ranges of a part of a node in buffer `i` and of the lock word in buffer `0`. -/
def partSources (last : Bool) (rawLen i : Nat) : List (Nat × Nat) :=
  if last then [(i, rawLen + allocationLockSize)] else [(i, rawLen), (0, lockSize)]

namespace BufferLayout

variable (C : BufferLayout)

/-- `entry_write_and_unlock<LeafNode, LeafEntry>`: the lock, the entry, its segment. -/
def leafEntryWrite (leaf : RawLeaf) (idx : Nat) (kv : Nat → UInt8) : Staging where
  slot := fun
    | 0 => .lock
    | 1 => .entry
    | _ => .segment
  staged rbuf := fun
    | 1 =>
      let (_, rawLen, entry) := (leaf.update C.leafSizes idx kv).encodeSegment C.leafSizes [idx] idx 1 (rbuf 2) (rbuf 1)
      unlockPart C.leafSizes.transLeafSize (idx == C.leafSpanSize - 1) rawLen entry (rbuf 0)
    | 2 => C.leafSizes.interSegment (leaf.update C.leafSizes idx kv) [idx] idx 1 (rbuf 2)
    | i => rbuf i
  sources := partSources (idx == C.leafSpanSize - 1) (LeafVersionManager.getOffsetInfo C.leafSizes idx 1).2.1 1

/-- `entry_write_and_unlock<InternalNode, InternalEntry>`: the lock, the entry, the node with the updated entry. -/
def internalEntryWrite (idx : Nat) : Staging where
  slot := fun
    | 0 => .lock
    | 1 => .entry
    | _ => .internal
  staged rbuf := fun
    | 1 =>
      let (_, rawLen, firstOffset) := VersionManager.getOffsetInfo C.nodeSizes idx 1
      unlockPart C.nodeSizes.transSize (idx == C.internalSpanSize - 1) rawLen
        (VersionManager.encodeEntryVersions C.nodeSizes (fun x => rbuf 2 (C.nodeSizes.entryOffset idx + x))
          (rbuf 1) firstOffset)
        (rbuf 0)
    | 2 =>
      let p := C.nodeSizes.entryOffset idx
      Function.update (rbuf 2) p (incrementEntryVersion (rbuf 2 p))
    | i => rbuf i
  sources := partSources (idx == C.internalSpanSize - 1) (VersionManager.getOffsetInfo C.nodeSizes idx 1).2.1 1

/-- `segment_write_and_unlock`: the lock, the encoded segments, the intermediate ones. -/
def segmentWrite (leaf : RawLeaf) (lIdx rIdx : Nat) (hoppedIdxes : List Nat) : Staging where
  slot := fun
    | 0 => .lock
    | _ => .segment
  staged rbuf :=
    if lIdx ≤ rIdx then fun
      | 1 =>
        let (_, rawLen, segment) := leaf.encodeSegment C.leafSizes hoppedIdxes lIdx (rIdx - lIdx + 1) (rbuf 2) (rbuf 1)
        unlockPart C.leafSizes.transLeafSize (rIdx == C.leafSpanSize - 1) rawLen segment (rbuf 0)
      | 2 => C.leafSizes.interSegment leaf hoppedIdxes lIdx (rIdx - lIdx + 1) (rbuf 2)
      | i => rbuf i
    else fun
      | 1 => (leaf.encodeSegment C.leafSizes hoppedIdxes 0 (rIdx + 1) (rbuf 3) (rbuf 1)).2.2
      | 2 =>
        let (_, rawLen, segment) :=
          leaf.encodeSegment C.leafSizes hoppedIdxes lIdx (C.leafSpanSize - lIdx) (rbuf 4) (rbuf 2)
        unlockPart C.leafSizes.transLeafSize true rawLen segment (rbuf 0)
      | 3 => C.leafSizes.interSegment leaf hoppedIdxes 0 (rIdx + 1) (rbuf 3)
      | 4 => C.leafSizes.interSegment leaf hoppedIdxes lIdx (C.leafSpanSize - lIdx) (rbuf 4)
      | i => rbuf i
  sources :=
    if lIdx ≤ rIdx then
      partSources (rIdx == C.leafSpanSize - 1)
        (LeafVersionManager.getOffsetInfo C.leafSizes lIdx (rIdx - lIdx + 1)).2.1 1
    else (1, (LeafVersionManager.getOffsetInfo C.leafSizes 0 (rIdx + 1)).2.1) ::
      partSources true (LeafVersionManager.getOffsetInfo C.leafSizes lIdx (C.leafSpanSize - lIdx)).2.1 2

/-- `node_write_and_unlock<InternalNode, InternalEntry>`: the lock, the encoded node, the node. -/
def nodeWrite : Staging where
  slot := fun
    | 0 => .lock
    | 1 => .leaf
    | _ => .internal
  staged rbuf := fun
    | 1 => unlockNodeBuffer C.nodeSizes.transSize C.splitWriteUnlatch
        (VersionManager.encodeNodeVersions C.nodeSizes (rbuf 2) (rbuf 1)) (rbuf 0)
    | 2 => VersionManager.incrementNodeVersions C.nodeSizes (rbuf 2)
    | i => rbuf i
  sources := partSources C.splitWriteUnlatch C.nodeSizes.transSize 1

/-- The ranges of a new root in buffer `i`. -/
def rootSources (isRoot : Bool) (i : Nat) : List (Nat × Nat) := if isRoot then [(i, C.nodeSizes.transSize)] else []

/-- `node_split_and_unlock<InternalNode, InternalEntry>`: the lock, then the encoded node and the node, of the split
node, of the sibling and of a new root. -/
def nodeSplit (isRoot : Bool) : Staging where
  slot := fun
    | 0 => .lock
    | _ => .internal
  staged rbuf := fun
    | 1 => unlockNodeBuffer C.nodeSizes.transSize C.splitWriteUnlatch
        (VersionManager.encodeNodeVersions C.nodeSizes (rbuf 2) (rbuf 1)) (rbuf 0)
    | 2 => VersionManager.incrementNodeVersions C.nodeSizes (rbuf 2)
    | 3 => VersionManager.encodeNodeVersions C.nodeSizes (rbuf 4) (rbuf 3)
    | 4 => VersionManager.incrementNodeVersions C.nodeSizes (rbuf 4)
    | 5 => if isRoot then VersionManager.encodeNodeVersions C.nodeSizes (rbuf 6) (rbuf 5) else rbuf 5
    | 6 => if isRoot then VersionManager.incrementNodeVersions C.nodeSizes (rbuf 6) else rbuf 6
    | i => rbuf i
  sources := (3, C.nodeSizes.transSize) ::
    (partSources C.splitWriteUnlatch C.nodeSizes.transSize 1 ++ C.rootSources isRoot 5)

/-- `hopscotch_split_and_unlock`: the lock, then the encoded leaf and the scattered leaf, of the split leaf and of the
sibling, the encoded new root and the new root. `siblingLock` is the lock word of the sibling. -/
def hopscotchSplit (leaf sibling : RawLeaf) (siblingLock : Nat → UInt8) (isRoot : Bool) : Staging where
  slot := fun
    | 0 => .lock
    | 1 | 2 | 3 | 4 => .leaf
    | _ => .internal
  staged rbuf := fun
    | 1 => unlockNodeBuffer C.leafSizes.transLeafSize C.splitWriteUnlatch (LeafVersionManager.encodeNodeVersions C.leafSizes
        (MetadataManager.encodeNodeMetadata C.leafSizes leaf (rbuf 2)) (rbuf 1)) (rbuf 0)
    | 2 => LeafVersionManager.incrementNodeVersions C.leafSizes
        (MetadataManager.encodeNodeMetadata C.leafSizes leaf (rbuf 2))
    | 3 => unlockNodeBuffer C.leafSizes.transLeafSize true (LeafVersionManager.encodeNodeVersions C.leafSizes
        (MetadataManager.encodeNodeMetadata C.leafSizes sibling (rbuf 4)) (rbuf 3)) siblingLock
    | 4 => LeafVersionManager.incrementNodeVersions C.leafSizes
        (MetadataManager.encodeNodeMetadata C.leafSizes sibling (rbuf 4))
    | 5 => if isRoot then VersionManager.encodeNodeVersions C.nodeSizes (rbuf 6) (rbuf 5) else rbuf 5
    | 6 => if isRoot then VersionManager.incrementNodeVersions C.nodeSizes (rbuf 6) else rbuf 6
    | i => rbuf i
  sources := partSources true C.leafSizes.transLeafSize 3 ++
    (partSources C.splitWriteUnlatch C.leafSizes.transLeafSize 1 ++ C.rootSources isRoot 5)

end BufferLayout

/-! ## What an encoder writes -/

section Encoders

variable {S : LeafSizes} {leaf : RawLeaf} {hopped : List Nat} {s n p x : Nat} {inter out : Nat → UInt8}

namespace LeafSizes

theorem decodedLeafSize_le : S.decodedLeafSize ≤ S.transLeafSize := by
  rw [transLeafSize_eq]
  exact Nat.le_add_right _ _

/-- The entry versions that are incremented are in the segment. -/
theorem incrementEntryVersions_of_le (hn : 0 < n)
    (hp : start S.groupSize S.scatterMetadataSize (S.sizeL s n * S.leafEntrySize) (n * S.leafEntrySize) ≤ p) :
    LeafVersionManager.incrementEntryVersions S hopped s (s + n - 1) (S.sizeL s n * S.leafEntrySize) inter p =
      inter p := by
  rw [LeafVersionManager.incrementEntryVersions]
  induction hopped generalizing inter with
  | nil => rfl
  | cons idx hopped ih =>
    rw [List.foldl_cons, ih]
    split
    · rename_i hidx
      obtain ⟨q, rfl⟩ := Nat.exists_eq_add_of_le hidx.1
      have hpos := segmentRecordPos_eq (S := S) (s := s) (n := n) (q := q) S.leafEntrySize_pos
      have hlt : q * S.leafEntrySize + 0 < n * S.leafEntrySize :=
        Nat.mul_lt_mul_of_pos_right (by omega) S.leafEntrySize_pos
      have hend := pos_lt_start (b := S.groupSize) (w := S.scatterMetadataSize) (f := S.sizeL s n * S.leafEntrySize) hlt
      refine Function.update_of_ne ?_ _ _
      rw [← segmentRecordPos]
      omega
    · rfl

theorem interSegment_of_le (hn : 0 < n) (h : s + n ≤ S.leafSpanSize) (hp : S.decodedLeafSize ≤ p) :
    S.interSegment leaf hopped s n inter p = inter p := by
  have hadd := decodedOffset_add (S := S) (s := s) (n := n)
  have hle := decodedOffset_le h
  have hfirst : S.sizeL s n * S.leafEntrySize ≤ S.leafEntrySize * n := by
    rw [Nat.mul_comm S.leafEntrySize]
    exact Nat.mul_le_mul_right _ sizeL_le
  simp only [interSegment, metadata_getOffsetInfo]
  rw [incrementEntryVersions_of_le hn (by omega), MetadataManager.encodeSegmentMetadata,
    encode_of_le S.groupSize_pos hfirst]
  rw [Nat.mul_comm S.leafEntrySize]
  omega

/-- The encoded segment has the raw length of `get_offset_info`. -/
theorem encodeSegment_of_le (hx : (LeafVersionManager.getOffsetInfo S s n).2.1 ≤ x) :
    (leaf.encodeSegment S hopped s n inter out).2.2 x = out x := by
  have hadd := decodedOffset_add (S := S) (s := s) (n := n)
  have hle : LeafVersionManager.decodedOffset S s ≤ LeafVersionManager.decodedOffset S (s + n) := by omega
  have hlen : (MetadataManager.getOffsetInfo S s n).2 =
      LeafVersionManager.decodedOffset S (s + n) - LeafVersionManager.decodedOffset S s := by
    rw [metadata_getOffsetInfo]
    omega
  have hstart := slice_start (w := versionSize) (f := S.firstOffset) blockSize_pos hle le_rfl
  rw [getOffsetInfo_eq rfl rfl hle] at hx
  simp only at hx
  simp only [RawLeaf.encodeSegment, getOffsetInfo_eq rfl rfl hle, LeafVersionManager.encodeSegmentVersions, hlen]
  exact encode_of_le blockSize_pos (Nat.min_le_right _ _) (by omega)

theorem rawLen_le (h : s + n ≤ S.leafSpanSize) : (LeafVersionManager.getOffsetInfo S s n).2.1 ≤ S.transLeafSize := by
  have := rawStart_mono (S := S) h
  rw [rawStart_leafSpanSize] at this
  rw [getOffsetInfo_rawStart.2]
  omega

theorem encodeNodeLoop_of_le {i : Nat} (h : i + n ≤ S.leafSpanSize) (hp : S.decodedLeafSize ≤ p) :
    MetadataManager.encodeNodeLoop S leaf n i out p = out p := by
  induction n generalizing i out with
  | zero => rfl
  | succ n ih =>
    have hrecord := recordPos_lt (S := S) (i := i) (x := S.leafEntrySize - 1) (by omega)
        (by have := S.leafEntrySize_pos; omega)
    have hgroup : i / S.neighborSize * S.leafEntryGroupSize + S.scatterMetadataSize ≤ S.recordPos i :=
      Nat.le_add_right _ _
    rw [MetadataManager.encodeNodeLoop, ih (by omega), ← recordPos, copy_of_not (by omega)]
    split
    · rw [metadataOffset, copy_of_not (by omega)]
    · rfl

theorem encodeNodeMetadata_of_le (hp : S.decodedLeafSize ≤ p) :
    MetadataManager.encodeNodeMetadata S leaf out p = out p :=
  encodeNodeLoop_of_le (Nat.zero_add _).le hp

theorem encodeLeafVersions_of_le (hx : S.transLeafSize ≤ x) :
    LeafVersionManager.encodeNodeVersions S inter out x = out x := by
  rw [transLeafSize_eq] at hx
  exact encode_of_le blockSize_pos (Nat.min_le_right _ _) hx

variable (S) in
/-- The offset of the last record of the last group, one that the leaf may not have. -/
def lastRecordOffset : Nat := S.recordOffset (S.entryGroupNum - 1) (S.neighborSize - 1)

theorem lastRecordOffset_mem : S.lastRecordOffset ∈ LeafVersionManager.objects S := by
  have := S.neighborSize_pos
  have := RawLeaf.entryGroupNum_pos (S := S)
  simp only [LeafVersionManager.objects, List.mem_flatMap, List.mem_range, List.mem_cons, List.mem_map]
  exact ⟨S.entryGroupNum - 1, by omega, .inr ⟨S.neighborSize - 1, by omega, rfl⟩⟩

/-- The objects end with this record. -/
theorem le_lastRecordOffset (h : p ∈ LeafVersionManager.objects S) : p ≤ S.lastRecordOffset := by
  simp only [LeafVersionManager.objects, List.mem_flatMap, List.mem_range, List.mem_cons, List.mem_map] at h
  obtain ⟨g, hg, hp⟩ := h
  have hgroup : g * S.leafEntryGroupSize ≤ (S.entryGroupNum - 1) * S.leafEntryGroupSize :=
    Nat.mul_le_mul_right _ (by omega)
  rw [lastRecordOffset, recordOffset]
  rcases hp with rfl | ⟨j, hj, rfl⟩
  · rw [metadataOffset]
    omega
  · have hrecord : j * S.leafEntrySize ≤ (S.neighborSize - 1) * S.leafEntrySize := Nat.mul_le_mul_right _ (by omega)
    rw [recordOffset]
    omega

/-- The versions of all records of all groups are set. -/
theorem incrementNodeVersions_of_lt (hp : S.lastRecordOffset < p) :
    LeafVersionManager.incrementNodeVersions S inter p = inter p := by
  rw [LeafVersionManager.incrementNodeVersions, foldl_setNodeVersion, if_neg]
  intro hmem
  have := le_lastRecordOffset hmem
  omega

/-- A record, with the replica in front of it if it is the first of its group. -/
theorem decodedOffset_succ {i : Nat} :
    LeafVersionManager.decodedOffset S (i + 1) = LeafVersionManager.decodedOffset S i +
    (S.leafEntrySize + if i % S.neighborSize = 0 then S.scatterMetadataSize else 0) := by
  have hend : LeafVersionManager.decodedOffset S (i + 1) = S.recordPos i + S.leafEntrySize := by
    rw [decodedOffset_eq]
    exact start_succ
  rw [hend, LeafVersionManager.decodedOffset, recordPos]
  by_cases h : i % S.neighborSize = 0
  · rw [if_neg (not_not.2 h), if_pos h, h, recordOffset, metadataOffset]
    omega
  · rw [if_pos h, if_neg h, Nat.add_zero]

end LeafSizes

namespace NodeSizes

variable {S : NodeSizes} {node entry : Nat → UInt8} {i : Nat}

theorem encodeNodeVersions_of_le (hx : S.transSize ≤ x) : VersionManager.encodeNodeVersions S node out x = out x := by
  rw [transSize_eq] at hx
  exact encode_of_le blockSize_pos (Nat.min_le_right _ _) hx

theorem incrementNodeVersions_of_le (hp : S.nodeSize ≤ p) : VersionManager.incrementNodeVersions S node p = node p :=
  VersionManager.incrementNodeVersions_of_not_mem fun hmem => by
    have := VersionManager.lt_of_mem_objects hmem
    omega

/-- The encoded entry has the raw length of `get_offset_info`. -/
theorem encodeEntryVersions_of_le (hx : (VersionManager.getOffsetInfo S i 1).2.1 ≤ x) :
    VersionManager.encodeEntryVersions S entry out (VersionManager.getOffsetInfo S i 1).2.2 x = out x := by
  have hlen : S.entryOffset (i + 1) - S.entryOffset i = S.entrySize := by
    rw [entryOffset_add, Nat.one_mul, Nat.add_sub_cancel_left]
  have hstart := slice_start (w := versionSize) (f := S.firstOffset) blockSize_pos
    (entryOffset_le (S := S) (Nat.le_add_right i 1)) le_rfl
  have hfirst : first blockSize S.firstOffset (S.entryOffset i) (S.entryOffset (i + 1)) ≤ S.entrySize :=
    hlen ▸ Nat.min_le_right _ _
  rw [getOffsetInfo_eq] at hx ⊢
  simp only at hx ⊢
  rw [hlen] at hstart
  exact encode_of_le blockSize_pos hfirst (by omega)

end NodeSizes

/-- The lock word is copied into the 16 bytes behind a part of a node. -/
theorem unlockPart_of_le {transSize rawLen : Nat} {last : Bool} {encoded lockBuffer : Nat → UInt8}
    (hx : rawLen + (if last then allocationLockSize else 0) ≤ x) :
    unlockPart transSize last rawLen encoded lockBuffer x = encoded x := by
  have hend : getLockInfo transSize + lockSize ≤ transSize + allocationLockSize := getLockInfo_add_le
  have hle : transSize ≤ getLockInfo transSize := le_getLockInfo
  cases last with
  | false => rfl
  | true =>
    rw [if_pos rfl] at hx
    exact copy_of_not (by omega)

/-- Nothing is written behind an encoded part and its lock word. -/
theorem unlockPart_of_encoded {transSize rawLen : Nat} {last : Bool} {encoded lockBuffer : Nat → UInt8}
    (h : rawLen ≤ x → encoded x = out x) (hx : rawLen + (if last then allocationLockSize else 0) ≤ x) :
    unlockPart transSize last rawLen encoded lockBuffer x = out x :=
  (unlockPart_of_le hx).trans (h (by omega))

theorem unlockNodeBuffer_eq {transSize : Nat} {splitWriteUnlatch : Bool} {encoded lockBuffer : Nat → UInt8} :
    unlockNodeBuffer transSize splitWriteUnlatch encoded lockBuffer =
      unlockPart transSize splitWriteUnlatch transSize encoded lockBuffer := by
  rw [unlockNodeBuffer, unlockPart, Nat.add_sub_cancel_left]

end Encoders

/-! ## The room in the slots -/

namespace BufferLayout

variable (C : BufferLayout)

/-- The last entry of a leaf, with the replica in front of it if it is the first of its group. -/
def lastLeafEntrySize : Nat :=
  C.leafEntrySize + if (C.leafSpanSize - 1) % C.neighborSize = 0 then C.scatterMetadataSize else 0

/-- The last part of an encoded node and the 16 bytes behind it fit into a slot for an entry. -/
def LastEntryFits (size lastSize : Nat) : Prop :=
  encodedSize size + allocationLockSize ≤ encodedSize (size - lastSize) + C.bufferEntrySize

variable {C}

theorem encodedSize_eq {f p : Nat} (h : min cachelineSize p ≤ f) (hf : f ≤ cachelineSize) :
    encodedSize p = start blockSize versionSize f p := by
  rw [encodedSize, LeafSizes.trans_eq]
  rcases Nat.lt_or_ge cachelineSize p with hlt | hle
  · rw [Nat.min_eq_left hlt.le] at h ⊢
    rw [Nat.le_antisymm hf h]
  · rw [Nat.min_eq_right hle] at h ⊢
    rw [start_of_le blockSize_pos le_rfl, start_of_le blockSize_pos h]

theorem encodedSize_mono {p q : Nat} (h : p ≤ q) : encodedSize p ≤ encodedSize q := by
  rw [encodedSize_eq (Nat.min_le_left _ _) le_rfl, encodedSize_eq (Nat.min_le_left _ _) le_rfl]
  exact start_mono h

theorem allocationLeafSize_le : C.allocationLeafSize ≤ C.rdmaBufLeafSize := by
  rw [rdmaBufLeafSize]
  split
  · exact Nat.add_le_add_right (encodedSize_mono (Nat.le_max_left _ _)) _
  · exact le_rfl

/-- A slice has at most the version bytes that `ADD_CACHELINE_VERSION_SIZE` counts. -/
theorem start_le_addCachelineVersionSize {f p q : Nat} (h : p ≤ q) :
    start blockSize versionSize f p ≤ LeafSizes.addCachelineVersionSize q := by
  have hadd : LeafSizes.addCachelineVersionSize q = start blockSize versionSize 0 q := by
    have h := ceilDiv_eq (a := q) (b := 63) (by decide)
    rw [LeafSizes.addCachelineVersionSize, start, marks, h]
    simp only [blockSize, cachelineSize, versionSize]
    omega
  have hmarks : marks blockSize f p ≤ marks blockSize 0 p := Nat.div_le_div_right (by omega)
  rw [hadd]
  refine le_trans ?_ (start_mono h)
  exact Nat.add_le_add_left (Nat.mul_le_mul_left _ hmarks) _

/-! ### Entries -/

section Entries

variable {idx : Nat}

theorem rawLen_leafEntry_le :
    (LeafVersionManager.getOffsetInfo C.leafSizes idx 1).2.1 ≤ C.bufferEntrySize := by
  have hle : LeafVersionManager.decodedOffset C.leafSizes idx ≤
      LeafVersionManager.decodedOffset C.leafSizes (idx + 1) := by
    rw [LeafSizes.decodedOffset_succ]
    omega
  have hstart := slice_start (w := versionSize) (f := C.leafSizes.firstOffset) blockSize_pos hle le_rfl
  have hsize : LeafVersionManager.decodedOffset C.leafSizes (idx + 1) - LeafVersionManager.decodedOffset C.leafSizes idx ≤
      C.scatterMetadataSize + max C.leafEntrySize C.internalEntrySize := by
    have hmax := Nat.le_max_left C.leafEntrySize C.internalEntrySize
    have hentry : C.leafSizes.leafEntrySize = C.leafEntrySize := rfl
    have hmeta : C.leafSizes.scatterMetadataSize = C.scatterMetadataSize := rfl
    rw [LeafSizes.decodedOffset_succ, Nat.add_sub_cancel_left]
    split <;> omega
  rw [LeafSizes.getOffsetInfo_eq rfl rfl hle, hstart, Nat.add_sub_cancel_left]
  exact start_le_addCachelineVersionSize hsize

/-- The last entry of a leaf, in front of the lock. -/
theorem rawLen_lastLeafEntry : (LeafVersionManager.getOffsetInfo C.leafSizes (C.leafSpanSize - 1) 1).2.1 +
    encodedSize (C.leafSizes.decodedLeafSize - C.lastLeafEntrySize) = encodedSize C.leafSizes.decodedLeafSize := by
  have hpos := C.leafSizes.leafSpanSize_pos
  have hspan : C.leafSpanSize - 1 + 1 = C.leafSizes.leafSpanSize := Nat.sub_add_cancel hpos
  have hlast : LeafVersionManager.decodedOffset C.leafSizes (C.leafSpanSize - 1) =
      C.leafSizes.decodedLeafSize - C.lastLeafEntrySize := by
    have hsucc := LeafSizes.decodedOffset_succ (S := C.leafSizes) (i := C.leafSpanSize - 1)
    rw [hspan, LeafSizes.decodedOffset_leafSpanSize] at hsucc
    rw [hsucc, lastLeafEntrySize]
    exact (Nat.add_sub_cancel ..).symm
  have hfirst : C.leafSizes.firstOffset = min cachelineSize C.leafSizes.decodedLeafSize := rfl
  have hend : encodedSize C.leafSizes.decodedLeafSize = C.leafSizes.rawStart C.leafSizes.leafSpanSize := by
    rw [LeafSizes.rawStart_leafSpanSize]
    rfl
  have hbegin : encodedSize (C.leafSizes.decodedLeafSize - C.lastLeafEntrySize) =
      C.leafSizes.rawStart (C.leafSpanSize - 1) := by
    rw [LeafSizes.rawStart, hlast]
    exact encodedSize_eq (by omega) (by omega)
  have hmono := LeafSizes.rawStart_mono (S := C.leafSizes) (Nat.le_succ (C.leafSpanSize - 1))
  rw [LeafSizes.getOffsetInfo_rawStart.2, hend, hbegin]
  rw [Nat.succ_eq_add_one] at hmono
  rw [hspan] at hmono ⊢
  omega

theorem rawLen_internalEntry_le :
    (VersionManager.getOffsetInfo C.nodeSizes idx 1).2.1 ≤ C.bufferEntrySize := by
  have hle := NodeSizes.entryOffset_le (S := C.nodeSizes) (Nat.le_add_right idx 1)
  have hstart := slice_start (w := versionSize) (f := C.nodeSizes.firstOffset) blockSize_pos hle le_rfl
  have hsize : C.nodeSizes.entryOffset (idx + 1) - C.nodeSizes.entryOffset idx ≤
      C.scatterMetadataSize + max C.leafEntrySize C.internalEntrySize := by
    have hmax := Nat.le_max_right C.leafEntrySize C.internalEntrySize
    have hentry : C.nodeSizes.entrySize = C.internalEntrySize := rfl
    rw [NodeSizes.entryOffset_add]
    omega
  rw [NodeSizes.getOffsetInfo_eq, hstart, Nat.add_sub_cancel_left]
  exact start_le_addCachelineVersionSize hsize

/-- The last entry of an internal node, in front of the lock. -/
theorem rawLen_lastInternalEntry : (VersionManager.getOffsetInfo C.nodeSizes (C.internalSpanSize - 1) 1).2.1 +
    encodedSize (C.nodeSizes.nodeSize - C.internalEntrySize) = encodedSize C.nodeSizes.nodeSize := by
  have hspan : C.internalSpanSize - 1 + 1 = C.nodeSizes.spanSize := Nat.sub_add_cancel C.internalSpanSize_pos
  have hlast : C.nodeSizes.entryOffset (C.internalSpanSize - 1) = C.nodeSizes.nodeSize - C.internalEntrySize := by
    have hadd := NodeSizes.entryOffset_add (S := C.nodeSizes) (s := C.internalSpanSize - 1) (n := 1)
    rw [hspan, Nat.one_mul] at hadd
    rw [NodeSizes.nodeSize, hadd]
    exact (Nat.add_sub_cancel ..).symm
  have hfirst : C.nodeSizes.firstOffset = min cachelineSize C.nodeSizes.nodeSize := rfl
  have hend : encodedSize C.nodeSizes.nodeSize =
      start blockSize versionSize C.nodeSizes.firstOffset C.nodeSizes.nodeSize :=
    encodedSize_eq (by omega) (by omega)
  have hbegin : encodedSize (C.nodeSizes.nodeSize - C.internalEntrySize) =
      start blockSize versionSize C.nodeSizes.firstOffset (C.nodeSizes.nodeSize - C.internalEntrySize) :=
    encodedSize_eq (by omega) (by omega)
  have hmono : start blockSize versionSize C.nodeSizes.firstOffset (C.nodeSizes.nodeSize - C.internalEntrySize) ≤
      start blockSize versionSize C.nodeSizes.firstOffset C.nodeSizes.nodeSize := start_mono (Nat.sub_le _ _)
  rw [NodeSizes.getOffsetInfo_eq, hspan, hlast, hend, hbegin]
  change start _ _ _ C.nodeSizes.nodeSize - _ + _ = _
  omega

end Entries

/-! ### The functions -/

section Functions

variable {leaf sibling : RawLeaf} {idx l r rawLen i : Nat} {kv siblingLock : Nat → UInt8} {hopped : List Nat}
  {last isRoot : Bool}

theorem partSources_fit (slot : Nat → BufferSlot) (hlock : slot 0 = .lock) :
    (∀ x ∈ partSources last rawLen i, x.2 ≤ C.slotSize (slot x.1)) ↔
      rawLen + (if last then allocationLockSize else 0) ≤ C.slotSize (slot i) := by
  cases last with
  | true => simp [partSources]
  | false => simp [partSources, hlock, slotSize]

theorem slotSize_segment : C.leafSizes.transLeafSize + allocationLockSize ≤ C.slotSize .segment := le_rfl

theorem slotSize_leaf : C.leafSizes.transLeafSize + allocationLockSize ≤ C.slotSize .leaf := allocationLeafSize_le

theorem slotSize_internal : C.nodeSizes.transSize + allocationLockSize ≤ C.slotSize .internal := le_rfl

theorem ite_allocationLockSize_le (last : Bool) : (if last then allocationLockSize else 0) ≤ allocationLockSize := by
  cases last <;> simp

/-- The room for an entry: behind the last one also for the lock. -/
theorem entryRoom_iff {span rawLen size entrySize : Nat} (hle : rawLen ≤ C.bufferEntrySize)
    (hsize : idx = span - 1 → rawLen + encodedSize (size - entrySize) = encodedSize size) :
    rawLen + (if idx == span - 1 then allocationLockSize else 0) ≤ C.bufferEntrySize ↔
      (idx = span - 1 → C.LastEntryFits size entrySize) := by
  by_cases hlast : idx = span - 1
  · have := hsize hlast
    rw [forall_prop_of_true hlast, LastEntryFits, if_pos (beq_iff_eq.2 hlast)]
    omega
  · simp [hlast, hle]

/-- The write of an entry of a leaf. -/
theorem leafEntryWrite_fits_iff (hidx : idx < C.leafSpanSize) : (C.leafEntryWrite leaf idx kv).Fits C ↔
    (idx = C.leafSpanSize - 1 → C.LastEntryFits C.leafSizes.decodedLeafSize C.lastLeafEntrySize) := by
  have hroom : (∀ x ∈ (C.leafEntryWrite leaf idx kv).sources, x.2 ≤ C.slotSize ((C.leafEntryWrite leaf idx kv).slot x.1)) ↔ _ :=
    partSources_fit _ rfl
  have hiff := hroom.trans (entryRoom_iff rawLen_leafEntry_le fun hlast => hlast ▸ rawLen_lastLeafEntry)
  refine ⟨fun h => hiff.1 h.sources, fun h => ⟨fun rbuf i p hp => ?_, hiff.2 h⟩⟩
  have hentry := hroom.1 (hiff.2 h)
  rcases i with _ | _ | _ | i
  · rfl
  · have hp' : C.bufferEntrySize ≤ p := hp
    exact unlockPart_of_encoded LeafSizes.encodeSegment_of_le (hentry.trans hp')
  · have hp' : C.slotSize .segment ≤ p := hp
    have := slotSize_segment (C := C)
    have := C.leafSizes.decodedLeafSize_le
    exact LeafSizes.interSegment_of_le Nat.one_pos (show idx + 1 ≤ C.leafSizes.leafSpanSize from hidx) (by omega)
  · rfl

/-- The write of an entry of an internal node. -/
theorem internalEntryWrite_fits_iff (hidx : idx < C.internalSpanSize) : (C.internalEntryWrite idx).Fits C ↔
    (idx = C.internalSpanSize - 1 → C.LastEntryFits C.nodeSizes.nodeSize C.internalEntrySize) := by
  have hroom : (∀ x ∈ (C.internalEntryWrite idx).sources, x.2 ≤ C.slotSize ((C.internalEntryWrite idx).slot x.1)) ↔ _ :=
    partSources_fit _ rfl
  have hiff := hroom.trans (entryRoom_iff rawLen_internalEntry_le fun hlast => hlast ▸ rawLen_lastInternalEntry)
  refine ⟨fun h => hiff.1 h.sources, fun h => ⟨fun rbuf i p hp => ?_, hiff.2 h⟩⟩
  have hentry := hroom.1 (hiff.2 h)
  rcases i with _ | _ | _ | i
  · rfl
  · have hp' : C.bufferEntrySize ≤ p := hp
    exact unlockPart_of_encoded NodeSizes.encodeEntryVersions_of_le (hentry.trans hp')
  · have hp' : C.slotSize .internal ≤ p := hp
    have := slotSize_internal (C := C)
    have := C.nodeSizes.nodeSize_le
    have := NodeSizes.entryOffset_lt (S := C.nodeSizes) hidx
    exact Function.update_of_ne (by omega) _ _
  · rfl

/-- The write of a segment. -/
theorem segmentWrite_fits (hl : l < C.leafSpanSize) (hr : r < C.leafSpanSize) :
    (C.segmentWrite leaf l r hopped).Fits C := by
  have hslot := slotSize_segment (C := C)
  have hdecoded := C.leafSizes.decodedLeafSize_le
  -- the room for the encoded bytes of a part, and for its intermediate buffer
  have hpart (last : Bool) {s n : Nat} (h : s + n ≤ C.leafSpanSize) :
      (LeafVersionManager.getOffsetInfo C.leafSizes s n).2.1 + (if last then allocationLockSize else 0) ≤
        C.slotSize .segment := by
    have := LeafSizes.rawLen_le (S := C.leafSizes) h
    have := ite_allocationLockSize_le last
    omega
  have hencoded (last : Bool) {s n p : Nat} {inter out lockBuffer : Nat → UInt8} (h : s + n ≤ C.leafSpanSize)
      (hp : C.slotSize .segment ≤ p) : unlockPart C.leafSizes.transLeafSize last
        (LeafVersionManager.getOffsetInfo C.leafSizes s n).2.1
        (leaf.encodeSegment C.leafSizes hopped s n inter out).2.2 lockBuffer p = out p :=
    unlockPart_of_encoded LeafSizes.encodeSegment_of_le ((hpart last h).trans hp)
  have hinter {s n p : Nat} {inter : Nat → UInt8} (hn : 0 < n) (h : s + n ≤ C.leafSpanSize)
      (hp : C.slotSize .segment ≤ p) : C.leafSizes.interSegment leaf hopped s n inter p = inter p :=
    LeafSizes.interSegment_of_le hn h (by omega)
  by_cases hle : l ≤ r
  · have hall : l + (r - l + 1) ≤ C.leafSpanSize := by omega
    constructor
    · intro rbuf i p hp
      simp only [segmentWrite, if_pos hle]
      rcases i with _ | _ | _ | i
      · rfl
      · exact hencoded _ hall hp
      · exact hinter (Nat.succ_pos _) hall hp
      · rfl
    · simp only [segmentWrite, if_pos hle]
      exact (partSources_fit (C.segmentWrite leaf l r hopped).slot rfl).2 (hpart _ hall)
  · have hfront : 0 + (r + 1) ≤ C.leafSpanSize := by omega
    have hback : l + (C.leafSpanSize - l) ≤ C.leafSpanSize := by omega
    constructor
    · intro rbuf i p hp
      simp only [segmentWrite, if_neg hle]
      rcases i with _ | _ | _ | _ | _ | i
      · rfl
      · exact LeafSizes.encodeSegment_of_le ((hpart false hfront).trans hp)
      · exact hencoded true hback hp
      · exact hinter (Nat.succ_pos _) hfront hp
      · exact hinter (by omega) hback hp
      · rfl
    · simp only [segmentWrite, if_neg hle]
      intro x hx
      rcases List.mem_cons.1 hx with rfl | hx
      · exact hpart false hfront
      · exact (partSources_fit (C.segmentWrite leaf l r hopped).slot rfl).2 (hpart true hback) x hx

/-- An encoded internal node in a buffer that has room for it. -/
theorem encodedNode_of_le {node out lockBuffer : Nat → UInt8} {p : Nat}
    (hp : C.nodeSizes.transSize + (if last then allocationLockSize else 0) ≤ p) :
    unlockNodeBuffer C.nodeSizes.transSize last (VersionManager.encodeNodeVersions C.nodeSizes node out) lockBuffer p =
      out p := by
  rw [unlockNodeBuffer_eq]
  exact unlockPart_of_encoded NodeSizes.encodeNodeVersions_of_le hp

/-- An internal node whose versions are incremented in its buffer. -/
theorem internalNode_of_le {node : Nat → UInt8} {p : Nat} (hp : C.slotSize .internal ≤ p) :
    VersionManager.incrementNodeVersions C.nodeSizes node p = node p := by
  have := slotSize_internal (C := C)
  have := C.nodeSizes.nodeSize_le
  exact NodeSizes.incrementNodeVersions_of_le (by omega)

theorem transSize_le (last : Bool) :
    C.nodeSizes.transSize + (if last then allocationLockSize else 0) ≤ C.slotSize .internal := by
  have := slotSize_internal (C := C)
  have := ite_allocationLockSize_le last
  omega

/-- A new root. -/
theorem encodedRoot_of_le {node out : Nat → UInt8} {p : Nat} (hp : C.slotSize .internal ≤ p) :
    (if isRoot then VersionManager.encodeNodeVersions C.nodeSizes node out else out) p = out p := by
  cases isRoot with
  | false => rfl
  | true => exact NodeSizes.encodeNodeVersions_of_le ((transSize_le false).trans hp)

theorem newRoot_of_le {node : Nat → UInt8} {p : Nat} (hp : C.slotSize .internal ≤ p) :
    (if isRoot then VersionManager.incrementNodeVersions C.nodeSizes node else node) p = node p := by
  cases isRoot with
  | false => rfl
  | true => exact internalNode_of_le hp

theorem rootSources_fit {x : Nat × Nat} {slot : BufferSlot} (hslot : slot = .internal)
    (hx : x ∈ C.rootSources isRoot i) :
    x.2 ≤ C.slotSize slot := by
  subst hslot
  cases isRoot with
  | false => cases hx
  | true =>
    obtain rfl := List.mem_singleton.1 hx
    exact transSize_le false

/-- The write of an internal node. -/
theorem nodeWrite_fits_iff : C.nodeWrite.Fits C ↔
    C.nodeSizes.transSize + (if C.splitWriteUnlatch then allocationLockSize else 0) ≤ C.rdmaBufLeafSize := by
  refine ⟨fun h => (partSources_fit C.nodeWrite.slot rfl).1 h.sources, fun h => ⟨fun rbuf i p hp => ?_,
    (partSources_fit C.nodeWrite.slot rfl).2 h⟩⟩
  rcases i with _ | _ | _ | i
  · rfl
  · exact encodedNode_of_le (h.trans hp)
  · exact internalNode_of_le hp
  · rfl

/-- The split of an internal node. -/
theorem nodeSplit_fits : (C.nodeSplit isRoot).Fits C := by
  constructor
  · intro rbuf i p hp
    rcases i with _ | _ | _ | _ | _ | _ | _ | i
    · rfl
    · exact encodedNode_of_le ((transSize_le _).trans hp)
    · exact internalNode_of_le hp
    · exact NodeSizes.encodeNodeVersions_of_le ((transSize_le false).trans hp)
    · exact internalNode_of_le hp
    · exact encodedRoot_of_le hp
    · exact newRoot_of_le hp
    · rfl
  · intro x hx
    rcases List.mem_cons.1 hx with rfl | hx
    · exact transSize_le false
    rcases List.mem_append.1 hx with hx | hx
    · exact (partSources_fit (C.nodeSplit isRoot).slot rfl).2 (transSize_le _) x hx
    · refine rootSources_fit ?_ hx
      cases isRoot with
      | false => cases hx
      | true =>
        obtain rfl := List.mem_singleton.1 hx
        rfl

/-- The version of the last record of the last group is changed in the intermediate buffer, for some content. -/
theorem lastRecord_written (leaf : RawLeaf) :
    ∃ inter, LeafVersionManager.incrementNodeVersions C.leafSizes
      (MetadataManager.encodeNodeMetadata C.leafSizes leaf inter) C.leafSizes.lastRecordOffset ≠
        inter C.leafSizes.lastRecordOffset := by
  by_contra hall
  simp only [not_exists, not_not] at hall
  have hversion : ∀ inter : Nat → UInt8, nodeVersion (inter C.leafSizes.lastRecordOffset) =
      (nodeVersion leaf.metadata.hVersion + 1) % 16 := by
    intro inter
    have hzero : MetadataManager.encodeNodeMetadata C.leafSizes leaf inter 0 = leaf.metadata.hVersion := by
      have hlt := LeafSizes.metadataOffset_lt (S := C.leafSizes)
        RawLeaf.entryGroupNum_pos C.leafSizes.scatterMetadataSize_pos
      have hs := RawLeaf.scattered_metadata leaf (g := 0) C.leafSizes.scatterMetadataSize_pos
      rw [LeafSizes.metadataOffset, Nat.zero_mul, Nat.add_zero] at hlt hs
      rw [encodeNodeMetadata_apply hlt, hs]
      rfl
    rw [← hall inter, LeafVersionManager.incrementNodeVersions, foldl_setNodeVersion,
      if_pos LeafSizes.lastRecordOffset_mem, nodeVersion_setNodeVersion, LeafVersionManager.nodeVersionAt, hzero]
  have h0 := hversion fun _ => pack 0 0
  have h1 := hversion fun _ => pack 1 0
  rw [nodeVersion_pack] at h0 h1
  omega

/-- The split of a leaf. -/
theorem hopscotchSplit_fits_iff : (C.hopscotchSplit leaf sibling siblingLock isRoot).Fits C ↔
    C.leafSizes.lastRecordOffset < C.rdmaBufLeafSize := by
  have hslot := slotSize_leaf (C := C)
  have hdecoded := C.leafSizes.decodedLeafSize_le
  have hpart (last : Bool) :
      C.leafSizes.transLeafSize + (if last then allocationLockSize else 0) ≤ C.slotSize .leaf := by
    have := ite_allocationLockSize_le last
    omega
  constructor
  · intro h
    by_contra hle
    have hle' : C.slotSize .leaf ≤ C.leafSizes.lastRecordOffset := not_lt.1 hle
    obtain ⟨inter, hne⟩ := lastRecord_written (C := C) leaf
    exact hne (h.staged (fun _ => inter) 2 _ hle')
  · intro h
    have hencoded (last : Bool) {leaf : RawLeaf} {inter out lockBuffer : Nat → UInt8} {p : Nat}
      (hp : C.slotSize .leaf ≤ p) :
        unlockNodeBuffer C.leafSizes.transLeafSize last (LeafVersionManager.encodeNodeVersions C.leafSizes
          (MetadataManager.encodeNodeMetadata C.leafSizes leaf inter) out) lockBuffer p = out p := by
      rw [unlockNodeBuffer_eq]
      exact unlockPart_of_encoded LeafSizes.encodeLeafVersions_of_le ((hpart last).trans hp)
    have hinter {leaf : RawLeaf} {inter : Nat → UInt8} {p : Nat} (hp : C.slotSize .leaf ≤ p) :
        LeafVersionManager.incrementNodeVersions C.leafSizes
          (MetadataManager.encodeNodeMetadata C.leafSizes leaf inter) p = inter p := by
      rw [LeafSizes.incrementNodeVersions_of_lt (h.trans_le hp), LeafSizes.encodeNodeMetadata_of_le (by omega)]
    constructor
    · intro rbuf i p hp
      rcases i with _ | _ | _ | _ | _ | _ | _ | i
      · rfl
      · exact hencoded _ hp
      · exact hinter hp
      · exact hencoded true hp
      · exact hinter hp
      · exact encodedRoot_of_le hp
      · exact newRoot_of_le hp
      · rfl
    · intro x hx
      rcases List.mem_append.1 hx with hx | hx
      · exact (partSources_fit (C.hopscotchSplit leaf sibling siblingLock isRoot).slot rfl).2 (hpart _) x hx
      rcases List.mem_append.1 hx with hx | hx
      · exact (partSources_fit (C.hopscotchSplit leaf sibling siblingLock isRoot).slot rfl).2 (hpart _) x hx
      · refine rootSources_fit ?_ hx
        cases isRoot with
        | false => cases hx
        | true =>
          obtain rfl := List.mem_singleton.1 hx
          rfl

end Functions

end BufferLayout

/-! ### The regions -/

/-- The bytes and the sizes of ranges of the buffers. -/
def Staging.handed (s : Staging) (rbuf : Nat → Nat → UInt8) (sources : List (Nat × Nat)) : List ((Nat → UInt8) × Nat) :=
  sources.map fun x => (s.staged rbuf x.1, x.2)

namespace BufferLayout

variable {C : BufferLayout} {leaf sibling : RawLeaf} {idx l r : Nat} {kv siblingLock : Nat → UInt8} {hopped : List Nat}
  {isRoot : Bool} (rbuf : Nat → Nat → UInt8)

/-- The ranges handed to the transport are the regions of the write. -/
theorem leafEntryWrite_regions :
    (leaf.entryWriteAndUnlock C.leafSizes idx kv (rbuf 0) fun i => rbuf (i + 1)).map (fun r => (r.source, r.size)) =
      (C.leafEntryWrite leaf idx kv).handed rbuf (C.leafEntryWrite leaf idx kv).sources := by
  simp only [RawLeaf.entryWriteAndUnlock, Staging.handed, leafEntryWrite, partRegions, partSources, unlockPart]
  change List.map _ (if (idx == C.leafSpanSize - 1) = true then _ else _) = _
  split <;> rfl

theorem internalEntryWrite_regions :
    (C.nodeSizes.entryWriteAndUnlock (fun x => rbuf 2 (C.nodeSizes.entryOffset idx + x)) idx (rbuf 0)
      fun i => rbuf (i + 1)).map (fun r => (r.source, r.size)) =
      (C.internalEntryWrite idx).handed rbuf (C.internalEntryWrite idx).sources := by
  simp only [NodeSizes.entryWriteAndUnlock, Staging.handed, internalEntryWrite, partRegions, partSources, unlockPart]
  change List.map _ (if (idx == C.internalSpanSize - 1) = true then _ else _) = _
  split <;> rfl

theorem segmentWrite_regions :
    (leaf.segmentWriteAndUnlock C.leafSizes l r hopped (rbuf 0) fun i => rbuf (i + 1)).map
    (fun r => (r.source, r.size)) =
      (C.segmentWrite leaf l r hopped).handed rbuf (C.segmentWrite leaf l r hopped).sources := by
  simp only [RawLeaf.segmentWriteAndUnlock, Staging.handed, segmentWrite, partRegions, partSources, unlockPart]
  split
  · change List.map _ (if (r == C.leafSpanSize - 1) = true then _ else _) = _
    split <;> rfl
  · rfl

theorem nodeWrite_regions :
    (C.nodeSizes.nodeWriteAndUnlock C.splitWriteUnlatch (rbuf 2) (rbuf 0) fun i => rbuf (i + 1)).map
      (fun r => (r.source, r.size)) = C.nodeWrite.handed rbuf C.nodeWrite.sources := by
  simp only [NodeSizes.nodeWriteAndUnlock, Staging.handed, nodeWrite, nodeRegions, partSources, unlockNodeBuffer]
  split <;> rfl

theorem hopscotchSplit_regions :
    (leaf.hopscotchSplitWrite C.leafSizes C.splitWriteUnlatch (rbuf 0) fun i => rbuf (i + 1)).map
      (fun r => (r.source, r.size)) =
      (C.hopscotchSplit leaf sibling siblingLock isRoot).handed rbuf
        (partSources C.splitWriteUnlatch C.leafSizes.transLeafSize 1) := by
  simp only [RawLeaf.hopscotchSplitWrite, Staging.handed, hopscotchSplit, nodeRegions, partSources, unlockNodeBuffer]
  split <;> rfl

end BufferLayout

/-! ## All writes -/

/-- A call of a function that stages a write. -/
inductive StagedWrite (C : BufferLayout)
  | leafEntry (leaf : RawLeaf) (idx : Fin C.leafSpanSize) (kv : Nat → UInt8)
  | internalEntry (idx : Fin C.internalSpanSize)
  | segment (leaf : RawLeaf) (lIdx rIdx : Fin C.leafSpanSize) (hoppedIdxes : List Nat)
  | node
  | nodeSplit (isRoot : Bool)
  | hopscotchSplit (leaf sibling : RawLeaf) (siblingLock : Nat → UInt8) (isRoot : Bool)

namespace StagedWrite

variable {C : BufferLayout}

def staging : StagedWrite C → Staging
  | leafEntry leaf idx kv => C.leafEntryWrite leaf idx kv
  | internalEntry idx => C.internalEntryWrite idx
  | segment leaf lIdx rIdx hoppedIdxes => C.segmentWrite leaf lIdx rIdx hoppedIdxes
  | node => C.nodeWrite
  | nodeSplit isRoot => C.nodeSplit isRoot
  | hopscotchSplit leaf sibling siblingLock isRoot => C.hopscotchSplit leaf sibling siblingLock isRoot

/-- There is room for a write: behind a last entry for the 16 bytes of the lock, in a slot for leaves for the internal
node with its lock, behind the scattered leaf for the versions of all records of the last group. -/
def Room : StagedWrite C → Prop
  | leafEntry _ idx _ => idx.val = C.leafSpanSize - 1 → C.LastEntryFits C.leafSizes.decodedLeafSize C.lastLeafEntrySize
  | internalEntry idx => idx.val = C.internalSpanSize - 1 → C.LastEntryFits C.nodeSizes.nodeSize C.internalEntrySize
  | node => C.nodeSizes.transSize + (if C.splitWriteUnlatch then allocationLockSize else 0) ≤ C.rdmaBufLeafSize
  | hopscotchSplit _ _ _ _ => C.leafSizes.lastRecordOffset < C.rdmaBufLeafSize
  | segment _ _ _ _ | nodeSplit _ => True

end StagedWrite

/-- **Staged writes** fit into the slots of their buffers exactly if there is room for them. -/
theorem staged_writes_fit_iff (C : BufferLayout) (w : StagedWrite C) : w.staging.Fits C ↔ w.Room := by
  cases w with
  | leafEntry leaf idx kv => exact BufferLayout.leafEntryWrite_fits_iff idx.isLt
  | internalEntry idx => exact BufferLayout.internalEntryWrite_fits_iff idx.isLt
  | segment leaf lIdx rIdx hoppedIdxes => exact iff_of_true (BufferLayout.segmentWrite_fits lIdx.isLt rIdx.isLt) trivial
  | node => exact BufferLayout.nodeWrite_fits_iff
  | nodeSplit isRoot => exact iff_of_true BufferLayout.nodeSplit_fits trivial
  | hopscotchSplit leaf sibling siblingLock isRoot => exact BufferLayout.hopscotchSplit_fits_iff

/-- In the default build the last record of a leaf is encoded to 19 bytes; its slot has 30, and 35 are handed over. -/
theorem not_staged_writes_fit : ¬∀ (C : BufferLayout) (w : StagedWrite C), w.staging.Fits C := by
  intro h
  have hfits := h .standard (.leafEntry ⟨⟨0, 1, fun _ => 0⟩, fun _ => 0⟩ (63 : Fin 64) fun _ => 0)
  have hle := hfits.sources (1, 35) (by decide +kernel)
  exact absurd hle (by decide)

end Chime

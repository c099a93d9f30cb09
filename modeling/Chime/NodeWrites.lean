import Chime.NodeCodec

/-!
# The writes that release a node (`Tree.cpp`)

A node is written in regions, addressed by their offset in the node; the lock word is the 8 bytes behind the node,
rounded up. Every function that releases a node writes the lock word: in a region of its own, or behind the last bytes
of the node in one region with them.

A buffer of `get_rbuf` is given by its bytes, `rbuf` names the ones a function takes.
-/

namespace Chime

open Memory

/-- `RdmaOpRegion`: a WRITE of the first `size` bytes of `source` to an offset in the node. -/
structure Region where
  dest : Nat
  source : Nat → UInt8
  size : Nat

def Region.write (r : Region) (memory : Nat → UInt8) : Nat → UInt8 := copy memory r.dest r.source 0 r.size

/-- `write_batch_sync`. -/
def writeBatch (rs : List Region) (memory : Nat → UInt8) : Nat → UInt8 :=
  rs.foldl (fun memory r => r.write memory) memory

/-- `allocationLockSize`. -/
def allocationLockSize : Nat := 16

/-- `sizeof(uint64_t)`. -/
def lockSize : Nat := 8

/-- `get_lock_info`: `ROUND_UP(trans_size, 3)`. -/
def getLockInfo (transSize : Nat) : Nat := (transSize + 7) / 8 * 8

/-- `unlock_node`. -/
def unlockNode (transSize : Nat) (lockBuffer : Nat → UInt8) : List Region :=
  [⟨getLockInfo transSize, lockBuffer, lockSize⟩]

/-- The write of a part of a node and of its lock word, in one region if the part is the last one. -/
def partRegions (transSize : Nat) (last : Bool) (rawOffset rawLen : Nat) (encoded lockBuffer : Nat → UInt8) :
    List Region :=
  if last then
    [⟨rawOffset, copy encoded (rawLen + getLockInfo transSize - transSize) lockBuffer 0 lockSize,
      rawLen + allocationLockSize⟩]
  else [⟨rawOffset, encoded, rawLen⟩, ⟨getLockInfo transSize, lockBuffer, lockSize⟩]

/-- The write of a whole node and of its lock word, in one region if `SPLIT_WRITE_UNLATCH` is defined. -/
def nodeRegions (transSize : Nat) (splitWriteUnlatch : Bool) (encoded lockBuffer : Nat → UInt8) : List Region :=
  if splitWriteUnlatch then
    [⟨0, copy encoded (getLockInfo transSize) lockBuffer 0 lockSize, transSize + allocationLockSize⟩]
  else [⟨0, encoded, transSize⟩, ⟨getLockInfo transSize, lockBuffer, lockSize⟩]

/-! ### What the regions write -/

theorem le_getLockInfo {transSize : Nat} : transSize ≤ getLockInfo transSize := by
  rw [getLockInfo]
  omega

theorem getLockInfo_add_le {transSize : Nat} : getLockInfo transSize + lockSize ≤ transSize + allocationLockSize := by
  rw [getLockInfo, lockSize, allocationLockSize]
  omega

/-- The memory after the write of a part of a node and of its lock word. -/
structure Written (transSize rawOffset rawLen : Nat) (encoded lockBuffer memory memory' : Nat → UInt8) : Prop where
  part : ∀ x < rawLen, memory' (rawOffset + x) = encoded x
  node : ∀ x < transSize, x < rawOffset ∨ rawOffset + rawLen ≤ x → memory' x = memory x
  lock : ∀ i < lockSize, memory' (getLockInfo transSize + i) = lockBuffer i
  outside : ∀ x, transSize + allocationLockSize ≤ x → memory' x = memory x

section Regions

variable {transSize rawOffset rawLen : Nat} {encoded lockBuffer memory : Nat → UInt8} {last : Bool}

/-- One region with the lock word behind the last bytes of the node. -/
theorem written_of_one (h : rawOffset + rawLen = transSize) {size : Nat} (hsize : size = rawLen + allocationLockSize) :
    Written transSize rawOffset rawLen encoded lockBuffer memory (copy memory rawOffset
      (copy encoded (rawLen + getLockInfo transSize - transSize) lockBuffer 0 lockSize) 0 size) := by
  have hle : transSize ≤ getLockInfo transSize := le_getLockInfo
  have hend : getLockInfo transSize + lockSize ≤ transSize + allocationLockSize := getLockInfo_add_le
  refine ⟨fun x hx => ?_, fun x hx hout => ?_, fun i hi => ?_, fun x hx => ?_⟩
  · rw [copy_apply (by omega), copy_of_not (by omega), Nat.add_sub_cancel_left, Nat.zero_add]
  · exact copy_of_not (by omega)
  · rw [copy_apply (by omega), copy_apply (by omega)]
    congr 1
    omega
  · exact copy_of_not (by omega)

/-- The part of the node, and the lock word in a region of its own. -/
theorem written_of_two (h : rawOffset + rawLen ≤ transSize) :
    Written transSize rawOffset rawLen encoded lockBuffer memory
      (copy (copy memory rawOffset encoded 0 rawLen) (getLockInfo transSize) lockBuffer 0 lockSize) := by
  have hle : transSize ≤ getLockInfo transSize := le_getLockInfo
  have hend : getLockInfo transSize + lockSize ≤ transSize + allocationLockSize := getLockInfo_add_le
  refine ⟨fun x hx => ?_, fun x hx hout => ?_, fun i hi => ?_, fun x hx => ?_⟩
  · rw [copy_of_not (by omega), copy_apply (by omega), Nat.add_sub_cancel_left, Nat.zero_add]
  · rw [copy_of_not (by omega), copy_of_not (by omega)]
  · rw [copy_apply (by omega), Nat.add_sub_cancel_left, Nat.zero_add]
  · rw [copy_of_not (by omega), copy_of_not (by omega)]

/-- **Writing a part** of a node and its lock word. -/
theorem partRegions_written (h : rawOffset + rawLen ≤ transSize)
    (hlast : last = true → rawOffset + rawLen = transSize) :
    Written transSize rawOffset rawLen encoded lockBuffer memory
      (writeBatch (partRegions transSize last rawOffset rawLen encoded lockBuffer) memory) := by
  cases last with
  | true => exact written_of_one (hlast rfl) rfl
  | false => exact written_of_two h

/-- **Writing a node** and its lock word. -/
theorem nodeRegions_written {splitWriteUnlatch : Bool} : Written transSize 0 transSize encoded lockBuffer memory
    (writeBatch (nodeRegions transSize splitWriteUnlatch encoded lockBuffer) memory) := by
  cases splitWriteUnlatch with
  | true =>
    have h : Written transSize 0 transSize encoded lockBuffer memory (copy memory 0
        (copy encoded (transSize + getLockInfo transSize - transSize) lockBuffer 0 lockSize) 0
          (transSize + allocationLockSize)) := written_of_one (Nat.zero_add transSize) rfl
    rwa [Nat.add_sub_cancel_left] at h
  | false => exact written_of_two (Nat.zero_add transSize).le

/-- No region reaches behind the lock. -/
theorem partRegions_le (h : rawOffset + rawLen ≤ transSize) {r : Region}
    (hr : r ∈ partRegions transSize last rawOffset rawLen encoded lockBuffer) :
    r.dest + r.size ≤ transSize + allocationLockSize := by
  have hend : getLockInfo transSize + lockSize ≤ transSize + allocationLockSize := getLockInfo_add_le
  cases last with
  | true =>
    obtain rfl := List.mem_singleton.1 hr
    simp only
    omega
  | false =>
    rcases List.mem_cons.1 hr with rfl | hr
    · simp only
      omega
    · obtain rfl := List.mem_singleton.1 hr
      exact hend

end Regions

/-! ## Leaves -/

namespace RawLeaf

variable (S : LeafSizes)

/-- `[raw_offset, raw_len]` and the encoded bytes of the records `[start, start + num)`. -/
def encodeSegment (leaf : RawLeaf) (hoppedIdxes : List Nat) (startIdx num : Nat) (inter out : Nat → UInt8) :
    Nat × Nat × (Nat → UInt8) :=
  let (firstMetadataOffset, newLen) := MetadataManager.getOffsetInfo S startIdx num
  let inter := MetadataManager.encodeSegmentMetadata S (fun x => leaf.records (startIdx * S.leafEntrySize + x)) inter
    firstMetadataOffset num leaf.metadata
  let (rawOffset, rawLen, firstOffset) := LeafVersionManager.getOffsetInfo S startIdx num
  (rawOffset, rawLen, LeafVersionManager.encodeSegmentVersions S inter out firstOffset hoppedIdxes startIdx
    (startIdx + num - 1) firstMetadataOffset newLen)

/-- `segment_write_and_unlock`, after the updates of the lock buffer. -/
def segmentWriteAndUnlock (leaf : RawLeaf) (lIdx rIdx : Nat) (hoppedIdxes : List Nat) (lockBuffer : Nat → UInt8)
    (rbuf : Nat → Nat → UInt8) : List Region :=
  if lIdx ≤ rIdx then
    let (rawOffset, rawLen, segment) := encodeSegment S leaf hoppedIdxes lIdx (rIdx - lIdx + 1) (rbuf 1) (rbuf 0)
    partRegions S.transLeafSize (rIdx == S.leafSpanSize - 1) rawOffset rawLen segment lockBuffer
  else
    let (rawOffset₁, rawLen₁, segment₁) := encodeSegment S leaf hoppedIdxes 0 (rIdx + 1) (rbuf 2) (rbuf 0)
    let (rawOffset₂, rawLen₂, segment₂) :=
      encodeSegment S leaf hoppedIdxes lIdx (S.leafSpanSize - lIdx) (rbuf 3) (rbuf 1)
    ⟨rawOffset₁, segment₁, rawLen₁⟩ :: partRegions S.transLeafSize true rawOffset₂ rawLen₂ segment₂ lockBuffer

/-- `LeafEntry::update`: the key and the value of a record, behind its version and its hop bitmap. -/
def update (leaf : RawLeaf) (idx : Nat) (kv : Nat → UInt8) : RawLeaf :=
  { leaf with records := copy leaf.records (idx * S.leafEntrySize + 3) kv 0 (S.leafEntrySize - 3) }

/-- `entry_write_and_unlock<LeafNode, LeafEntry>`. -/
def entryWriteAndUnlock (leaf : RawLeaf) (idx : Nat) (kv lockBuffer : Nat → UInt8) (rbuf : Nat → Nat → UInt8) :
    List Region :=
  let leaf := leaf.update S idx kv
  let (rawOffset, rawLen, entry) := encodeSegment S leaf [idx] idx 1 (rbuf 1) (rbuf 0)
  partRegions S.transLeafSize (idx == S.leafSpanSize - 1) rawOffset rawLen entry lockBuffer

/-- The write of the split leaf in `hopscotch_split_and_unlock`. -/
def hopscotchSplitWrite (splitWriteUnlatch : Bool) (leaf : RawLeaf) (lockBuffer : Nat → UInt8)
    (rbuf : Nat → Nat → UInt8) :
    List Region :=
  nodeRegions S.transLeafSize splitWriteUnlatch
    (LeafVersionManager.encodeNodeVersions S (MetadataManager.encodeNodeMetadata S leaf (rbuf 1)) (rbuf 0)) lockBuffer

end RawLeaf

/-! ## Nodes without replicas -/

namespace NodeSizes

variable (S : NodeSizes)

/-- `entry_write_and_unlock<InternalNode, InternalEntry>`; `entry` is the updated entry. -/
def entryWriteAndUnlock (entry : Nat → UInt8) (idx : Nat) (lockBuffer : Nat → UInt8) (rbuf : Nat → Nat → UInt8) :
    List Region :=
  let (rawOffset, rawLen, firstOffset) := VersionManager.getOffsetInfo S idx 1
  partRegions S.transSize (idx == S.spanSize - 1) rawOffset rawLen
    (VersionManager.encodeEntryVersions S entry (rbuf 0) firstOffset) lockBuffer

/-- `node_write_and_unlock`, and the write of the split node in `node_split_and_unlock`. -/
def nodeWriteAndUnlock (splitWriteUnlatch : Bool) (node lockBuffer : Nat → UInt8) (rbuf : Nat → Nat → UInt8) :
    List Region :=
  nodeRegions S.transSize splitWriteUnlatch (VersionManager.encodeNodeVersions S node (rbuf 0)) lockBuffer

end NodeSizes
end Chime

import Chime.LeafCodec

/-!
# The versions of a node without replicas (`VersionManager.h`)

`VersionManager<NODE, ENTRY>` is instantiated for internal nodes, and for leaves if there are no metadata replicas. A
node is a header and an array of entries, each with its version in front; the encoded node has a version byte in front
of every block of 63 bytes after the first 64.
-/

namespace Chime

open Memory PackedVersion

/-- The constants of a node: `STRUCT_OFFSET(NODE, records)`, `sizeof(ENTRY)` and the span. -/
structure NodeSizes where
  headerSize : Nat
  entrySize : Nat
  spanSize : Nat
  headerSize_pos : 0 < headerSize
  entrySize_pos : 0 < entrySize
  spanSize_pos : 0 < spanSize

namespace NodeSizes

variable (S : NodeSizes)

/-- `STRUCT_OFFSET(NODE, records[idx])`. -/
def entryOffset (idx : Nat) : Nat := S.headerSize + idx * S.entrySize

/-- `sizeof(NODE)`. -/
def nodeSize : Nat := S.entryOffset S.spanSize

/-- `transInternalSize`. -/
def transSize : Nat :=
  if S.nodeSize ≤ cachelineSize then S.nodeSize
  else cachelineSize + LeafSizes.addCachelineVersionSize (S.nodeSize - cachelineSize)

/-- `VersionManager::FIRST_OFFSET`. -/
def firstOffset : Nat := min cachelineSize S.nodeSize

end NodeSizes

namespace VersionManager

variable (S : NodeSizes)

/-- The offset of the version of the object that covers an offset of a node. -/
def objectOffset (j : Nat) : Nat := if j < S.headerSize then 0 else S.entryOffset ((j - S.headerSize) / S.entrySize)

/-- The node versions of the metadata and of all entries are that of the first entry. -/
def jointCheck (out : Nat → UInt8) : Bool :=
  let version := nodeVersion (out (S.entryOffset 0))
  version == nodeVersion (out 0) && (List.range S.spanSize).all fun i => version == nodeVersion (out (S.entryOffset i))

/-- `none`: the buffer is not accepted. -/
def decodeNodeVersions (inp out : Nat → UInt8) : Option (Nat → UInt8) :=
  (Frame.decode blockSize versionSize S.firstOffset S.nodeSize (fun out j i => out (objectOffset S j) == inp i)
    inp out).filter (jointCheck S)

/-- The objects of a node. -/
def objects : List Nat := 0 :: (List.range S.spanSize).map S.entryOffset

/-- The node version of the first entry is incremented and given to every object. -/
def incrementNodeVersions (buffer : Nat → UInt8) : Nat → UInt8 :=
  let version := nodeVersion (buffer (S.entryOffset 0)) + 1
  (objects S).foldl (fun buffer p => Function.update buffer p (setNodeVersion (buffer p) version)) buffer

def encodeNodeVersions (inp out : Nat → UInt8) : Nat → UInt8 :=
  let node := incrementNodeVersions S inp
  Frame.encode blockSize versionSize S.firstOffset S.nodeSize (fun i _ => node (objectOffset S i)) node out

/-- `[raw_offset, raw_length, first_offset]` -/
def getOffsetInfo (startEntryIdx entryNum : Nat) : Nat × Nat × Nat :=
  let decodedStart := S.entryOffset startEntryIdx
  let decodedEnd := S.entryOffset (startEntryIdx + entryNum)
  let rawLength := LeafVersionManager.getRawDistance (decodedEnd - S.firstOffset) -
    LeafVersionManager.getRawDistance (decodedStart - S.firstOffset)
  if decodedStart < S.firstOffset then
    (decodedStart, rawLength.toNat, min (S.firstOffset - decodedStart) (S.entrySize * entryNum))
  else
    let dist := decodedStart - S.firstOffset
    let versionCnt := dist / blockSize + if dist % blockSize ≠ 0 then 1 else 0
    (decodedStart + versionCnt * versionSize, rawLength.toNat,
      min (S.firstOffset + versionCnt * blockSize - decodedStart) (S.entrySize * entryNum))

/-- The entry version is incremented, and in front of every block. -/
def encodeEntryVersions (inp out : Nat → UInt8) (firstOffset : Nat) : Nat → UInt8 :=
  let entry := Function.update inp 0 (incrementEntryVersion (inp 0))
  Frame.encode blockSize versionSize firstOffset S.entrySize (fun _ _ => entry 0) entry out

/-- The entry versions of the hopped entries in `[l_idx, r_idx]` are incremented. -/
def incrementEntryVersions (hoppedIdxes : List Nat) (lIdx rIdx : Nat) (buffer : Nat → UInt8) : Nat → UInt8 :=
  hoppedIdxes.foldl (fun buffer idx =>
    if lIdx ≤ idx ∧ idx ≤ rIdx then
      let p := (idx - lIdx) * S.entrySize
      Function.update buffer p (incrementEntryVersion (buffer p))
    else buffer) buffer

def encodeSegmentVersions (inp out : Nat → UInt8) (firstOffset : Nat) (hoppedIdxes : List Nat) (lIdx rIdx : Nat) :
    Nat → UInt8 :=
  let segment := incrementEntryVersions S hoppedIdxes lIdx rIdx inp
  Frame.encode blockSize versionSize firstOffset (S.entrySize * (rIdx - lIdx + 1))
    (fun i _ => segment (i / S.entrySize * S.entrySize)) segment out

/-- The bytes with the header, and the node version of the header; `none`: the buffer is not accepted. -/
def decodeHeaderVersions (inp out : Nat → UInt8) : Option ((Nat → UInt8) × Nat) :=
  let objVersion := copy out 0 inp 0 S.firstOffset 0
  (Frame.decode blockSize versionSize S.firstOffset S.headerSize (fun _ _ i => objVersion == inp i) inp out).map fun out =>
    (out, nodeVersion objVersion)

/-- The entries of a segment have the node version of the first one. -/
def segmentJointCheck (entryNum : Nat) (out : Nat → UInt8) : Bool :=
  (List.range' 1 (entryNum - 1)).all fun i => nodeVersion (out 0) == nodeVersion (out (i * S.entrySize))

/-- The segment and its node version; `none`: the buffer is not accepted. -/
def decodeSegmentVersions (inp out : Nat → UInt8) (firstOffset entryNum : Nat) : Option ((Nat → UInt8) × Nat) :=
  ((Frame.decode blockSize versionSize firstOffset (S.entrySize * entryNum)
    (fun out j i => out (j / S.entrySize * S.entrySize) == inp i) inp out).filter (segmentJointCheck S entryNum)).map
    fun out => (out, nodeVersion (out 0))

end VersionManager
end Chime

import Chime.Lib.Frame
import Mathlib.Logic.Function.Basic
import Mathlib.Algebra.Group.Nat.Defs

/-!
# The versions and the scattered metadata of a leaf (`LeafVersionManager.h`, `MetadataManager.h`)

A buffer gives a byte to every offset. A leaf is laid out three times: its records one after the other (`LeafNode`),
with a metadata replica in front of every `neighborSize` records (`ScatteredLeafNode`), and with a version byte in
front of every block of 63 bytes after the first 64. The functions convert a buffer of one layout to a buffer of the
next one.
-/

namespace Chime

open Memory

/-- `define::cachelineSize`. -/
def cachelineSize : Nat := 64

/-- `define::versionSize`. -/
def versionSize : Nat := 1

/-- `define::blockSize`. -/
def blockSize : Nat := cachelineSize - versionSize

/-! ## `PackedVersion` -/

namespace PackedVersion

/-- The bit-fields `node_version : 4` and `entry_version : 4`, the first one in the low bits. -/
def pack (nodeVersion entryVersion : Nat) : UInt8 := .ofNat (nodeVersion % 16 + 16 * (entryVersion % 16))

def nodeVersion (version : UInt8) : Nat := version.toNat % 16

def entryVersion (version : UInt8) : Nat := version.toNat / 16

/-- `node_version = v`. -/
def setNodeVersion (version : UInt8) (v : Nat) : UInt8 := pack v (entryVersion version)

/-- `++ entry_version`. -/
def incrementEntryVersion (version : UInt8) : UInt8 := pack (nodeVersion version) (entryVersion version + 1)

variable {version : UInt8} {n e : Nat}

@[simp] theorem nodeVersion_pack : nodeVersion (pack n e) = n % 16 := by
  simp only [nodeVersion, pack, UInt8.toNat_ofNat']
  omega

@[simp] theorem entryVersion_pack : entryVersion (pack n e) = e % 16 := by
  simp only [entryVersion, pack, UInt8.toNat_ofNat']
  omega

theorem nodeVersion_lt : nodeVersion version < 16 := Nat.mod_lt _ (by omega)

theorem entryVersion_lt : entryVersion version < 16 := by
  have := version.toNat_lt
  rw [entryVersion]
  omega

@[simp] theorem pack_eta : pack (nodeVersion version) (entryVersion version) = version := by
  refine UInt8.toNat_inj.1 ?_
  have := version.toNat_lt
  simp only [pack, nodeVersion, entryVersion, UInt8.toNat_ofNat']
  omega

/-- Versions are equal if both fields are. -/
theorem eq_iff {v v' : UInt8} : v = v' ↔ nodeVersion v = nodeVersion v' ∧ entryVersion v = entryVersion v' := by
  refine ⟨fun h => by simp [h], fun ⟨hn, he⟩ => ?_⟩
  calc v = pack (nodeVersion v) (entryVersion v) := pack_eta.symm
    _ = pack (nodeVersion v') (entryVersion v') := by rw [hn, he]
    _ = v' := pack_eta

@[simp] theorem nodeVersion_setNodeVersion : nodeVersion (setNodeVersion version n) = n % 16 := nodeVersion_pack

@[simp] theorem entryVersion_setNodeVersion : entryVersion (setNodeVersion version n) = entryVersion version := by
  rw [setNodeVersion, entryVersion_pack, Nat.mod_eq_of_lt entryVersion_lt]

@[simp] theorem nodeVersion_incrementEntryVersion :
    nodeVersion (incrementEntryVersion version) = nodeVersion version := by
  rw [incrementEntryVersion, nodeVersion_pack, Nat.mod_eq_of_lt nodeVersion_lt]

@[simp] theorem entryVersion_incrementEntryVersion :
    entryVersion (incrementEntryVersion version) = (entryVersion version + 1) % 16 := entryVersion_pack

end PackedVersion

open PackedVersion

/-! ## The layout -/

/-- The constants of a leaf: a record has a version, two bytes of hop bitmap, a key and a value; a metadata replica a
version, the `valid` byte and the sibling pointer. -/
structure LeafSizes where
  leafSpanSize : Nat
  neighborSize : Nat
  leafEntrySize : Nat
  scatterMetadataSize : Nat
  neighborSize_pos : 0 < neighborSize
  neighborSize_le : neighborSize ≤ leafSpanSize
  leafEntrySize_ge : 3 ≤ leafEntrySize
  scatterMetadataSize_ge : 2 ≤ scatterMetadataSize

namespace LeafSizes

variable (S : LeafSizes)

/-- `sizeof(LeafEntryGroup)`. -/
def leafEntryGroupSize : Nat := S.scatterMetadataSize + S.leafEntrySize * S.neighborSize

def entryGroupNum : Nat := S.leafSpanSize / S.neighborSize + if S.leafSpanSize % S.neighborSize ≠ 0 then 1 else 0

def groupSize : Nat := S.leafEntrySize * S.neighborSize

def overflowNum : Nat := S.entryGroupNum * S.neighborSize - S.leafSpanSize

def decodedLeafSize : Nat := S.leafEntryGroupSize * S.entryGroupNum - S.leafEntrySize * S.overflowNum

/-- `ADD_CACHELINE_VERSION_SIZE(x, 1)`. -/
def addCachelineVersionSize (x : Nat) : Nat := x + (x / 63 + if x % 63 ≠ 0 then 1 else 0)

def transLeafSize : Nat :=
  if S.decodedLeafSize ≤ cachelineSize then S.decodedLeafSize
  else cachelineSize + addCachelineVersionSize (S.decodedLeafSize - cachelineSize)

/-- `LeafVersionManager::FIRST_OFFSET`. -/
def firstOffset : Nat := min cachelineSize S.decodedLeafSize

/-- `STRUCT_OFFSET(ScatteredLeafNode, record_groups[g].metadata)`. -/
def metadataOffset (g : Nat) : Nat := g * S.leafEntryGroupSize

/-- `STRUCT_OFFSET(ScatteredLeafNode, record_groups[g].records[j])`. -/
def recordOffset (g j : Nat) : Nat := g * S.leafEntryGroupSize + S.scatterMetadataSize + j * S.leafEntrySize

end LeafSizes

/-- `LeafMetadata`, up to the fields that are constant here (`level`, `fence_keys`). -/
structure RawMetadata where
  hVersion : UInt8
  valid : UInt8
  /-- the bytes of `sibling_ptr` -/
  siblingPtr : Nat → UInt8

/-- `LeafNode`: the metadata and the bytes of the array `records`. -/
structure RawLeaf where
  metadata : RawMetadata
  records : Nat → UInt8

/-- The bytes of `ScatteredMetadata(metadata)`. -/
def RawMetadata.scattered (metadata : RawMetadata) : Nat → UInt8
  | 0 => metadata.hVersion
  | 1 => 1
  | x + 2 => metadata.siblingPtr x

/-- `LeafMetadata(h_version, 0U, valid, sibling_ptr, FenceKeys{})` of the replica at an offset. -/
def RawMetadata.ofScattered (buffer : Nat → UInt8) (offset : Nat) : RawMetadata :=
  ⟨buffer offset, buffer (offset + 1), fun x => buffer (offset + 2 + x)⟩

/-! ## `MetadataManager` -/

namespace MetadataManager

variable (S : LeafSizes)

/-- `operator==` of the replicas at two offsets, which compares the sibling pointers. -/
def sameMetadata (buffer : Nat → UInt8) (offset offset' : Nat) : Bool :=
  (List.range (S.scatterMetadataSize - 2)).all fun x => buffer (offset + 2 + x) == buffer (offset' + 2 + x)

/-- The loop over the records from `i` on, `n` of them; the first record of a group writes the replica of the group. -/
def encodeNodeLoop (leaf : RawLeaf) : Nat → Nat → (Nat → UInt8) → Nat → UInt8
  | 0, _, out => out
  | n + 1, i, out =>
    let g := i / S.neighborSize
    let out := if i % S.neighborSize = 0 then
        copy out (S.metadataOffset g) leaf.metadata.scattered 0 S.scatterMetadataSize
      else out
    let out := copy out (S.recordOffset g (i % S.neighborSize)) leaf.records (i * S.leafEntrySize) S.leafEntrySize
    encodeNodeLoop leaf n (i + 1) out

/-- `LeafNode => ScatteredLeafNode`. -/
def encodeNodeMetadata (leaf : RawLeaf) (out : Nat → UInt8) : Nat → UInt8 := encodeNodeLoop S leaf S.leafSpanSize 0 out

/-- The loop over the records; the first record of a group asserts that its replica is the one of the first group. -/
def decodeNodeLoop (inp : Nat → UInt8) : Nat → Nat → (Nat → UInt8) → Option (Nat → UInt8)
  | 0, _, out => some out
  | n + 1, i, out =>
    let g := i / S.neighborSize
    if i % S.neighborSize = 0 ∧ sameMetadata S inp (S.metadataOffset g) 0 = false then none
    else
      let out := copy out (i * S.leafEntrySize) inp (S.recordOffset g (i % S.neighborSize)) S.leafEntrySize
      decodeNodeLoop inp n (i + 1) out

/-- `ScatteredLeafNode => LeafNode`; `none`: an assertion fails. -/
def decodeNodeMetadata (inp out : Nat → UInt8) : Option RawLeaf :=
  (decodeNodeLoop S inp S.leafSpanSize 0 out).map fun records => ⟨.ofScattered inp 0, records⟩

/-- `[first_metadata_offset, new_len]` -/
def getOffsetInfo (startEntryIdx entryNum : Nat) : Nat × Nat :=
  let segmentLen := S.leafEntrySize * entryNum
  let firstMetadataOffset :=
    min ((S.neighborSize - startEntryIdx % S.neighborSize) % S.neighborSize * S.leafEntrySize) segmentLen
  let remainLen := segmentLen - firstMetadataOffset
  (firstMetadataOffset, segmentLen +
    S.scatterMetadataSize * (remainLen / S.groupSize + if remainLen % S.groupSize ≠ 0 then 1 else 0))

def encodeSegmentMetadata (inp out : Nat → UInt8) (firstMetadataOffset entryNum : Nat) (metadata : RawMetadata) :
    Nat → UInt8 :=
  Frame.encode S.groupSize S.scatterMetadataSize firstMetadataOffset (S.leafEntrySize * entryNum)
    (fun _ => metadata.scattered) inp out

/-- The records, and the metadata if there is a replica; `none`: an assertion fails. -/
def decodeSegmentMetadata (inp out : Nat → UInt8) (firstMetadataOffset entryNum : Nat) :
    Option ((Nat → UInt8) × Option RawMetadata) :=
  let segmentLen := S.leafEntrySize * entryNum
  if segmentLen ≤ firstMetadataOffset then some (copy out 0 inp 0 firstMetadataOffset, none)
  else
    (Frame.decode S.groupSize S.scatterMetadataSize firstMetadataOffset segmentLen
      (fun _ _ i => sameMetadata S inp firstMetadataOffset i) inp out).map fun records =>
      (records, some (.ofScattered inp firstMetadataOffset))

end MetadataManager

/-! ## `LeafVersionManager` -/

namespace LeafVersionManager

variable (S : LeafSizes)

/-- The offset of the version of the object that covers an offset of a `ScatteredLeafNode`. -/
def objectOffset (j : Nat) : Nat :=
  let g := j / S.leafEntryGroupSize
  if j < S.recordOffset g 0 then S.metadataOffset g
  else S.recordOffset g ((j - S.recordOffset g 0) / S.leafEntrySize)

/-- The same in a segment whose first replica is at `metadataOffset`. -/
def segmentObjectOffset (metadataOffset j : Nat) : Nat :=
  if j < metadataOffset then j / S.leafEntrySize * S.leafEntrySize
  else
    let g := (j - metadataOffset) / S.leafEntryGroupSize
    let off := (j - metadataOffset) % S.leafEntryGroupSize
    if off < S.scatterMetadataSize then metadataOffset + S.metadataOffset g
    else metadataOffset + S.recordOffset g ((off - S.scatterMetadataSize) / S.leafEntrySize)

/-- The node version of the object at an offset. -/
def nodeVersionAt (buffer : Nat → UInt8) (offset : Nat) : Nat := nodeVersion (buffer offset)

/-- The node versions of all groups, and of the records of the node, are one. -/
def jointCheck (out : Nat → UInt8) : Bool :=
  let version := nodeVersionAt out 0
  (List.range S.entryGroupNum).all fun g => nodeVersionAt out (S.metadataOffset g) == version &&
    (List.range S.neighborSize).all fun j => S.leafSpanSize ≤ g * S.neighborSize + j ||
      nodeVersionAt out (S.recordOffset g j) == version

/-- `none`: the buffer is not accepted. -/
def decodeNodeVersions (inp out : Nat → UInt8) : Option (Nat → UInt8) :=
  (Frame.decode blockSize versionSize S.firstOffset S.decodedLeafSize (fun out j i => out (objectOffset S j) == inp i)
    inp out).filter (jointCheck S)

/-- The objects whose node version is set, in the order of the loops. -/
def objects : List Nat :=
  (List.range S.entryGroupNum).flatMap fun g =>
    S.metadataOffset g :: (List.range S.neighborSize).map fun j => S.recordOffset g j

/-- The node version of the first replica is incremented and given to every object. -/
def incrementNodeVersions (buffer : Nat → UInt8) : Nat → UInt8 :=
  let version := nodeVersionAt buffer 0 + 1
  (objects S).foldl (fun buffer p => Function.update buffer p (setNodeVersion (buffer p) version)) buffer

def encodeNodeVersions (inp out : Nat → UInt8) : Nat → UInt8 :=
  let leaf := incrementNodeVersions S inp
  Frame.encode blockSize versionSize S.firstOffset S.decodedLeafSize (fun i _ => leaf (objectOffset S i)) leaf out

/-- `decoded_start_offset` and `decoded_end_offset`. -/
def decodedOffset (entryIdx : Nat) : Nat :=
  if entryIdx % S.neighborSize ≠ 0 then S.recordOffset (entryIdx / S.neighborSize) (entryIdx % S.neighborSize)
  else S.metadataOffset (entryIdx / S.neighborSize)

/-- `get_raw_distance`. -/
def getRawDistance (decodedLen : Int) : Int :=
  if decodedLen ≤ 0 then decodedLen
  else decodedLen + (decodedLen / blockSize + if decodedLen % blockSize ≠ 0 then 1 else 0) * versionSize

/-- `[raw_offset, raw_length, first_offset]` -/
def getOffsetInfo (startEntryIdx entryNum : Nat) : Nat × Nat × Nat :=
  let decodedStart := decodedOffset S startEntryIdx
  let decodedEnd := decodedOffset S (startEntryIdx + entryNum)
  let rawLength := getRawDistance (decodedEnd - S.firstOffset) - getRawDistance (decodedStart - S.firstOffset)
  if decodedStart < S.firstOffset then
    (decodedStart, rawLength.toNat, min (S.firstOffset - decodedStart) (decodedEnd - decodedStart))
  else
    let dist := decodedStart - S.firstOffset
    let versionCnt := dist / blockSize + if dist % blockSize ≠ 0 then 1 else 0
    (decodedStart + versionCnt * versionSize, rawLength.toNat,
      min (S.firstOffset + versionCnt * blockSize - decodedStart) (decodedEnd - decodedStart))

/-- The offset of the record with an index in a segment that begins at the record `lIdx`. -/
def segmentRecordOffset (metadataOffset lIdx idx : Nat) : Nat :=
  let sizeL := metadataOffset / S.leafEntrySize
  if idx - lIdx < sizeL then (idx - lIdx) * S.leafEntrySize
  else
    let idx := idx - lIdx - sizeL
    metadataOffset + S.recordOffset (idx / S.neighborSize) (idx % S.neighborSize)

/-- The entry versions of the hopped entries in the segment are incremented; the assertion `idx < remain_size` is
`idx ≤ r_idx`. -/
def incrementEntryVersions (hoppedIdxes : List Nat) (lIdx rIdx metadataOffset : Nat) (buffer : Nat → UInt8) :
    Nat → UInt8 :=
  hoppedIdxes.foldl (fun buffer idx =>
    if lIdx ≤ idx ∧ idx ≤ rIdx then
      let p := segmentRecordOffset S metadataOffset lIdx idx
      Function.update buffer p (incrementEntryVersion (buffer p))
    else buffer) buffer

def encodeSegmentVersions (inp out : Nat → UInt8) (firstOffset : Nat) (hoppedIdxes : List Nat)
    (lIdx rIdx metadataOffset segmentLen : Nat) : Nat → UInt8 :=
  let segment := incrementEntryVersions S hoppedIdxes lIdx rIdx metadataOffset inp
  Frame.encode blockSize versionSize firstOffset segmentLen
    (fun i _ => segment (segmentObjectOffset S metadataOffset i)) segment out

/-- The joint check of a segment, and its node version. -/
def segmentJointCheck (entryNum metadataOffset : Nat) (out : Nat → UInt8) : Bool :=
  let version := nodeVersionAt out 0
  let sizeL := metadataOffset / S.leafEntrySize
  let remainSize := entryNum - sizeL
  let groupNum := remainSize / S.neighborSize + if remainSize % S.neighborSize ≠ 0 then 1 else 0
  ((List.range sizeL).all fun i => nodeVersionAt out (i * S.leafEntrySize) == version) &&
    (List.range groupNum).all fun g => nodeVersionAt out (metadataOffset + S.metadataOffset g) == version &&
      (List.range S.neighborSize).all fun j => remainSize ≤ g * S.neighborSize + j ||
        nodeVersionAt out (metadataOffset + S.recordOffset g j) == version

/-- The segment and its node version; `none`: the buffer is not accepted. The first object is at the start: a record, or
the replica, which is there when `metadataOffset` is 0. -/
def decodeSegmentVersions (inp out : Nat → UInt8) (firstOffset entryNum metadataOffset segmentLen : Nat) :
    Option ((Nat → UInt8) × Nat) :=
  ((Frame.decode blockSize versionSize firstOffset segmentLen
    (fun out j i => out (segmentObjectOffset S metadataOffset j) == inp i) inp out).filter
    (segmentJointCheck S entryNum metadataOffset)).map fun out => (out, nodeVersionAt out 0)

end LeafVersionManager
end Chime

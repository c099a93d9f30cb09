import Chime.LeafDecode

/-!
# Encoding a leaf and back

`RawLeaf.image` is a leaf with its replicas and version bytes. The encoders of a whole leaf write the image of the leaf
with its node versions incremented (`encodeNode_image`); the decoders accept an image whose node versions are one and
give the leaf back, and so do the decoders of every segment (`decode_image`, `decodeSegment_image`). `leaf_round_trip`
puts them together.
-/

namespace Chime

open Frame Memory PackedVersion LeafVersionManager MetadataManager LeafSizes

/-! ## Images -/

namespace RawLeaf

variable (S : LeafSizes)

/-- The bytes of the `ScatteredLeafNode`. -/
def scattered (leaf : RawLeaf) : Nat → UInt8 :=
  frame S.groupSize S.scatterMetadataSize 0 leaf.records fun _ => leaf.metadata.scattered

/-- The encoded leaf. -/
def image (leaf : RawLeaf) : Nat → UInt8 :=
  frame blockSize versionSize S.firstOffset (leaf.scattered S) fun p _ => leaf.scattered S (objectOffset S p)

/-- The raw bytes of the node hold the encoded leaf. -/
def Encoded (leaf : RawLeaf) (raw : Nat → UInt8) : Prop := ∀ x < S.transLeafSize, raw x = leaf.image S x

/-- All objects of the leaf have one node version. -/
structure Uniform (leaf : RawLeaf) (version : Nat) : Prop where
  metadata : nodeVersion leaf.metadata.hVersion = version
  records : ∀ i < S.leafSpanSize, nodeVersion (leaf.records (i * S.leafEntrySize)) = version

/-- The same leaf, up to bytes that are not part of it. -/
structure Same (leaf leaf' : RawLeaf) : Prop where
  hVersion : leaf.metadata.hVersion = leaf'.metadata.hVersion
  valid : leaf.metadata.valid = leaf'.metadata.valid
  siblingPtr : ∀ x < S.scatterMetadataSize - 2, leaf.metadata.siblingPtr x = leaf'.metadata.siblingPtr x
  records : ∀ x < S.leafSpanSize * S.leafEntrySize, leaf.records x = leaf'.records x

/-- The leaf with `valid = 1` and every node version one above that of the metadata. -/
def incremented (leaf : RawLeaf) : RawLeaf :=
  let version := nodeVersion leaf.metadata.hVersion + 1
  ⟨{ leaf.metadata with hVersion := setNodeVersion leaf.metadata.hVersion version, valid := 1 },
    fun x => if x % S.leafEntrySize = 0 then setNodeVersion (leaf.records x) version else leaf.records x⟩

variable {S} {leaf : RawLeaf} {raw : Nat → UInt8} {i g x o p version : Nat}

variable (leaf) in
theorem scattered_record (hx : x < S.leafEntrySize) :
    leaf.scattered S (S.recordPos i + x) = leaf.records (i * S.leafEntrySize + x) := by
  rw [recordPos_eq hx, scattered, frame_pos S.groupSize_pos]

variable (leaf) in
theorem scattered_metadata (ho : o < S.scatterMetadataSize) :
    leaf.scattered S (S.metadataOffset g + o) = leaf.metadata.scattered o := by
  rw [metadataOffset_eq, scattered, frame_mark ho]

/-- What raw bytes that hold an image are decoded to. -/
theorem Encoded.decoded (h : leaf.Encoded S raw) (hp : p < S.decodedLeafSize) :
    decoded S raw p = leaf.scattered S p := by
  rw [Encoded, transLeafSize_eq] at h
  rw [Chime.decoded, unframe_congr h hp, image, unframe_frame blockSize_pos]

theorem boundary_lt {k : Nat} (hk : boundary blockSize S.firstOffset k < S.decodedLeafSize) :
    objectOffset S (boundary blockSize S.firstOffset k) < S.decodedLeafSize := Nat.lt_of_le_of_lt objectOffset_le hk

/-- The marks of an image. -/
theorem Encoded.markOk (h : leaf.Encoded S raw) {k : Nat}
    (hk : boundary blockSize S.firstOffset k < S.decodedLeafSize) :
    MarkOk S raw k := by
  have hlt := markPos_lt_start (w := versionSize) (o := 0) blockSize_pos (by decide) hk
  have hmark := frame_mark (b := blockSize) (w := versionSize) (f := S.firstOffset) (k := k) (o := 0)
    (d := leaf.scattered S) (c := fun p _ => leaf.scattered S (objectOffset S p)) (by decide)
  rw [Nat.add_zero] at hlt hmark
  rw [MarkOk, h.decoded (boundary_lt hk), h _ (by rwa [transLeafSize_eq]), image, hmark]

theorem Uniform.version_lt (h : leaf.Uniform S version) : version < 16 := h.metadata ▸ nodeVersion_lt

/-- The node versions of an image. -/
theorem Encoded.metadataVersion (h : leaf.Encoded S raw) (hv : leaf.Uniform S version) (hg : g < S.entryGroupNum) :
    nodeVersionAt (Chime.decoded S raw) (S.metadataOffset g) = version := by
  have hlt := metadataOffset_lt hg S.scatterMetadataSize_pos
  have hs := scattered_metadata leaf (g := g) S.scatterMetadataSize_pos
  rw [Nat.add_zero] at hlt hs
  rw [nodeVersionAt, h.decoded hlt, hs]
  exact hv.metadata

theorem Encoded.recordVersion (h : leaf.Encoded S raw) (hv : leaf.Uniform S version) (hi : i < S.leafSpanSize) :
    nodeVersionAt (Chime.decoded S raw) (S.recordPos i) = version := by
  have hlt := recordPos_lt hi S.leafEntrySize_pos
  have hs := scattered_record leaf (i := i) S.leafEntrySize_pos
  rw [Nat.add_zero] at hlt
  rw [Nat.add_zero, Nat.add_zero] at hs
  rw [nodeVersionAt, h.decoded hlt, hs]
  exact hv.records i hi

theorem entryGroupNum_pos : 0 < S.entryGroupNum := by
  have hle := S.leafSpanSize_le
  have hpos := S.leafSpanSize_pos
  refine Nat.pos_of_ne_zero fun h => ?_
  rw [h, Nat.zero_mul] at hle
  omega

/-- **An image** with one node version is accepted. -/
theorem Encoded.accepted (h : leaf.Encoded S raw) (hv : leaf.Uniform S version) : Accepted S raw := by
  have hzero : nodeVersionAt (Chime.decoded S raw) 0 = version := by
    have := h.metadataVersion hv entryGroupNum_pos
    rwa [metadataOffset, Nat.zero_mul] at this
  exact ⟨fun k hk => h.markOk hk, fun g hg => (h.metadataVersion hv hg).trans hzero.symm,
    fun i hi => (h.recordVersion hv hi).trans hzero.symm⟩

/-! ### Segments of an image -/

/-- The group of a replica in the leaf. -/
theorem lt_entryGroupNum {n : Nat} (h : boundary S.groupSize 0 g < n * S.leafEntrySize) (hn : n ≤ S.leafSpanSize) :
    g < S.entryGroupNum := by
  rw [entryGroupNum_eq]
  exact (boundary_lt_iff S.groupSize_pos).1 (Nat.lt_of_lt_of_le h (Nat.mul_le_mul_right _ hn))

/-- The first object of a segment. -/
theorem Encoded.startVersion (h : leaf.Encoded S raw) (hv : leaf.Uniform S version) {s : Nat}
    (hs : s < S.leafSpanSize) :
    nodeVersionAt (Chime.decoded S raw) (decodedOffset S s) = version := by
  rw [decodedOffset]
  split
  · exact h.recordVersion hv hs
  · refine h.metadataVersion hv ?_
    rw [Nat.div_lt_iff_lt_mul S.neighborSize_pos]
    exact Nat.lt_of_lt_of_le hs S.leafSpanSize_le

theorem Encoded.acceptedSegment (h : leaf.Encoded S raw) (hv : leaf.Uniform S version) {s n : Nat} (hn : 0 < n)
    (hle : s + n ≤ S.leafSpanSize) : AcceptedSegment S s n raw := by
  have hstart := h.startVersion hv (show s < S.leafSpanSize by omega)
  have hend := decodedOffset_le hle
  exact ⟨fun k _ hk => h.markOk (by omega),
    fun g _ hg => (h.metadataVersion hv (lt_entryGroupNum hg hle)).trans hstart.symm,
    fun i _ hi => (h.recordVersion hv (by omega)).trans hstart.symm⟩

end RawLeaf

/-! ## The metadata of a whole leaf -/

section Metadata

open RawLeaf

variable {S : LeafSizes} {leaf : RawLeaf} {inp out : Nat → UInt8} {i n p x : Nat}

theorem metadata_scattered_sibling {metadata : RawMetadata} : metadata.scattered (2 + x) = metadata.siblingPtr x := by
  rw [Nat.add_comm]
  rfl

/-- All replicas of a leaf are the same. -/
theorem sameMetadata_scattered (leaf : RawLeaf) {g g' : Nat} (hg : g < S.entryGroupNum) (hg' : g' < S.entryGroupNum)
    (h : ∀ p < S.decodedLeafSize, inp p = leaf.scattered S p) :
    sameMetadata S inp (S.metadataOffset g) (S.metadataOffset g') = true := by
  simp only [sameMetadata, List.all_eq_true, List.mem_range, beq_iff_eq, Nat.add_assoc]
  intro x hx
  rw [h _ (metadataOffset_lt hg (by omega)), h _ (metadataOffset_lt hg' (by omega)), scattered_metadata _ (by omega),
    scattered_metadata _ (by omega)]

/-- The end of a record. -/
theorem start_succ : start S.groupSize S.scatterMetadataSize 0 ((i + 1) * S.leafEntrySize) =
    S.recordPos i + S.leafEntrySize := by
  have hj := Nat.mod_lt i S.neighborSize_pos
  have hle : (i % S.neighborSize + 1) * S.leafEntrySize ≤ S.groupSize := by
    rw [groupSize, Nat.mul_comm S.leafEntrySize]
    exact Nat.mul_le_mul_right _ hj
  have hmul : (i + 1) * S.leafEntrySize =
      boundary S.groupSize 0 (i / S.neighborSize) + (i % S.neighborSize + 1) * S.leafEntrySize := by
    rw [Nat.succ_mul, mul_leafEntrySize, Nat.succ_mul]
    omega
  rw [hmul, start_boundary_add S.groupSize_pos (Nat.mul_pos (by omega) S.leafEntrySize_pos) hle, ← metadataOffset_eq,
    recordPos, recordOffset, metadataOffset, Nat.succ_mul]
  omega

/-- The loop of `encode_node_metadata`: one record, with the replica if it is the first of its group. -/
theorem encodeNodeLoop_apply (h : i + n ≤ S.leafSpanSize)
    (hout : ∀ p < start S.groupSize S.scatterMetadataSize 0 (i * S.leafEntrySize), out p = leaf.scattered S p)
    (hp : p < start S.groupSize S.scatterMetadataSize 0 ((i + n) * S.leafEntrySize)) :
    encodeNodeLoop S leaf n i out p = leaf.scattered S p := by
  induction n generalizing i out with
  | zero => exact hout p hp
  | succ n ih =>
    rw [encodeNodeLoop]
    refine ih (by omega) (fun p hp => ?_) (by rwa [show i + 1 + n = i + (n + 1) by omega])
    rw [start_succ] at hp
    by_cases hrec : S.recordPos i ≤ p
    · obtain ⟨x, rfl⟩ := Nat.exists_eq_add_of_le hrec
      have hx : x < S.leafEntrySize := by omega
      rw [scattered_record _ hx, ← recordPos, copy_apply (by omega), Nat.add_sub_cancel_left]
    · rw [← recordPos, copy_of_not (by omega)]
      split
      · rename_i hfirst
        -- the first record of its group
        have hpos : S.recordPos i = S.metadataOffset (i / S.neighborSize) + S.scatterMetadataSize := by
          rw [recordPos, hfirst, recordOffset, metadataOffset, Nat.zero_mul, Nat.add_zero]
        by_cases hmeta : S.metadataOffset (i / S.neighborSize) ≤ p
        · obtain ⟨o, rfl⟩ := Nat.exists_eq_add_of_le hmeta
          rw [scattered_metadata _ (by omega), copy_apply (by omega), Nat.add_sub_cancel_left, Nat.zero_add]
        · rw [copy_of_not (by omega)]
          refine hout p ?_
          rw [← decodedOffset_eq, decodedOffset, if_neg (by omega)]
          omega
      · rename_i hfirst
        refine hout p ?_
        rw [← decodedOffset_eq, decodedOffset, if_pos hfirst, ← recordPos]
        omega

/-- **`encode_node_metadata`** writes the scattered leaf. -/
theorem encodeNodeMetadata_apply (hp : p < S.decodedLeafSize) :
    encodeNodeMetadata S leaf out p = leaf.scattered S p := by
  rw [decodedLeafSize_eq] at hp
  refine encodeNodeLoop_apply (by omega) (fun p hp => ?_) (by rwa [Nat.zero_add])
  rw [Nat.zero_mul, start_of_le S.groupSize_pos le_rfl] at hp
  exact absurd hp (Nat.not_lt_zero p)

/-- The loop of `decode_node_metadata`. -/
theorem decodeNodeLoop_spec (hinp : ∀ p < S.decodedLeafSize, inp p = leaf.scattered S p) (h : i + n ≤ S.leafSpanSize)
    (hout : ∀ x < i * S.leafEntrySize, out x = leaf.records x) :
    ∃ out', decodeNodeLoop S inp n i out = some out' ∧ ∀ x < (i + n) * S.leafEntrySize, out' x = leaf.records x := by
  induction n generalizing i out with
  | zero => exact ⟨out, rfl, hout⟩
  | succ n ih =>
    have hg : i / S.neighborSize < S.entryGroupNum := by
      rw [Nat.div_lt_iff_lt_mul S.neighborSize_pos]
      exact Nat.lt_of_lt_of_le (by omega) S.leafSpanSize_le
    have hsame := sameMetadata_scattered leaf hg entryGroupNum_pos hinp
    rw [show S.metadataOffset 0 = 0 from Nat.zero_mul _] at hsame
    have hcopy : ∀ x < (i + 1) * S.leafEntrySize,
        copy out (i * S.leafEntrySize) inp (S.recordOffset (i / S.neighborSize) (i % S.neighborSize)) S.leafEntrySize x =
          leaf.records x := by
      intro x hx
      rw [Nat.succ_mul] at hx
      by_cases hxi : i * S.leafEntrySize ≤ x
      · obtain ⟨y, rfl⟩ := Nat.exists_eq_add_of_le hxi
        have hy : y < S.leafEntrySize := by omega
        rw [copy_apply (by omega), Nat.add_sub_cancel_left, ← recordPos, hinp _ (recordPos_lt (by omega) hy),
          scattered_record _ hy]
      · rw [copy_of_not (by omega)]
        exact hout x (by omega)
    obtain ⟨out', hdec, hout'⟩ := ih (by omega) hcopy
    rw [decodeNodeLoop, if_neg (by simp [hsame])]
    exact ⟨out', hdec, fun x hx => hout' x (by rwa [show i + 1 + n = i + (n + 1) by omega])⟩

/-- **`decode_node_metadata`** gives the leaf back, with `valid = 1`. -/
theorem decodeNodeMetadata_scattered (hinp : ∀ p < S.decodedLeafSize, inp p = leaf.scattered S p) (out : Nat → UInt8) :
    ∃ leaf', decodeNodeMetadata S inp out = some leaf' ∧
      leaf'.Same S { leaf with metadata := { leaf.metadata with valid := 1 } } := by
  have hempty : ∀ x < 0 * S.leafEntrySize, out x = leaf.records x := fun x hx => absurd hx (by omega)
  obtain ⟨out', hdec, hout⟩ := decodeNodeLoop_spec hinp (n := S.leafSpanSize) (by omega) hempty
  have hmeta {o : Nat} (ho : o < S.scatterMetadataSize) : inp o = leaf.metadata.scattered o := by
    have hlt := metadataOffset_lt (S := S) entryGroupNum_pos ho
    have hs := scattered_metadata leaf (g := 0) ho
    rw [metadataOffset, Nat.zero_mul, Nat.zero_add] at hlt hs
    rw [hinp o hlt, hs]
  have hM := S.scatterMetadataSize_ge
  refine ⟨_, by rw [decodeNodeMetadata, hdec]; rfl, hmeta (o := 0) (by omega), hmeta (o := 1) (by omega), fun x hx => ?_,
    fun x hx => hout x (by rwa [Nat.zero_add])⟩
  simp only [RawMetadata.ofScattered, Nat.zero_add]
  rw [hmeta (by omega), metadata_scattered_sibling]

end Metadata

/-! ## The versions of a whole leaf -/

section Versions

open RawLeaf

variable {S : LeafSizes} {leaf : RawLeaf} {inp out raw : Nat → UInt8} {i n p x v : Nat}

theorem setNodeVersion_setNodeVersion {version : UInt8} :
    setNodeVersion (setNodeVersion version v) v = setNodeVersion version v := by
  rw [setNodeVersion, entryVersion_setNodeVersion, setNodeVersion]

/-- Versions set at a list of offsets. -/
theorem foldl_setNodeVersion {positions : List Nat} :
    positions.foldl (fun buffer p => Function.update buffer p (setNodeVersion (buffer p) v)) inp p =
      if p ∈ positions then setNodeVersion (inp p) v else inp p := by
  induction positions generalizing inp with
  | nil => rfl
  | cons q positions ih =>
    rw [List.foldl_cons, ih]
    by_cases hpq : p = q
    · subst hpq
      rw [Function.update_self, setNodeVersion_setNodeVersion, if_pos List.mem_cons_self]
      exact ite_self _
    · rw [Function.update_of_ne hpq]
      exact if_congr (by simp [hpq]) rfl rfl

/-- The objects are where objects begin. -/
theorem objectOffset_of_mem (h : p ∈ objects S) : objectOffset S p = p := by
  simp only [objects, List.mem_flatMap, List.mem_range, List.mem_cons, List.mem_map] at h
  obtain ⟨g, -, rfl | ⟨j, hj, rfl⟩⟩ := h
  · exact objectOffset_metadata (o := 0) S.scatterMetadataSize_pos
  · exact objectOffset_record (x := 0) hj S.leafEntrySize_pos

theorem metadataOffset_mem {g : Nat} (hg : g < S.entryGroupNum) : S.metadataOffset g ∈ objects S := by
  simp only [objects, List.mem_flatMap, List.mem_range, List.mem_cons]
  exact ⟨g, hg, .inl rfl⟩

theorem recordPos_mem (hi : i < S.leafSpanSize) : S.recordPos i ∈ objects S := by
  simp only [objects, List.mem_flatMap, List.mem_range, List.mem_cons, List.mem_map]
  refine ⟨i / S.neighborSize, ?_, .inr ⟨i % S.neighborSize, Nat.mod_lt _ S.neighborSize_pos, rfl⟩⟩
  rw [Nat.div_lt_iff_lt_mul S.neighborSize_pos]
  exact Nat.lt_of_lt_of_le hi S.leafSpanSize_le

theorem incrementNodeVersions_apply (h : ∀ p < S.decodedLeafSize, inp p = leaf.scattered S p)
    (hp : p < S.decodedLeafSize) :
    incrementNodeVersions S inp p = (leaf.incremented S).scattered S p := by
  have hzero : inp 0 = leaf.metadata.hVersion := by
    have hlt := metadataOffset_lt (S := S) entryGroupNum_pos S.scatterMetadataSize_pos
    have hs := scattered_metadata leaf (g := 0) S.scatterMetadataSize_pos
    rw [metadataOffset, Nat.zero_mul, Nat.add_zero] at hlt hs
    rw [h 0 hlt, hs]
    rfl
  rw [incrementNodeVersions, foldl_setNodeVersion, nodeVersionAt, hzero]
  rcases object_cases hp with ⟨g, o, hg, ho, rfl⟩ | ⟨i, x, hi, hx, rfl⟩
  · rw [scattered_metadata _ ho, h _ hp, scattered_metadata _ ho]
    cases o with
    | zero => exact if_pos (metadataOffset_mem hg)
    | succ o =>
      have hmem : S.metadataOffset g + (o + 1) ∉ objects S := fun hmem => by
        have := objectOffset_of_mem hmem
        rw [objectOffset_metadata ho] at this
        omega
      rw [if_neg hmem]
      cases o <;> rfl
  · rw [scattered_record _ hx, h _ hp, scattered_record _ hx]
    cases x with
    | zero =>
      rw [Nat.add_zero, if_pos (recordPos_mem hi)]
      simp [incremented]
    | succ x =>
      have hmem : S.recordPos i + (x + 1) ∉ objects S := fun hmem => by
        have := objectOffset_of_mem hmem
        rw [recordPos, objectOffset_record (Nat.mod_lt _ S.neighborSize_pos) hx] at this
        omega
      have hmod : (i * S.leafEntrySize + (x + 1)) % S.leafEntrySize = x + 1 := by
        rw [Nat.mul_comm, Nat.mul_add_mod, Nat.mod_eq_of_lt hx]
      rw [if_neg hmem]
      simp [incremented, hmod]

/-- **`encode_node_versions`** after `encode_node_metadata` writes the image of the leaf with incremented node
versions. -/
theorem encodeNodeVersions_encoded (h : ∀ p < S.decodedLeafSize, inp p = leaf.scattered S p)
    (hraw : ∀ x < S.transLeafSize, raw x = encodeNodeVersions S inp out x) : (leaf.incremented S).Encoded S raw := by
  intro x hx
  rw [hraw x hx]
  rw [transLeafSize_eq] at hx
  rw [encodeNodeVersions, encode_apply blockSize_pos hx, image]
  refine frame_congr blockSize_pos (fun p hp => incrementNodeVersions_apply h hp) (fun k hk o ho => ?_) hx
  exact incrementNodeVersions_apply h (boundary_lt hk)

theorem RawLeaf.incremented_version :
    (leaf.incremented S).Uniform S ((nodeVersion leaf.metadata.hVersion + 1) % 16) := by
  refine ⟨nodeVersion_setNodeVersion, fun i _ => ?_⟩
  simp only [incremented, Nat.mul_mod_left, if_true]
  exact nodeVersion_setNodeVersion

theorem incremented_uniform (h : leaf.Uniform S v) : (leaf.incremented S).Uniform S ((v + 1) % 16) := by
  rw [← h.metadata]
  exact RawLeaf.incremented_version

end Versions

/-! ## The metadata of a segment -/

section SegmentMetadata

open RawLeaf

variable {S : LeafSizes} {leaf : RawLeaf} {inp : Nat → UInt8} {s n x : Nat}

/-- A segment has a replica if it has the first record of a group. -/
theorem sizeL_lt_iff : S.sizeL s n < n ↔ ∃ i, s ≤ i ∧ i < s + n ∧ S.neighborSize ∣ i := by
  have hdiv := Nat.div_add_mod s S.neighborSize
  have hlt := Nat.mod_lt s S.neighborSize_pos
  have hmod : (S.neighborSize - s % S.neighborSize) % S.neighborSize =
      if s % S.neighborSize = 0 then 0 else S.neighborSize - s % S.neighborSize := by
    split
    · rename_i h
      rw [h, Nat.sub_zero, Nat.mod_self]
    · exact Nat.mod_eq_of_lt (by omega)
  rw [sizeL, hmod]
  constructor
  · intro h
    refine ⟨s + if s % S.neighborSize = 0 then 0 else S.neighborSize - s % S.neighborSize, by omega, by omega, ?_⟩
    split
    · rename_i hz
      exact Nat.dvd_of_mod_eq_zero hz
    · exact ⟨s / S.neighborSize + 1, by rw [Nat.mul_succ]; omega⟩
  · rintro ⟨i, hs, hi, q, rfl⟩
    refine Nat.lt_of_le_of_lt (Nat.min_le_left _ _) ?_
    split
    · omega
    · have : S.neighborSize * (s / S.neighborSize) < S.neighborSize * q := by omega
      have : s / S.neighborSize + 1 ≤ q := Nat.lt_of_mul_lt_mul_left this
      have := Nat.mul_le_mul_left S.neighborSize this
      rw [Nat.mul_succ] at this
      omega

/-- **`decode_segment_metadata`** gives the records of the segment, and the metadata if there is a replica. -/
theorem decodeSegmentMetadata_scattered
    (h : ∀ p < (MetadataManager.getOffsetInfo S s n).2, inp p = leaf.scattered S (decodedOffset S s + p))
    (out : Nat → UInt8) :
    ∃ records metadata, decodeSegmentMetadata S inp out (MetadataManager.getOffsetInfo S s n).1 n =
        some (records, metadata) ∧
      (∀ x < n * S.leafEntrySize, records x = leaf.records (s * S.leafEntrySize + x)) ∧
      (metadata.isSome ↔ S.sizeL s n < n) ∧
      ∀ m, metadata = some m → m.hVersion = leaf.metadata.hVersion ∧ m.valid = 1 ∧
        ∀ x < S.scatterMetadataSize - 2, m.siblingPtr x = leaf.metadata.siblingPtr x := by
  simp only [metadata_getOffsetInfo] at h ⊢
  have hM := S.scatterMetadataSize_ge
  have hlen : (s + n) * S.leafEntrySize - s * S.leafEntrySize = n * S.leafEntrySize := by
    rw [← Nat.sub_mul, Nat.add_sub_cancel_left]
  have hpayload {x : Nat} (hx : x < n * S.leafEntrySize) :
      unframe S.groupSize S.scatterMetadataSize (S.sizeL s n * S.leafEntrySize) inp x =
        leaf.records (s * S.leafEntrySize + x) := by
    have hpos := slice_pos (w := S.scatterMetadataSize) (f := 0) (e := (s + n) * S.leafEntrySize) S.groupSize_pos
      (Nat.le_add_right (s * S.leafEntrySize) x) (by omega)
    rw [Nat.add_sub_cancel_left, ← sizeL_mul, ← decodedOffset_eq] at hpos
    rw [unframe, h _ (pos_lt_start hx), ← hpos, scattered, frame_pos S.groupSize_pos]
  have hreplica {a o : Nat} (ha : boundary S.groupSize (S.sizeL s n * S.leafEntrySize) a < n * S.leafEntrySize)
      (ho : o < S.scatterMetadataSize) :
      inp (markPos S.groupSize S.scatterMetadataSize (S.sizeL s n * S.leafEntrySize) a + o) =
        leaf.metadata.scattered o := by
    obtain ⟨g, -, -, hg⟩ := metadataOffset_segment ha
    have hmark : markPos S.groupSize S.scatterMetadataSize (S.sizeL s n * S.leafEntrySize) a =
        S.sizeL s n * S.leafEntrySize + S.metadataOffset a := by
      rw [metadataOffset_eq]
      simp only [markPos]
      omega
    rw [h _ (markPos_lt_start S.groupSize_pos ho ha), hmark, ← Nat.add_assoc, ← hg, scattered_metadata _ ho]
  rw [decodeSegmentMetadata, Nat.mul_comm S.leafEntrySize n]
  rcases Nat.lt_or_ge (S.sizeL s n) n with hlt | hge
  · -- there is a replica
    have hm : S.sizeL s n * S.leafEntrySize < n * S.leafEntrySize := Nat.mul_lt_mul_of_pos_right hlt S.leafEntrySize_pos
    have hfirst {o : Nat} (ho : o < S.scatterMetadataSize) : inp (S.sizeL s n * S.leafEntrySize + o) =
        leaf.metadata.scattered o := by
      have := hreplica (a := 0) (by simpa [boundary] using hm) ho
      simpa [markPos] using this
    have hlocal : ∀ (out out' : Nat → UInt8) (j i : Nat), (∀ p ≤ j, out p = out' p) →
        sameMetadata S inp (S.sizeL s n * S.leafEntrySize) i = sameMetadata S inp (S.sizeL s n * S.leafEntrySize) i :=
      fun _ _ _ _ _ => rfl
    have hsome : (Frame.decode S.groupSize S.scatterMetadataSize (S.sizeL s n * S.leafEntrySize) (n * S.leafEntrySize)
        (fun _ _ i => sameMetadata S inp (S.sizeL s n * S.leafEntrySize) i) inp out).isSome := by
      refine (decode_spec S.groupSize_pos hlocal).2.2 fun a ha => ?_
      simp only [sameMetadata, List.all_eq_true, List.mem_range, beq_iff_eq, Nat.add_assoc]
      intro x hx
      rw [hfirst (by omega), hreplica ha (by omega)]
    obtain ⟨records, hrecords⟩ := Option.isSome_iff_exists.1 hsome
    have hout := (decode_spec S.groupSize_pos hlocal).1 _ hrecords
    refine ⟨records, some (.ofScattered inp (S.sizeL s n * S.leafEntrySize)), ?_,
      fun x hx => (hout x hx).trans (hpayload hx),
      iff_of_true rfl hlt, ?_⟩
    · rw [if_neg (by omega), hrecords]
      rfl
    · rintro m ⟨⟩
      refine ⟨hfirst (o := 0) (by omega), hfirst (o := 1) (by omega), fun x hx => ?_⟩
      simp only [RawMetadata.ofScattered]
      rw [Nat.add_assoc, hfirst (by omega), metadata_scattered_sibling]
  · have hm : n * S.leafEntrySize ≤ S.sizeL s n * S.leafEntrySize := Nat.mul_le_mul_right _ hge
    refine ⟨copy out 0 inp 0 (S.sizeL s n * S.leafEntrySize), none, if_pos hm, fun x hx => ?_,
      iff_of_false (by simp) (by omega), by simp⟩
    rw [← hpayload hx, unframe, pos_of_lt S.groupSize_pos (by omega), copy_apply (by omega), Nat.zero_add, Nat.sub_zero]

end SegmentMetadata

/-! ## The round trip -/

namespace RawLeaf

variable (S : LeafSizes)

/-- The leaf after a whole write: `valid = 1`, every node version incremented, and all else as it was. -/
structure Incremented (leaf leaf' : RawLeaf) : Prop where
  nodeVersion : nodeVersion leaf'.metadata.hVersion = (nodeVersion leaf.metadata.hVersion + 1) % 16
  entryVersion : entryVersion leaf'.metadata.hVersion = entryVersion leaf.metadata.hVersion
  valid : leaf'.metadata.valid = 1
  siblingPtr : ∀ x < S.scatterMetadataSize - 2, leaf'.metadata.siblingPtr x = leaf.metadata.siblingPtr x
  recordNodeVersion : ∀ i < S.leafSpanSize, PackedVersion.nodeVersion (leaf'.records (i * S.leafEntrySize)) =
    (PackedVersion.nodeVersion (leaf.records (i * S.leafEntrySize)) + 1) % 16
  recordEntryVersion : ∀ i < S.leafSpanSize, PackedVersion.entryVersion (leaf'.records (i * S.leafEntrySize)) =
    PackedVersion.entryVersion (leaf.records (i * S.leafEntrySize))
  record : ∀ i < S.leafSpanSize, ∀ x, 0 < x → x < S.leafEntrySize →
    leaf'.records (i * S.leafEntrySize + x) = leaf.records (i * S.leafEntrySize + x)

variable {S} {leaf leaf' : RawLeaf} {version : Nat}

theorem incremented_spec (h : leaf.Uniform S version) : Incremented S leaf (leaf.incremented S) where
  nodeVersion := nodeVersion_setNodeVersion
  entryVersion := entryVersion_setNodeVersion
  valid := rfl
  siblingPtr _ _ := rfl
  recordNodeVersion i hi := by
    rw [(incremented_uniform h).records i hi, h.records i hi]
  recordEntryVersion i hi := by simp [incremented]
  record i hi x hpos hx := by
    have hmod : (i * S.leafEntrySize + x) % S.leafEntrySize = x := by
      rw [Nat.mul_comm, Nat.mul_add_mod, Nat.mod_eq_of_lt hx]
    have hne : x ≠ 0 := by omega
    simp [incremented, hmod, hne]

end RawLeaf

/-- **The round trip** of a leaf with one node version, whole and by segments. -/
theorem leaf_round_trip (S : LeafSizes) (leaf : RawLeaf) (version : Nat) (hleaf : leaf.Uniform S version)
    (inter out raw : Nat → UInt8)
    (hraw : ∀ x < S.transLeafSize, raw x = encodeNodeVersions S (encodeNodeMetadata S leaf inter) out x) :
    ∃ leaf', leaf.Incremented S leaf' ∧
      (∀ out₁ out₂, ∃ scattered leaf₁, decodeNodeVersions S raw out₁ = some scattered ∧
        decodeNodeMetadata S scattered out₂ = some leaf₁ ∧ leaf₁.Same S leaf') ∧
      ∀ s n, 0 < n → s + n ≤ S.leafSpanSize → ∀ buffer out₁ out₂, SegmentOf S s n raw buffer →
        ∃ segment records metadata, decodeSegment S s n buffer out₁ = some (segment, (version + 1) % 16) ∧
          decodeSegmentMetadata S segment out₂ (MetadataManager.getOffsetInfo S s n).1 n = some (records, metadata) ∧
          (∀ x < n * S.leafEntrySize, records x = leaf'.records (s * S.leafEntrySize + x)) ∧
          (metadata.isSome ↔ ∃ i, s ≤ i ∧ i < s + n ∧ S.neighborSize ∣ i) ∧
          ∀ m, metadata = some m → m.hVersion = leaf'.metadata.hVersion ∧ m.valid = leaf'.metadata.valid ∧
            ∀ x < S.scatterMetadataSize - 2, m.siblingPtr x = leaf'.metadata.siblingPtr x := by
  have hinter : ∀ p < S.decodedLeafSize, encodeNodeMetadata S leaf inter p = leaf.scattered S p :=
    fun p hp => encodeNodeMetadata_apply hp
  have henc := encodeNodeVersions_encoded hinter hraw
  have huniform := incremented_uniform hleaf
  refine ⟨leaf.incremented S, RawLeaf.incremented_spec hleaf, fun out₁ out₂ => ?_,
    fun s n hn hle buffer out₁ out₂ hbuf => ?_⟩
  · obtain ⟨scattered, hdec⟩ := Option.isSome_iff_exists.1 <|
      (decodeNodeVersions_isSome out₁).2 (henc.accepted huniform)
    have hscattered : ∀ p < S.decodedLeafSize, scattered p = (leaf.incremented S).scattered S p := fun p hp =>
      ((decodeNodeVersions_some hdec).2 p hp).trans (henc.decoded hp)
    obtain ⟨leaf₁, hleaf₁, hsame⟩ := decodeNodeMetadata_scattered hscattered out₂
    exact ⟨scattered, leaf₁, hdec, hleaf₁, hsame⟩
  · obtain ⟨⟨segment, v⟩, hdec⟩ := Option.isSome_iff_exists.1 <|
      (decodeSegment_isSome hn hbuf out₁).2 (henc.acceptedSegment huniform hn hle)
    obtain ⟨-, rfl, hsegment⟩ := decodeSegment_some hn hbuf hdec
    rw [henc.startVersion huniform (by omega)] at hdec
    have hend := decodedOffset_le (S := S) hle
    have hscattered : ∀ p < (MetadataManager.getOffsetInfo S s n).2,
        segment p = (leaf.incremented S).scattered S (decodedOffset S s + p) := by
      intro p hp
      rw [hsegment p hp, henc.decoded]
      rw [decodedOffset_add] at hend
      simp only [metadata_getOffsetInfo] at hp
      omega
    obtain ⟨records, metadata, hmeta, hrecords, hsome, hm⟩ := decodeSegmentMetadata_scattered hscattered out₂
    exact ⟨segment, records, metadata, hdec, hmeta, hrecords, hsome.trans sizeL_lt_iff, hm⟩

/-- The sizes of a small leaf. -/
def sampleSizes : LeafSizes :=
  ⟨5, 2, 19, 10, Nat.succ_pos 1, Nat.le_add_left 2 3, Nat.le_add_left 3 16, Nat.le_add_left 2 8⟩

/-- A leaf with node version 3, and five records with bytes of their own. -/
def sampleLeaf : RawLeaf :=
  ⟨⟨3, 1, fun x => .ofNat (x + 1)⟩, fun x => if x % 19 = 0 then pack 3 (x / 19) else .ofNat x⟩

theorem sampleLeaf_uniform : sampleLeaf.Uniform sampleSizes 3 := ⟨by decide, by decide⟩

/-- The leaf comes back, whole and the slots 1 to 3 of it, which are in two groups. -/
theorem leaf_round_trip_sample : ∃ raw leaf', sampleLeaf.Incremented sampleSizes leaf' ∧
    raw = encodeNodeVersions sampleSizes (encodeNodeMetadata sampleSizes sampleLeaf 0) 0 ∧
    (∃ scattered leaf₁, decodeNodeVersions sampleSizes raw 0 = some scattered ∧
      decodeNodeMetadata sampleSizes scattered 0 = some leaf₁ ∧ leaf₁.Same sampleSizes leaf') ∧
    ∃ segment records metadata, decodeSegment sampleSizes 1 3 (view raw 29) 0 = some (segment, 4) ∧
      decodeSegmentMetadata sampleSizes segment 0 19 3 = some (records, some metadata) ∧
      ∀ x < 3 * 19, records x = leaf'.records (1 * 19 + x) := by
  obtain ⟨leaf', hinc, hwhole, hslices⟩ := leaf_round_trip sampleSizes sampleLeaf 3 sampleLeaf_uniform 0 0 _ fun _ _ => rfl
  obtain ⟨segment, records, metadata, hdec, hmeta, hrecords, hsome, -⟩ :=
    hslices 1 3 (by decide) (by decide) (view _ 29) 0 0 fun _ _ => rfl
  obtain ⟨metadata, rfl⟩ := Option.isSome_iff_exists.1 (hsome.2 ⟨2, by decide, by decide, by decide⟩)
  exact ⟨_, leaf', hinc, rfl, hwhole 0 0, segment, records, metadata, hdec, hmeta, hrecords⟩

end Chime

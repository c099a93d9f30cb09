import Chime.NodeWrites
import Chime.LeafRoundTrip

/-!
# Writing a segment of an encoded leaf

A client that holds the lock of a leaf writes the records of a segment. `encodeSegment` gives the bytes that the image
of the patched leaf has there (`encodeSegment_spec`), and the image outside does not change (`image_outside`), so the
bytes of the leaf are the image of the patched leaf after the write (`Encoded.patch`).
-/

namespace Chime

open Frame Memory PackedVersion LeafVersionManager MetadataManager LeafSizes

variable {S : LeafSizes} {leaf writer : RawLeaf} {hopped : List Nat} {raw inter out : Nat → UInt8}
  {i g o p q s n x : Nat}

/-! ## Objects and segments -/

namespace LeafSizes

/-- No object is in two segments. -/
theorem decodedOffset_le_objectOffset : decodedOffset S i ≤ objectOffset S p ↔ decodedOffset S i ≤ p := by
  refine ⟨fun h => h.trans objectOffset_le, fun h => ?_⟩
  have hlt : p < start S.groupSize S.scatterMetadataSize 0 (p + 1) :=
    Nat.lt_of_lt_of_le (Nat.lt_succ_self p) (Nat.le_add_right _ _)
  rw [decodedOffset_eq] at h ⊢
  rcases raw_cases S.groupSize_pos hlt with ⟨q, -, rfl⟩ | ⟨g, o, ho, -, rfl⟩
  · have hx := Nat.mod_lt q S.leafEntrySize_pos
    have hpos := recordPos_eq (S := S) (i := q / S.leafEntrySize) hx
    rw [Nat.div_add_mod'] at hpos
    have hi : i ≤ q / S.leafEntrySize := by
      rw [Nat.le_div_iff_mul_le S.leafEntrySize_pos]
      refine Nat.le_of_not_lt fun hq => ?_
      have := pos_lt_start (b := S.groupSize) (w := S.scatterMetadataSize) (f := 0) hq
      omega
    have hrec := recordPos_eq (S := S) (i := q / S.leafEntrySize) S.leafEntrySize_pos
    rw [← hpos, recordPos, objectOffset_record (Nat.mod_lt _ S.neighborSize_pos) hx, ← recordPos,
      ← Nat.add_zero (S.recordPos _), hrec, Nat.add_zero]
    exact (start_mono (Nat.mul_le_mul_right _ hi)).trans start_le_pos
  · rw [← metadataOffset_eq, objectOffset_metadata ho, metadataOffset_eq, ← start_boundary S.groupSize_pos]
    refine start_mono (Nat.le_of_not_lt fun hg => ?_)
    have := markPos_lt_start S.groupSize_pos ho hg
    omega

variable (S) in
/-- The offset in the encoded leaf at which a segment that begins with a record begins. -/
def rawStart (i : Nat) : Nat := start blockSize versionSize S.firstOffset (decodedOffset S i)

theorem rawStart_mono (h : i ≤ n) : S.rawStart i ≤ S.rawStart n := by
  rw [rawStart, rawStart, decodedOffset_eq, decodedOffset_eq]
  exact start_mono (start_mono (Nat.mul_le_mul_right _ h))

theorem rawStart_leafSpanSize : S.rawStart S.leafSpanSize = S.transLeafSize := by
  rw [rawStart, transLeafSize_eq, decodedOffset_leafSpanSize]

/-- The raw bytes of a segment. -/
theorem getOffsetInfo_rawStart : (LeafVersionManager.getOffsetInfo S s n).1 = S.rawStart s ∧
    (LeafVersionManager.getOffsetInfo S s n).2.1 = S.rawStart (s + n) - S.rawStart s := by
  have hle : decodedOffset S s ≤ decodedOffset S (s + n) := by
    rw [decodedOffset_add]
    omega
  rw [getOffsetInfo_eq rfl rfl hle]
  exact ⟨rfl, rfl⟩

theorem objectOffset_lt_decodedOffset : objectOffset S p < decodedOffset S i ↔ p < decodedOffset S i := by
  rw [← Nat.not_le, ← Nat.not_le, decodedOffset_le_objectOffset]

end LeafSizes

/-! ## The entry versions -/

/-- The offsets of the records of a segment differ. -/
theorem segmentRecordPos_inj {q' : Nat} (hx : x < S.leafEntrySize) :
    S.segmentRecordPos s n q + x = S.segmentRecordPos s n q' ↔ q = q' ∧ x = 0 := by
  have hpos' := segmentRecordPos_eq (S := S) (s := s) (n := n) (q := q') S.leafEntrySize_pos
  rw [Nat.add_zero, Nat.add_zero] at hpos'
  rw [segmentRecordPos_eq hx, hpos', pos_inj]
  constructor
  · intro h
    have hq : q = q' := by
      have hdiv := congrArg (· / S.leafEntrySize) h
      simp only [Nat.mul_comm _ S.leafEntrySize, Nat.mul_add_div S.leafEntrySize_pos, Nat.div_eq_of_lt hx,
        Nat.mul_div_cancel_left _ S.leafEntrySize_pos, Nat.add_zero] at hdiv
      exact hdiv
    subst hq
    exact ⟨rfl, by omega⟩
  · rintro ⟨rfl, rfl⟩
    rfl

/-- The entry versions of hopped slots are incremented. -/
theorem incrementEntryVersions_record (hn : 0 < n) (hnodup : hopped.Nodup) (hq : q < n) (hx : x < S.leafEntrySize) :
    incrementEntryVersions S hopped s (s + n - 1) (S.sizeL s n * S.leafEntrySize) inter (S.segmentRecordPos s n q + x) =
      if x = 0 ∧ s + q ∈ hopped then incrementEntryVersion (inter (S.segmentRecordPos s n q + x))
      else inter (S.segmentRecordPos s n q + x) := by
  rw [incrementEntryVersions]
  induction hopped generalizing inter with
  | nil => simp
  | cons idx hopped ih =>
    obtain ⟨hnot, hnodup⟩ := List.nodup_cons.1 hnodup
    rw [List.foldl_cons, ih hnodup]
    by_cases hidx : s ≤ idx ∧ idx ≤ s + n - 1
    · obtain ⟨q', rfl⟩ := Nat.exists_eq_add_of_le hidx.1
      rw [if_pos hidx, ← segmentRecordPos]
      by_cases heq : q = q' ∧ x = 0
      · obtain ⟨rfl, rfl⟩ := heq
        rw [Nat.add_zero, Function.update_self, if_neg (fun h => hnot h.2), if_pos ⟨rfl, List.mem_cons_self⟩]
      · rw [Function.update_of_ne (mt (segmentRecordPos_inj hx).1 heq)]
        have hmem : (x = 0 ∧ s + q ∈ (s + q') :: hopped) ↔ (x = 0 ∧ s + q ∈ hopped) :=
          and_congr_right fun _ => by rw [List.mem_cons, or_iff_right (by omega)]
        simp only [hmem]
    · rw [if_neg hidx]
      have hmem : (x = 0 ∧ s + q ∈ idx :: hopped) ↔ (x = 0 ∧ s + q ∈ hopped) :=
        and_congr_right fun _ => by rw [List.mem_cons, or_iff_right (by omega)]
      simp only [hmem]

/-- The replicas of a segment keep their versions. -/
theorem incrementEntryVersions_metadata {a : Nat} (ho : o < S.scatterMetadataSize) :
    incrementEntryVersions S hopped s (s + n - 1) (S.sizeL s n * S.leafEntrySize) inter
      (S.sizeL s n * S.leafEntrySize + S.metadataOffset a + o) = inter
      (S.sizeL s n * S.leafEntrySize + S.metadataOffset a + o) := by
  have hmark : S.sizeL s n * S.leafEntrySize + S.metadataOffset a =
      markPos S.groupSize S.scatterMetadataSize (S.sizeL s n * S.leafEntrySize) a := by
    rw [metadataOffset_eq]
    simp only [markPos]
    omega
  rw [incrementEntryVersions]
  induction hopped generalizing inter with
  | nil => rfl
  | cons idx hopped ih =>
    rw [List.foldl_cons, ih]
    split
    · rename_i hidx
      obtain ⟨q, rfl⟩ := Nat.exists_eq_add_of_le hidx.1
      have hpos := segmentRecordPos_eq (S := S) (s := s) (n := n) (q := q) S.leafEntrySize_pos
      rw [Nat.add_zero] at hpos
      rw [← segmentRecordPos, Function.update_of_ne]
      rw [hmark, hpos]
      exact (pos_ne_markPos S.groupSize_pos ho).symm
    · rfl

/-! ## The patched leaf -/

namespace RawLeaf

variable (S) in
/-- The leaf with the records `[s, s + n)` of the writer, and the entry versions of its hopped slots incremented. -/
def patch (leaf writer : RawLeaf) (s n : Nat) (hopped : List Nat) : RawLeaf :=
  { leaf with records := fun x =>
      if s * S.leafEntrySize ≤ x ∧ x < (s + n) * S.leafEntrySize then
        if x % S.leafEntrySize = 0 ∧ x / S.leafEntrySize ∈ hopped then incrementEntryVersion (writer.records x)
        else writer.records x
      else leaf.records x }

variable (S) in
/-- The writer has the metadata of the leaf. -/
structure SameMetadata (leaf writer : RawLeaf) : Prop where
  hVersion : writer.metadata.hVersion = leaf.metadata.hVersion
  siblingPtr : ∀ x < S.scatterMetadataSize - 2, writer.metadata.siblingPtr x = leaf.metadata.siblingPtr x

theorem SameMetadata.scattered (h : SameMetadata S leaf writer) (ho : o < S.scatterMetadataSize) :
    writer.metadata.scattered o = leaf.metadata.scattered o := by
  match o with
  | 0 => exact h.hVersion
  | 1 => rfl
  | o + 2 => exact h.siblingPtr o (by omega)

/-- The patched leaf outside the segment. -/
theorem scattered_outside (h : p < decodedOffset S s ∨ decodedOffset S (s + n) ≤ p) :
    (leaf.patch S writer s n hopped).scattered S p = leaf.scattered S p := by
  rw [decodedOffset_eq, decodedOffset_eq] at h
  refine frame_congr_outside S.groupSize_pos (fun p hp => ?_) (fun k _ o ho => rfl) h
  exact if_neg (by omega)

theorem image_outside (h : x < S.rawStart s ∨
    S.rawStart (s + n) ≤ x) :
    (leaf.patch S writer s n hopped).image S x = leaf.image S x := by
  refine frame_congr_outside blockSize_pos (fun p hp => scattered_outside hp) (fun k hk o _ => scattered_outside ?_) h
  rwa [objectOffset_lt_decodedOffset, decodedOffset_le_objectOffset]

/-- **The segment** before its versions are encoded. -/
theorem encodeSegmentMetadata_apply (hmeta : SameMetadata S leaf writer)
    (hp : p < (MetadataManager.getOffsetInfo S s n).2) :
    encodeSegmentMetadata S (fun x => writer.records (s * S.leafEntrySize + x)) inter
      (MetadataManager.getOffsetInfo S s n).1 n
        writer.metadata p =
      ({ leaf with records := writer.records } : RawLeaf).scattered S (decodedOffset S s + p) := by
  simp only [metadata_getOffsetInfo] at hp ⊢
  have hle : s * S.leafEntrySize ≤ (s + n) * S.leafEntrySize := Nat.mul_le_mul_right _ (Nat.le_add_right s n)
  have hlen : (s + n) * S.leafEntrySize - s * S.leafEntrySize = n * S.leafEntrySize := by
    rw [← Nat.sub_mul, Nat.add_sub_cancel_left]
  rw [encodeSegmentMetadata, Nat.mul_comm S.leafEntrySize n, encode_apply S.groupSize_pos hp, RawLeaf.scattered,
    decodedOffset_eq,
    frame_slice S.groupSize_pos hle (by rwa [← sizeL_mul, hlen]), ← sizeL_mul]
  exact frame_congr S.groupSize_pos (fun _ _ => rfl) (fun k _ o ho => hmeta.scattered ho) hp

/-- The segment with its entry versions incremented is that of the patched leaf. -/
theorem incrementEntryVersions_apply (hn : 0 < n) (hnodup : hopped.Nodup) {segment : Nat → UInt8}
    (h : ∀ p < (MetadataManager.getOffsetInfo S s n).2,
      segment p = ({ leaf with records := writer.records } : RawLeaf).scattered S (decodedOffset S s + p))
    (hp : p < (MetadataManager.getOffsetInfo S s n).2) :
    incrementEntryVersions S hopped s (s + n - 1) (MetadataManager.getOffsetInfo S s n).1 segment p =
      (leaf.patch S writer s n hopped).scattered S (decodedOffset S s + p) := by
  have hseg := h p hp
  simp only [metadata_getOffsetInfo] at hp ⊢
  rcases segment_cases hp with ⟨a, o, ha, ho, rfl⟩ | ⟨q, x, hq, hx, rfl⟩
  · obtain ⟨g, -, -, hg⟩ := metadataOffset_segment ha
    rw [incrementEntryVersions_metadata ho, hseg, ← Nat.add_assoc, ← hg, scattered_metadata _ ho,
      scattered_metadata _ ho]
    rfl
  · rw [incrementEntryVersions_record hn hnodup hq hx, hseg, ← Nat.add_assoc, ← recordPos_add hq, scattered_record _ hx,
      scattered_record _ hx]
    have hlt : (s + q + 1) * S.leafEntrySize ≤ (s + n) * S.leafEntrySize := Nat.mul_le_mul_right _ (by omega)
    have hge : s * S.leafEntrySize ≤ (s + q) * S.leafEntrySize := Nat.mul_le_mul_right _ (Nat.le_add_right s q)
    rw [Nat.succ_mul] at hlt
    have hmod : ((s + q) * S.leafEntrySize + x) % S.leafEntrySize = x := by
      rw [Nat.mul_comm, Nat.mul_add_mod, Nat.mod_eq_of_lt hx]
    have hdiv : ((s + q) * S.leafEntrySize + x) / S.leafEntrySize = s + q := by
      rw [Nat.mul_comm, Nat.mul_add_div S.leafEntrySize_pos, Nat.div_eq_of_lt hx, Nat.add_zero]
    simp only [patch, hmod, hdiv]
    exact (if_pos ⟨by omega, by omega⟩).symm

variable (inter out) in
/-- **A segment** is encoded to the bytes of the image of the patched leaf. -/
theorem encodeSegment_spec (hmeta : SameMetadata S leaf writer) (hnodup : hopped.Nodup) (hn : 0 < n) :
    ∃ segment, encodeSegment S writer hopped s n inter out =
        (S.rawStart s,
          S.rawStart (s + n) -
            S.rawStart s, segment) ∧
      ∀ x, S.rawStart s + x <
          S.rawStart (s + n) →
        segment x = (leaf.patch S writer s n hopped).image S
          (S.rawStart s + x) := by
  have hadd := decodedOffset_add (S := S) (s := s) (n := n)
  have hle : decodedOffset S s ≤ decodedOffset S (s + n) := by omega
  have hinfo := getOffsetInfo_eq (S := S) (s := s) (n := n) rfl rfl hle
  have hlen : (MetadataManager.getOffsetInfo S s n).2 = decodedOffset S (s + n) - decodedOffset S s := by
    rw [metadata_getOffsetInfo]
    omega
  have hsegment {p : Nat} (hp : p < (MetadataManager.getOffsetInfo S s n).2) :
      incrementEntryVersions S hopped s (s + n - 1) (MetadataManager.getOffsetInfo S s n).1
          (encodeSegmentMetadata S (fun x => writer.records (s * S.leafEntrySize + x)) inter
            (MetadataManager.getOffsetInfo S s n).1 n writer.metadata) p =
        (leaf.patch S writer s n hopped).scattered S (decodedOffset S s + p) :=
    incrementEntryVersions_apply hn hnodup (fun p hp => encodeSegmentMetadata_apply hmeta hp) hp
  refine ⟨encodeSegmentVersions S (encodeSegmentMetadata S (fun x => writer.records (s * S.leafEntrySize + x)) inter
      (MetadataManager.getOffsetInfo S s n).1 n writer.metadata) out
    (first blockSize S.firstOffset (decodedOffset S s) (decodedOffset S (s + n))) hopped s (s + n - 1)
    (MetadataManager.getOffsetInfo S s n).1 (MetadataManager.getOffsetInfo S s n).2, ?_, fun x hx => ?_⟩
  · rw [encodeSegment, hinfo]
    rfl
  simp only [rawStart] at hx ⊢
  have hstart := slice_start (w := versionSize) (f := S.firstOffset) blockSize_pos hle le_rfl
  have hlt : x < start blockSize versionSize (first blockSize S.firstOffset (decodedOffset S s) (decodedOffset S (s + n)))
      (decodedOffset S (s + n) - decodedOffset S s) := by omega
  rw [encodeSegmentVersions, encode_apply blockSize_pos (by rwa [hlen]), image, frame_slice blockSize_pos hle hlt]
  refine frame_congr blockSize_pos (fun p hp => hsegment (by rwa [hlen])) (fun k hk o _ => ?_) hlt
  have hk' : boundary blockSize (first blockSize S.firstOffset (decodedOffset S s) (decodedOffset S (s + n))) k <
      (MetadataManager.getOffsetInfo S s n).2 := by rwa [hlen]
  have hobj := hsegment (Nat.lt_of_le_of_lt (segmentObjectOffset_le
    (S := S) (m := (MetadataManager.getOffsetInfo S s n).1)) hk')
  have hoff := hk'
  simp only [metadata_getOffsetInfo] at hoff hobj ⊢
  rw [objectOffset_segment hoff]
  exact hobj

/-- **Patching**: if the bytes of the segment are those of the patched leaf, and the others of the node as they were,
the node holds the patched leaf. -/
theorem Encoded.patch (h : leaf.Encoded S raw) {raw' : Nat → UInt8}
    (hpart : ∀ x, S.rawStart s + x <
      S.rawStart (s + n) →
      raw' (S.rawStart s + x) =
        (leaf.patch S writer s n hopped).image S (S.rawStart s + x))
    (hnode : ∀ x < S.transLeafSize, x < S.rawStart s ∨
      S.rawStart (s + n) ≤ x → raw' x = raw x) :
    (leaf.patch S writer s n hopped).Encoded S raw' := by
  intro x hx
  rcases Nat.lt_or_ge x (S.rawStart s) with hlo | hlo
  · rw [hnode x hx (.inl hlo), h x hx, image_outside (.inl hlo)]
  · obtain ⟨y, rfl⟩ := Nat.exists_eq_add_of_le hlo
    rcases Nat.lt_or_ge (S.rawStart s + y)
      (S.rawStart (s + n)) with hhi | hhi
    · exact hpart y hhi
    · rw [hnode _ hx (.inr hhi), h _ hx, image_outside (.inr hhi)]

/-! ### Records of the patched leaf -/

theorem patch_record (hx : x < S.leafEntrySize) :
    (leaf.patch S writer s n hopped).records (i * S.leafEntrySize + x) =
      if s ≤ i ∧ i < s + n then
        if x = 0 ∧ i ∈ hopped then incrementEntryVersion (writer.records (i * S.leafEntrySize + x))
        else writer.records (i * S.leafEntrySize + x)
      else leaf.records (i * S.leafEntrySize + x) := by
  have hmod : (i * S.leafEntrySize + x) % S.leafEntrySize = x := by
    rw [Nat.mul_comm, Nat.mul_add_mod, Nat.mod_eq_of_lt hx]
  have hdiv : (i * S.leafEntrySize + x) / S.leafEntrySize = i := by
    rw [Nat.mul_comm, Nat.mul_add_div S.leafEntrySize_pos, Nat.div_eq_of_lt hx, Nat.add_zero]
  have hs : s * S.leafEntrySize ≤ i * S.leafEntrySize + x ↔ s ≤ i := by
    rw [← Nat.le_div_iff_mul_le S.leafEntrySize_pos, hdiv]
  have he : i * S.leafEntrySize + x < (s + n) * S.leafEntrySize ↔ i < s + n := by
    rw [← Nat.div_lt_iff_lt_mul S.leafEntrySize_pos, hdiv]
  simp only [patch, hmod, hdiv, hs, he]

end RawLeaf

/-! ## The writes of a locked writer -/

/-- The slots of the records `[l, r]`, around the end of the leaf if `r < l`. -/
def InSegment (l r i : Nat) : Prop := if l ≤ r then l ≤ i ∧ i ≤ r else i ≤ r ∨ l ≤ i

instance (l r i : Nat) : Decidable (InSegment l r i) := by
  unfold InSegment
  infer_instance

/-- The segments that are written: the first record and the number of records. -/
def segments (S : LeafSizes) (l r : Nat) : List (Nat × Nat) :=
  if l ≤ r then [(l, r - l + 1)] else [(0, r + 1), (l, S.leafSpanSize - l)]

namespace RawLeaf

/-- The leaf with the records of the segment `[l, r]` replaced by the writer's; the entry versions of the hopped slots
are incremented. -/
structure Patched (S : LeafSizes) (leaf writer : RawLeaf) (l r : Nat) (hopped : List Nat) (leaf' : RawLeaf) : Prop where
  metadata : leaf'.metadata = leaf.metadata
  outside : ∀ i < S.leafSpanSize, ¬ InSegment l r i → ∀ x < S.leafEntrySize,
    leaf'.records (i * S.leafEntrySize + x) = leaf.records (i * S.leafEntrySize + x)
  inside : ∀ i < S.leafSpanSize, InSegment l r i → ∀ x, 0 < x → x < S.leafEntrySize →
    leaf'.records (i * S.leafEntrySize + x) = writer.records (i * S.leafEntrySize + x)
  nodeVersion : ∀ i < S.leafSpanSize,
    nodeVersion (leaf'.records (i * S.leafEntrySize)) = nodeVersion (leaf.records (i * S.leafEntrySize))
  entryVersion : ∀ i < S.leafSpanSize, entryVersion (leaf'.records (i * S.leafEntrySize)) =
    (entryVersion (leaf.records (i * S.leafEntrySize)) + if i ∈ hopped then 1 else 0) % 16

/-- What the regions of a write of the segment `[l, r]` do to a node that holds a leaf. -/
structure Patches (S : LeafSizes) (leaf writer : RawLeaf) (l r : Nat) (hopped : List Nat) (lockBuffer raw : Nat → UInt8)
    (rs : List Region) (leaf' : RawLeaf) : Prop where
  patched : leaf.Patched S writer l r hopped leaf'
  encoded : leaf'.Encoded S (writeBatch rs raw)
  decoded : ∀ out₁ out₂, ∃ scattered leaf₁, decodeNodeVersions S (writeBatch rs raw) out₁ = some scattered ∧
    decodeNodeMetadata S scattered out₂ = some leaf₁ ∧
    leaf₁.Same S { leaf' with metadata := { leaf'.metadata with valid := 1 } }
  unchanged : ∀ x < S.transLeafSize, (∀ seg ∈ segments S l r, x < (LeafVersionManager.getOffsetInfo S seg.1 seg.2).1 ∨
    (LeafVersionManager.getOffsetInfo S seg.1 seg.2).1 + (LeafVersionManager.getOffsetInfo S seg.1 seg.2).2.1 ≤ x) →
    writeBatch rs raw x = raw x
  region : ∀ reg ∈ rs, reg.dest + reg.size ≤ S.transLeafSize + allocationLockSize
  lock : ∀ i < lockSize, writeBatch rs raw (getLockInfo S.transLeafSize + i) = lockBuffer i

variable {l r version : Nat} {leaf' : RawLeaf} {lockBuffer : Nat → UInt8} {rbuf : Nat → Nat → UInt8}

/-- The versions of a patched leaf. -/
theorem Patched.uniform (h : leaf.Patched S writer l r hopped leaf') (hleaf : leaf.Uniform S version) :
    leaf'.Uniform S version :=
  ⟨by rw [h.metadata, hleaf.metadata], fun i hi => by rw [h.nodeVersion i hi, hleaf.records i hi]⟩

/-- A node that holds a leaf with one node version is decoded to the leaf. -/
theorem Encoded.decodes (h : leaf.Encoded S raw) (hleaf : leaf.Uniform S version) (out₁ out₂ : Nat → UInt8) :
    ∃ scattered leaf₁, decodeNodeVersions S raw out₁ = some scattered ∧
      decodeNodeMetadata S scattered out₂ = some leaf₁ ∧
      leaf₁.Same S { leaf with metadata := { leaf.metadata with valid := 1 } } := by
  obtain ⟨scattered, hdec⟩ := Option.isSome_iff_exists.1 ((decodeNodeVersions_isSome out₁).2 (h.accepted hleaf))
  have hscattered : ∀ p < S.decodedLeafSize, scattered p = leaf.scattered S p := fun p hp =>
    ((decodeNodeVersions_some hdec).2 p hp).trans (h.decoded hp)
  obtain ⟨leaf₁, hleaf₁, hsame⟩ := decodeNodeMetadata_scattered hscattered out₂
  exact ⟨scattered, leaf₁, hdec, hleaf₁, hsame⟩

/-- Records replaced in the segment, and hopped slots incremented. -/
theorem patched_of_records (hmetadata : leaf'.metadata = leaf.metadata) (hmem : ∀ i ∈ hopped, InSegment l r i)
    (hversion : ∀ i < S.leafSpanSize, InSegment l r i →
      writer.records (i * S.leafEntrySize) = leaf.records (i * S.leafEntrySize))
    (hrec : ∀ i < S.leafSpanSize, ∀ x < S.leafEntrySize, leaf'.records (i * S.leafEntrySize + x) =
      if InSegment l r i then
        if x = 0 ∧ i ∈ hopped then incrementEntryVersion (writer.records (i * S.leafEntrySize + x))
        else writer.records (i * S.leafEntrySize + x)
      else leaf.records (i * S.leafEntrySize + x)) :
    leaf.Patched S writer l r hopped leaf' := by
  have hfirst : ∀ i < S.leafSpanSize, leaf'.records (i * S.leafEntrySize) =
      if i ∈ hopped then incrementEntryVersion (leaf.records (i * S.leafEntrySize))
      else leaf.records (i * S.leafEntrySize) := by
    intro i hi
    have h := hrec i hi 0 S.leafEntrySize_pos
    simp only [Nat.add_zero, true_and] at h
    rw [h]
    by_cases hin : InSegment l r i
    · rw [if_pos hin, hversion i hi hin]
    · rw [if_neg hin, if_neg (mt (hmem i) hin)]
  refine ⟨hmetadata, fun i hi hout x hx => ?_, fun i hi hin x hpos hx => ?_, fun i hi => ?_, fun i hi => ?_⟩
  · rw [hrec i hi x hx, if_neg hout]
  · rw [hrec i hi x hx, if_pos hin, if_neg (by omega)]
  · rw [hfirst i hi]
    split
    · exact nodeVersion_incrementEntryVersion
    · rfl
  · rw [hfirst i hi]
    split
    · exact entryVersion_incrementEntryVersion
    · exact (Nat.mod_eq_of_lt entryVersion_lt).symm

/-- The bytes of the segment are written. -/
theorem Encoded.written (h : leaf.Encoded S raw) {segment raw' : Nat → UInt8}
    (hsegment : ∀ x, S.rawStart s + x < S.rawStart (s + n) →
      segment x = (leaf.patch S writer s n hopped).image S (S.rawStart s + x))
    (hpart : ∀ x < S.rawStart (s + n) - S.rawStart s, raw' (S.rawStart s + x) = segment x)
    (hnode : ∀ x < S.transLeafSize, x < S.rawStart s ∨ S.rawStart s + (S.rawStart (s + n) - S.rawStart s) ≤ x →
      raw' x = raw x) : (leaf.patch S writer s n hopped).Encoded S raw' := by
  have hmono : S.rawStart s ≤ S.rawStart (s + n) := rawStart_mono (Nat.le_add_right s n)
  refine h.patch (fun x hx => ?_) fun x hx hout => hnode x hx (by omega)
  rw [hpart x (by omega), hsegment x hx]

/-- **One segment.** -/
theorem patches_of_le (hleaf : leaf.Uniform S version) (hraw : leaf.Encoded S raw) (hmeta : SameMetadata S leaf writer)
    (hl : l ≤ r) (hr : r < S.leafSpanSize) (hnodup : hopped.Nodup) (hmem : ∀ i ∈ hopped, InSegment l r i)
    (hversion : ∀ i < S.leafSpanSize, InSegment l r i →
      writer.records (i * S.leafEntrySize) = leaf.records (i * S.leafEntrySize)) :
    ∃ leaf', Patches S leaf writer l r hopped lockBuffer raw (writer.segmentWriteAndUnlock S l r hopped lockBuffer rbuf)
      leaf' := by
  obtain ⟨segment, hsegment, hbytes⟩ :=
    encodeSegment_spec (rbuf 1) (rbuf 0) hmeta hnodup (Nat.succ_pos (r - l)) (s := l)
  have hend : l + (r - l + 1) = r + 1 := by omega
  have hmono : S.rawStart l ≤ S.rawStart (r + 1) := rawStart_mono (by omega)
  have hle : S.rawStart (r + 1) ≤ S.transLeafSize := rawStart_leafSpanSize (S := S) ▸ rawStart_mono hr
  have hrs : writer.segmentWriteAndUnlock S l r hopped lockBuffer rbuf = partRegions S.transLeafSize
      (r == S.leafSpanSize - 1) (S.rawStart l) (S.rawStart (r + 1) - S.rawStart l) segment lockBuffer := by
    rw [segmentWriteAndUnlock, if_pos hl, hsegment, hend]
  have hpart : S.rawStart l + (S.rawStart (r + 1) - S.rawStart l) ≤ S.transLeafSize := by omega
  have hlast : (r == S.leafSpanSize - 1) = true →
      S.rawStart l + (S.rawStart (r + 1) - S.rawStart l) = S.transLeafSize := by
    intro h
    rw [beq_iff_eq] at h
    rw [Nat.add_sub_cancel' hmono, ← rawStart_leafSpanSize]
    congr 1
    omega
  have hwritten : Written S.transLeafSize (S.rawStart l) (S.rawStart (r + 1) - S.rawStart l) segment lockBuffer raw
      (writeBatch (writer.segmentWriteAndUnlock S l r hopped lockBuffer rbuf) raw) := by
    rw [hrs]
    exact partRegions_written hpart hlast
  have hpatched : leaf.Patched S writer l r hopped (leaf.patch S writer l (r - l + 1) hopped) := by
    refine patched_of_records rfl hmem hversion fun i _ x hx => ?_
    rw [patch_record hx]
    refine if_congr ?_ rfl rfl
    rw [InSegment, if_pos hl]
    omega
  have hencoded := hraw.written hbytes (by rw [hend]; exact hwritten.part) (by rw [hend]; exact hwritten.node)
  refine ⟨_, hpatched, hencoded, hencoded.decodes (hpatched.uniform hleaf), fun x hx hout => ?_, fun reg hreg => ?_,
    hwritten.lock⟩
  · have := hout (l, r - l + 1) (by rw [segments, if_pos hl]; exact List.mem_singleton.2 rfl)
    rw [getOffsetInfo_rawStart.1, getOffsetInfo_rawStart.2, hend] at this
    exact hwritten.node x hx this
  · rw [hrs] at hreg
    exact partRegions_le hpart hreg

/-- **Two segments**, around the end of the leaf. -/
theorem patches_of_lt (hleaf : leaf.Uniform S version) (hraw : leaf.Encoded S raw) (hmeta : SameMetadata S leaf writer)
    (hl : r < l) (hlN : l < S.leafSpanSize) (hnodup : hopped.Nodup) (hmem : ∀ i ∈ hopped, InSegment l r i)
    (hversion : ∀ i < S.leafSpanSize, InSegment l r i →
      writer.records (i * S.leafEntrySize) = leaf.records (i * S.leafEntrySize)) :
    ∃ leaf', Patches S leaf writer l r hopped lockBuffer raw (writer.segmentWriteAndUnlock S l r hopped lockBuffer rbuf)
      leaf' := by
  have hmeta₁ : SameMetadata S (leaf.patch S writer 0 (r + 1) hopped) writer := ⟨hmeta.hVersion, hmeta.siblingPtr⟩
  obtain ⟨segment₁, hsegment₁, hbytes₁⟩ := encodeSegment_spec (rbuf 2) (rbuf 0) hmeta hnodup (Nat.succ_pos r) (s := 0)
  obtain ⟨segment₂, hsegment₂, hbytes₂⟩ := encodeSegment_spec (rbuf 3) (rbuf 1) hmeta₁ hnodup
    (show 0 < S.leafSpanSize - l by omega) (s := l)
  have hend : l + (S.leafSpanSize - l) = S.leafSpanSize := by omega
  rw [Nat.zero_add] at hsegment₁ hbytes₁
  rw [hend, rawStart_leafSpanSize] at hsegment₂ hbytes₂
  have hmono₁ : S.rawStart 0 ≤ S.rawStart (r + 1) := rawStart_mono (Nat.zero_le _)
  have hmono₂ : S.rawStart (r + 1) ≤ S.rawStart l := rawStart_mono hl
  have hle : S.rawStart l ≤ S.transLeafSize := rawStart_leafSpanSize (S := S) ▸ rawStart_mono hlN.le
  have hrs : writer.segmentWriteAndUnlock S l r hopped lockBuffer rbuf =
      ⟨S.rawStart 0, segment₁, S.rawStart (r + 1) - S.rawStart 0⟩ ::
        partRegions S.transLeafSize true (S.rawStart l) (S.transLeafSize - S.rawStart l) segment₂ lockBuffer := by
    rw [segmentWriteAndUnlock, if_neg (by omega), hsegment₁, hsegment₂]
  have hpart : S.rawStart l + (S.transLeafSize - S.rawStart l) = S.transLeafSize := by omega
  -- the first region
  have hfirst : (leaf.patch S writer 0 (r + 1) hopped).Encoded S
      (copy raw (S.rawStart 0) segment₁ 0 (S.rawStart (r + 1) - S.rawStart 0)) := by
    refine hraw.written (by rwa [Nat.zero_add]) (fun x hx => ?_) fun x _ hout => ?_
    · rw [Nat.zero_add] at hx
      rw [copy_apply (by omega), Nat.add_sub_cancel_left, Nat.zero_add]
    · rw [Nat.zero_add] at hout
      exact copy_of_not (by omega)
  have hwritten : Written S.transLeafSize (S.rawStart l) (S.transLeafSize - S.rawStart l) segment₂ lockBuffer
      (copy raw (S.rawStart 0) segment₁ 0 (S.rawStart (r + 1) - S.rawStart 0))
      (writeBatch (writer.segmentWriteAndUnlock S l r hopped lockBuffer rbuf) raw) := by
    rw [hrs]
    exact partRegions_written hpart.le fun _ => hpart
  have hpatched : leaf.Patched S writer l r hopped
      ((leaf.patch S writer 0 (r + 1) hopped).patch S writer l (S.leafSpanSize - l) hopped) := by
    refine patched_of_records rfl hmem hversion fun i hi x hx => ?_
    have hin : InSegment l r i ↔ i ≤ r ∨ l ≤ i := by rw [InSegment, if_neg (show ¬ l ≤ r by omega)]
    rw [patch_record hx, patch_record hx]
    by_cases hli : l ≤ i
    · rw [if_pos (by omega), if_pos (hin.2 (.inr hli))]
    · rw [if_neg (by omega)]
      refine if_congr ?_ rfl rfl
      rw [hin]
      omega
  have hencoded := hfirst.written (n := S.leafSpanSize - l) (by rwa [hend, rawStart_leafSpanSize])
    (by rw [hend, rawStart_leafSpanSize]; exact hwritten.part)
    (by rw [hend, rawStart_leafSpanSize]; exact hwritten.node)
  refine ⟨_, hpatched, hencoded, hencoded.decodes (hpatched.uniform hleaf), fun x hx hout => ?_, fun reg hreg => ?_,
    hwritten.lock⟩
  · rw [segments, if_neg (show ¬ l ≤ r by omega)] at hout
    have hout₁ := hout (0, r + 1) (by simp)
    have hout₂ := hout (l, S.leafSpanSize - l) (by simp)
    simp only [getOffsetInfo_rawStart.1, getOffsetInfo_rawStart.2, Nat.zero_add] at hout₁
    simp only [getOffsetInfo_rawStart.1, getOffsetInfo_rawStart.2, hend, rawStart_leafSpanSize] at hout₂
    rw [hwritten.node x hx hout₂]
    exact copy_of_not (by omega)
  · rw [hrs] at hreg
    rcases List.mem_cons.1 hreg with rfl | hreg
    · simp only
      omega
    · exact partRegions_le hpart.le hreg

/-- Any segment. -/
theorem patches_segment (hleaf : leaf.Uniform S version) (hraw : leaf.Encoded S raw)
    (hmeta : SameMetadata S leaf writer)
    (hl : l < S.leafSpanSize) (hr : r < S.leafSpanSize) (hnodup : hopped.Nodup) (hmem : ∀ i ∈ hopped, InSegment l r i)
    (hversion : ∀ i < S.leafSpanSize, InSegment l r i →
      writer.records (i * S.leafEntrySize) = leaf.records (i * S.leafEntrySize)) :
    ∃ leaf', Patches S leaf writer l r hopped lockBuffer raw (writer.segmentWriteAndUnlock S l r hopped lockBuffer rbuf)
      leaf' := by
  rcases Nat.lt_or_ge r l with hlt | hle
  · exact patches_of_lt hleaf hraw hmeta hlt hl hnodup hmem hversion
  · exact patches_of_le hleaf hraw hmeta hle hr hnodup hmem hversion

/-- The write of an entry is that of the segment of its record. -/
theorem entryWriteAndUnlock_eq {idx : Nat} {kv : Nat → UInt8} : writer.entryWriteAndUnlock S idx kv lockBuffer rbuf =
    (writer.update S idx kv).segmentWriteAndUnlock S idx idx [idx] lockBuffer rbuf := by
  rw [segmentWriteAndUnlock, if_pos le_rfl, Nat.sub_self]
  rfl

theorem inSegment_self {idx : Nat} : InSegment idx idx i ↔ i = idx := by
  rw [InSegment, if_pos le_rfl]
  omega

/-- The write of an entry. -/
theorem patches_entry (hleaf : leaf.Uniform S version) (hraw : leaf.Encoded S raw) (hmeta : SameMetadata S leaf writer)
    {idx : Nat} {kv : Nat → UInt8} (hidx : idx < S.leafSpanSize)
    (hversion : writer.records (idx * S.leafEntrySize) = leaf.records (idx * S.leafEntrySize)) :
    ∃ leaf', Patches S leaf (writer.update S idx kv) idx idx [idx] lockBuffer raw
      (writer.entryWriteAndUnlock S idx kv lockBuffer rbuf) leaf' := by
  rw [entryWriteAndUnlock_eq]
  refine patches_segment hleaf hraw ⟨hmeta.hVersion, hmeta.siblingPtr⟩ hidx hidx (List.nodup_singleton idx)
    (fun i hi => inSegment_self.2 (List.mem_singleton.1 hi)) fun i _ hin => ?_
  obtain rfl := inSegment_self.1 hin
  rw [← hversion]
  exact copy_of_not (by omega)

end RawLeaf

/-- **Writes of a locked writer** patch the encoded leaf. -/
theorem writes_patch_leaf (S : LeafSizes) (leaf : RawLeaf) (version : Nat) (raw : Nat → UInt8)
    (hleaf : leaf.Uniform S version)
    (hraw : leaf.Encoded S raw) (writer : RawLeaf) (hmeta : RawLeaf.SameMetadata S leaf writer)
    (lockBuffer : Nat → UInt8)
    (rbuf : Nat → Nat → UInt8) :
    (∀ l r hopped, l < S.leafSpanSize → r < S.leafSpanSize → hopped.Nodup → (∀ i ∈ hopped, InSegment l r i) →
      (∀ i < S.leafSpanSize, InSegment l r i →
        writer.records (i * S.leafEntrySize) = leaf.records (i * S.leafEntrySize)) →
      ∃ leaf', RawLeaf.Patches S leaf writer l r hopped lockBuffer raw
        (writer.segmentWriteAndUnlock S l r hopped lockBuffer rbuf) leaf') ∧
    ∀ idx kv, idx < S.leafSpanSize → writer.records (idx * S.leafEntrySize) = leaf.records (idx * S.leafEntrySize) →
      ∃ leaf', RawLeaf.Patches S leaf (writer.update S idx kv) idx idx [idx] lockBuffer raw
        (writer.entryWriteAndUnlock S idx kv lockBuffer rbuf) leaf' := by
  exact ⟨fun l r hopped hl hr hnodup hmem hversion =>
      RawLeaf.patches_segment hleaf hraw hmeta hl hr hnodup hmem hversion,
    fun idx kv hidx hversion => RawLeaf.patches_entry hleaf hraw hmeta hidx hversion⟩

/-- The leaf of a writer that has changed the key and the value of record 4, and a hop bitmap in record 0. -/
def sampleWriter : RawLeaf :=
  { sampleLeaf with records := fun x =>
      if 4 * 19 + 3 ≤ x ∧ x < 5 * 19 then .ofNat (x + 100) else if x = 1 then 9 else sampleLeaf.records x }

/-- The write of the last and of the first record. -/
theorem writes_patch_leaf_sample : ∃ leaf', RawLeaf.Patches sampleSizes sampleLeaf sampleWriter 4 0 [4] (fun _ => 0)
    (sampleLeaf.image sampleSizes)
    (sampleWriter.segmentWriteAndUnlock sampleSizes 4 0 [4] (fun _ => 0) fun _ _ => 0) leaf' := by
  have hversion : ∀ i < 5, sampleWriter.records (i * 19) = sampleLeaf.records (i * 19) := by decide
  exact (writes_patch_leaf sampleSizes sampleLeaf 3 (sampleLeaf.image sampleSizes) sampleLeaf_uniform (fun _ _ => rfl)
    sampleWriter ⟨rfl, fun _ _ => rfl⟩ (fun _ => 0) fun _ _ => 0).1 4 0 [4] (by decide) (by decide) (by decide)
      (by decide) fun i hi _ => hversion i hi

end Chime

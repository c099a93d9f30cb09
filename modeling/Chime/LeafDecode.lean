import Chime.LeafImage

/-!
# What the decoders of a leaf accept

A decoder reads the payload of the raw bytes (`decodeNodeVersions_some`, `decodeSegmentVersions_some`) and accepts them
if the mark in front of every block is the version of the object there, and all node versions are one: `Accepted` for a
whole leaf (`decodeNodeVersions_isSome`), `AcceptedSegment` for the records from `s` on
(`decodeSegmentVersions_isSome`), both on the raw bytes of the leaf.
-/

namespace Chime

open Frame PackedVersion LeafVersionManager LeafSizes

variable (S : LeafSizes)

/-- The decoded leaf in raw bytes. -/
def decoded (raw : Nat → UInt8) : Nat → UInt8 := unframe blockSize versionSize S.firstOffset raw

/-- The mark in front of a block has the version of the object that covers the first byte of the block. -/
def MarkOk (raw : Nat → UInt8) (k : Nat) : Prop :=
  decoded S raw (objectOffset S (boundary blockSize S.firstOffset k)) =
    raw (markPos blockSize versionSize S.firstOffset k)

/-- What `decode_node_versions` accepts. -/
structure Accepted (raw : Nat → UInt8) : Prop where
  marks : ∀ k, boundary blockSize S.firstOffset k < S.decodedLeafSize → MarkOk S raw k
  groups : ∀ g < S.entryGroupNum, nodeVersionAt (decoded S raw) (S.metadataOffset g) = nodeVersionAt (decoded S raw) 0
  records : ∀ i < S.leafSpanSize, nodeVersionAt (decoded S raw) (S.recordPos i) = nodeVersionAt (decoded S raw) 0

/-- What `decode_segment_versions` accepts, for the `n` records from `s` on. -/
structure AcceptedSegment (s n : Nat) (raw : Nat → UInt8) : Prop where
  marks : ∀ k, decodedOffset S s ≤ boundary blockSize S.firstOffset k →
    boundary blockSize S.firstOffset k < decodedOffset S (s + n) → MarkOk S raw k
  groups : ∀ g, s * S.leafEntrySize ≤ boundary S.groupSize 0 g → boundary S.groupSize 0 g < (s + n) * S.leafEntrySize →
    nodeVersionAt (decoded S raw) (S.metadataOffset g) = nodeVersionAt (decoded S raw) (decodedOffset S s)
  records : ∀ i, s ≤ i → i < s + n →
    nodeVersionAt (decoded S raw) (S.recordPos i) = nodeVersionAt (decoded S raw) (decodedOffset S s)

variable {S} {raw inp out out' : Nat → UInt8} {s n p : Nat}

theorem objectOffset_le : objectOffset S p ≤ p := by
  have hdiv := Nat.div_mul_le_self p S.leafEntryGroupSize
  have hrec := Nat.div_mul_le_self (p - S.recordOffset (p / S.leafEntryGroupSize) 0) S.leafEntrySize
  simp only [objectOffset]
  split
  · exact hdiv
  · simp only [recordOffset] at *
    omega

theorem segmentObjectOffset_le {m : Nat} : segmentObjectOffset S m p ≤ p := by
  have hrec := Nat.div_mul_le_self p S.leafEntrySize
  have hdiv := Nat.div_add_mod (p - m) S.leafEntryGroupSize
  have hoff := Nat.div_mul_le_self ((p - m) % S.leafEntryGroupSize - S.scatterMetadataSize) S.leafEntrySize
  rw [Nat.mul_comm] at hdiv
  simp only [segmentObjectOffset]
  split
  · exact hrec
  · split
    · simp only [metadataOffset]
      omega
    · simp only [recordOffset]
      omega

/-! ## The whole leaf -/

theorem jointCheck_iff : jointCheck S out = true ↔
    (∀ g < S.entryGroupNum, nodeVersionAt out (S.metadataOffset g) = nodeVersionAt out 0) ∧
      ∀ i < S.leafSpanSize, nodeVersionAt out (S.recordPos i) = nodeVersionAt out 0 := by
  simp only [jointCheck, List.all_eq_true, List.mem_range, Bool.and_eq_true, Bool.or_eq_true, decide_eq_true_eq,
    beq_iff_eq]
  constructor
  · refine fun h => ⟨fun g hg => (h g hg).1, fun i hi => ?_⟩
    have hg : i / S.neighborSize < S.entryGroupNum := by
      rw [Nat.div_lt_iff_lt_mul S.neighborSize_pos]
      exact Nat.lt_of_lt_of_le hi S.leafSpanSize_le
    have hj := Nat.mod_lt i S.neighborSize_pos
    refine ((h _ hg).2 _ hj).resolve_left ?_
    rw [Nat.div_add_mod']
    omega
  · refine fun ⟨hgroups, hrecords⟩ g hg => ⟨hgroups g hg, fun j hj => ?_⟩
    rcases Nat.lt_or_ge (g * S.neighborSize + j) S.leafSpanSize with h | h
    · refine .inr ?_
      have := hrecords _ h
      rwa [recordPos, Nat.mul_comm, Nat.mul_add_div S.neighborSize_pos, Nat.div_eq_of_lt hj, Nat.add_zero,
        Nat.mul_add_mod,
        Nat.mod_eq_of_lt hj] at this
    · exact .inl h

/-- The joint check reads the decoded leaf only. -/
theorem jointCheck_congr (h : ∀ p < S.decodedLeafSize, out p = out' p) : jointCheck S out = jointCheck S out' := by
  have hzero : out 0 = out' 0 := h 0 (by
    have := recordPos_lt (S := S) (i := 0) S.leafSpanSize_pos S.leafEntrySize_pos
    omega)
  refine Bool.eq_iff_iff.2 ?_
  rw [jointCheck_iff, jointCheck_iff]
  refine and_congr (forall₂_congr fun g hg => ?_) (forall₂_congr fun i hi => ?_)
  · have hg := h _ (metadataOffset_lt hg S.scatterMetadataSize_pos)
    rw [Nat.add_zero] at hg
    rw [nodeVersionAt, nodeVersionAt, nodeVersionAt, nodeVersionAt, hzero, hg]
  · have hi := h _ (recordPos_lt hi S.leafEntrySize_pos)
    rw [Nat.add_zero] at hi
    rw [nodeVersionAt, nodeVersionAt, nodeVersionAt, nodeVersionAt, hzero, hi]

variable (S inp out) in
/-- The loop of `decode_node_versions`. -/
theorem decodeNode_spec :
    (∀ out', Frame.decode blockSize versionSize S.firstOffset S.decodedLeafSize
        (fun out j i => out (objectOffset S j) == inp i) inp out = some out' →
      ∀ p < S.decodedLeafSize, out' p = decoded S inp p) ∧
    ((Frame.decode blockSize versionSize S.firstOffset S.decodedLeafSize
        (fun out j i => out (objectOffset S j) == inp i) inp out).isSome ↔
      ∀ k, boundary blockSize S.firstOffset k < S.decodedLeafSize → MarkOk S inp k) := by
  have hlocal := local_mark (g := objectOffset S) (fun _ => objectOffset_le) inp
  refine ⟨(decode_spec blockSize_pos hlocal).1, (decode_spec blockSize_pos hlocal).2.trans ?_⟩
  exact forall₂_congr fun k hk => beq_iff_eq

/-- What an accepted leaf is decoded to. -/
theorem decodeNodeVersions_some (h : decodeNodeVersions S inp out = some out') :
    Accepted S inp ∧ ∀ p < S.decodedLeafSize, out' p = decoded S inp p := by
  obtain ⟨hdec, hjoint⟩ := Option.filter_eq_some_iff.1 h
  obtain ⟨hout, hsome⟩ := decodeNode_spec S inp out
  have hout := hout out' hdec
  rw [jointCheck_congr hout, jointCheck_iff] at hjoint
  exact ⟨⟨hsome.1 (by rw [hdec]; rfl), hjoint.1, hjoint.2⟩, hout⟩

/-- **Acceptance** of a leaf. -/
theorem decodeNodeVersions_isSome (out : Nat → UInt8) : (decodeNodeVersions S inp out).isSome ↔ Accepted S inp := by
  constructor
  · intro h
    obtain ⟨out', hout⟩ := Option.isSome_iff_exists.1 h
    exact (decodeNodeVersions_some hout).1
  · intro h
    obtain ⟨hout, hsome⟩ := decodeNode_spec S inp out
    obtain ⟨out', hdec⟩ := Option.isSome_iff_exists.1 (hsome.2 h.marks)
    have hjoint : jointCheck S out' = true := by
      rw [jointCheck_congr (hout out' hdec), jointCheck_iff]
      exact ⟨h.groups, h.records⟩
    exact Option.isSome_iff_exists.2 ⟨out', Option.filter_eq_some_iff.2 ⟨hdec, hjoint⟩⟩

/-! ## Segments -/

theorem sizeL_le : S.sizeL s n ≤ n := Nat.min_le_right _ _

/-- The number of groups of a segment. -/
theorem boundary_lt_segment {a : Nat} : boundary S.groupSize (S.sizeL s n * S.leafEntrySize) a < n * S.leafEntrySize ↔
    a < (n - S.sizeL s n + (S.neighborSize - 1)) / S.neighborSize := by
  rw [← marks_records, boundary_lt_iff S.groupSize_pos, marks, marks, Nat.sub_zero, Nat.sub_mul]

theorem segmentRecordPos_of_lt {q : Nat} (h : q < S.sizeL s n) : S.segmentRecordPos s n q = q * S.leafEntrySize := by
  simp only [segmentRecordPos, segmentRecordOffset, Nat.mul_div_cancel _ S.leafEntrySize_pos, Nat.add_sub_cancel_left]
  exact if_pos h

theorem segmentRecordPos_add {t : Nat} : S.segmentRecordPos s n (S.sizeL s n + t) =
    S.sizeL s n * S.leafEntrySize + S.recordOffset (t / S.neighborSize) (t % S.neighborSize) := by
  simp only [segmentRecordPos, segmentRecordOffset, Nat.mul_div_cancel _ S.leafEntrySize_pos, Nat.add_sub_cancel_left]
  exact if_neg (by omega)

theorem segmentJointCheck_iff : segmentJointCheck S n (S.sizeL s n * S.leafEntrySize) out = true ↔
    (∀ a, boundary S.groupSize (S.sizeL s n * S.leafEntrySize) a < n * S.leafEntrySize →
      nodeVersionAt out (S.sizeL s n * S.leafEntrySize + S.metadataOffset a) = nodeVersionAt out 0) ∧
    ∀ q < n, nodeVersionAt out (S.segmentRecordPos s n q) = nodeVersionAt out 0 := by
  simp only [segmentJointCheck, Nat.mul_div_cancel _ S.leafEntrySize_pos, ceilDiv_eq S.neighborSize_pos,
    List.all_eq_true,
    List.mem_range, Bool.and_eq_true, Bool.or_eq_true, decide_eq_true_eq, beq_iff_eq, ← boundary_lt_segment]
  constructor
  · rintro ⟨hleft, hgroups⟩
    refine ⟨fun a ha => (hgroups a ha).1, fun q hq => ?_⟩
    rcases Nat.lt_or_ge q (S.sizeL s n) with h | h
    · rw [segmentRecordPos_of_lt h]
      exact hleft q h
    · obtain ⟨t, rfl⟩ := Nat.exists_eq_add_of_le h
      have ha : boundary S.groupSize (S.sizeL s n * S.leafEntrySize) (t / S.neighborSize) < n * S.leafEntrySize := by
        have hlt : (S.sizeL s n + t) * S.leafEntrySize < n * S.leafEntrySize :=
          Nat.mul_lt_mul_of_pos_right hq S.leafEntrySize_pos
        have hle := mul_leafEntrySize (S := S) (i := t)
        simp only [boundary] at hle ⊢
        rw [Nat.add_mul] at hlt
        omega
      rw [segmentRecordPos_add]
      refine ((hgroups _ ha).2 _ (Nat.mod_lt _ S.neighborSize_pos)).resolve_left ?_
      rw [Nat.div_add_mod']
      omega
  · rintro ⟨hgroups, hrecords⟩
    refine ⟨fun q hq => ?_, fun a ha => ⟨hgroups a ha, fun j hj => ?_⟩⟩
    · rw [← segmentRecordPos_of_lt hq]
      exact hrecords q (Nat.lt_of_lt_of_le hq sizeL_le)
    · rcases Nat.lt_or_ge (a * S.neighborSize + j) (n - S.sizeL s n) with h | h
      · refine .inr ?_
        have hrec := hrecords (S.sizeL s n + (a * S.neighborSize + j)) (by omega)
        rwa [segmentRecordPos_add, Nat.mul_comm a, Nat.mul_add_div S.neighborSize_pos, Nat.div_eq_of_lt hj,
          Nat.add_zero,
          Nat.mul_add_mod, Nat.mod_eq_of_lt hj] at hrec
      · exact .inl h

/-- The joint check on the part of a decoded leaf. -/
theorem segmentJointCheck_decoded {buffer : Nat → UInt8} (hn : 0 < n)
    (h : ∀ p < start S.groupSize S.scatterMetadataSize (S.sizeL s n * S.leafEntrySize) (n * S.leafEntrySize),
      out p = buffer (decodedOffset S s + p)) :
    segmentJointCheck S n (S.sizeL s n * S.leafEntrySize) out = true ↔
      (∀ g, s * S.leafEntrySize ≤ boundary S.groupSize 0 g → boundary S.groupSize 0 g < (s + n) * S.leafEntrySize →
        nodeVersionAt buffer (S.metadataOffset g) = nodeVersionAt buffer (decodedOffset S s)) ∧
      ∀ i, s ≤ i → i < s + n → nodeVersionAt buffer (S.recordPos i) = nodeVersionAt buffer (decodedOffset S s) := by
  have hpos : 0 < n * S.leafEntrySize := Nat.mul_pos hn S.leafEntrySize_pos
  have hzero : nodeVersionAt out 0 = nodeVersionAt buffer (decodedOffset S s) := by
    have hlt : 0 < start S.groupSize S.scatterMetadataSize (S.sizeL s n * S.leafEntrySize) (n * S.leafEntrySize) :=
      Nat.lt_of_lt_of_le hpos (Nat.le_add_right _ _)
    rw [nodeVersionAt, nodeVersionAt, h 0 hlt, Nat.add_zero]
  have hgroup {a : Nat} (ha : boundary S.groupSize (S.sizeL s n * S.leafEntrySize) a < n * S.leafEntrySize) :
      nodeVersionAt out (S.sizeL s n * S.leafEntrySize + S.metadataOffset a) =
        nodeVersionAt buffer (decodedOffset S s + (S.sizeL s n * S.leafEntrySize + S.metadataOffset a)) := by
    have hlt := markPos_lt_start S.groupSize_pos S.scatterMetadataSize_pos ha
    have heq : S.sizeL s n * S.leafEntrySize + S.metadataOffset a =
        markPos S.groupSize S.scatterMetadataSize (S.sizeL s n * S.leafEntrySize) a := by
      rw [metadataOffset_eq]
      simp only [markPos]
      omega
    rw [nodeVersionAt, nodeVersionAt, h _ (by rw [heq]; exact hlt)]
  have hrecord {q : Nat} (hq : q < n) : nodeVersionAt out (S.segmentRecordPos s n q) =
      nodeVersionAt buffer (S.recordPos (s + q)) := by
    have hseg := segmentRecordPos_eq (S := S) (s := s) (n := n) (q := q) S.leafEntrySize_pos
    have hlt : q * S.leafEntrySize < n * S.leafEntrySize := Nat.mul_lt_mul_of_pos_right hq S.leafEntrySize_pos
    rw [Nat.add_zero, Nat.add_zero] at hseg
    rw [nodeVersionAt, nodeVersionAt, recordPos_add hq, h]
    rw [hseg]
    exact pos_lt_start hlt
  rw [segmentJointCheck_iff, hzero]
  have hlen : (s + n) * S.leafEntrySize - s * S.leafEntrySize = n * S.leafEntrySize := by
    rw [← Nat.sub_mul, Nat.add_sub_cancel_left]
  refine and_congr ⟨fun hall g hs he => ?_, fun hall a ha => ?_⟩ ⟨fun hall i hs he => ?_, fun hall q hq => ?_⟩
  · obtain ⟨a, rfl, hbound, hmark⟩ := slice_boundary (w := S.scatterMetadataSize) S.groupSize_pos hs he
    rw [← sizeL_mul] at hbound hmark
    have ha : boundary S.groupSize (S.sizeL s n * S.leafEntrySize) a < n * S.leafEntrySize := by omega
    have hg : S.metadataOffset (marks S.groupSize 0 (s * S.leafEntrySize) + a) =
        decodedOffset S s + (S.sizeL s n * S.leafEntrySize + S.metadataOffset a) := by
      rw [metadataOffset_eq, hmark, decodedOffset_eq, metadataOffset_eq]
      simp only [markPos]
      omega
    rw [hg, ← hgroup ha]
    exact hall a ha
  · obtain ⟨g, hlt, hle, hg⟩ := metadataOffset_segment ha
    rw [hgroup ha, ← hg]
    exact hall g hle hlt
  · obtain ⟨q, rfl⟩ := Nat.exists_eq_add_of_le hs
    rw [← hrecord (by omega)]
    exact hall q (by omega)
  · rw [hrecord hq]
    exact hall _ (Nat.le_add_right s q) (by omega)

/-- The raw bytes that a reader of a segment has. -/
def SegmentOf (S : LeafSizes) (s n : Nat) (raw buffer : Nat → UInt8) : Prop :=
  ∀ x < (LeafVersionManager.getOffsetInfo S s n).2.1, buffer x = raw ((LeafVersionManager.getOffsetInfo S s n).1 + x)

/-- `decode_segment_versions` with the offsets of a segment. -/
def decodeSegment (S : LeafSizes) (s n : Nat) (inp out : Nat → UInt8) : Option ((Nat → UInt8) × Nat) :=
  decodeSegmentVersions S inp out (LeafVersionManager.getOffsetInfo S s n).2.2 n (MetadataManager.getOffsetInfo S s n).1
    (MetadataManager.getOffsetInfo S s n).2

variable {buffer : Nat → UInt8}

/-- The loop of `decode_segment_versions`. -/
theorem decodeSegmentLoop_spec (hbuf : SegmentOf S s n raw buffer) (out : Nat → UInt8) :
    (∀ out', Frame.decode blockSize versionSize (LeafVersionManager.getOffsetInfo S s n).2.2
        (MetadataManager.getOffsetInfo S s n).2
        (fun out j i => out (segmentObjectOffset S (MetadataManager.getOffsetInfo S s n).1 j) == buffer i) buffer out =
          some out' →
      ∀ p < (MetadataManager.getOffsetInfo S s n).2, out' p = decoded S raw (decodedOffset S s + p)) ∧
    ((Frame.decode blockSize versionSize (LeafVersionManager.getOffsetInfo S s n).2.2
        (MetadataManager.getOffsetInfo S s n).2
        (fun out j i => out (segmentObjectOffset S (MetadataManager.getOffsetInfo S s n).1 j) == buffer i) buffer
          out).isSome ↔
      ∀ k, decodedOffset S s ≤ boundary blockSize S.firstOffset k →
        boundary blockSize S.firstOffset k < decodedOffset S (s + n) → MarkOk S raw k) := by
  have hadd := decodedOffset_add (S := S) (s := s) (n := n)
  have hle : decodedOffset S s ≤ decodedOffset S (s + n) := by omega
  have hinfo := getOffsetInfo_eq (S := S) (s := s) (n := n) rfl rfl hle
  have hsub : decodedOffset S (s + n) - decodedOffset S s =
      start S.groupSize S.scatterMetadataSize (S.sizeL s n * S.leafEntrySize) (n * S.leafEntrySize) := by omega
  rw [SegmentOf, hinfo] at hbuf
  simp only [hinfo, metadata_getOffsetInfo]
  have hlocal := local_mark (g := segmentObjectOffset S (S.sizeL s n * S.leafEntrySize))
    (fun _ => segmentObjectOffset_le) buffer
  have hraw : ∀ x <
    start blockSize versionSize (first blockSize S.firstOffset (decodedOffset S s) (decodedOffset S (s + n)))
      (decodedOffset S (s + n) - decodedOffset S s),
      buffer x = raw (start blockSize versionSize S.firstOffset (decodedOffset S s) + x) := by
    have hstart := slice_start (w := versionSize) (f := S.firstOffset) blockSize_pos hle le_rfl
    exact fun x hx => hbuf x (by simp only; omega)
  have hpayload {p : Nat} (hp : p < decodedOffset S (s + n) - decodedOffset S s) :
      unframe blockSize versionSize (first blockSize S.firstOffset (decodedOffset S s) (decodedOffset S (s + n))) buffer p =
        decoded S raw (decodedOffset S s + p) := unframe_slice blockSize_pos hle hraw hp
  refine ⟨fun out' he p hp => ?_, (decode_spec blockSize_pos hlocal).2.trans ?_⟩
  · rw [(decode_spec blockSize_pos hlocal).1 out' he p hp]
    exact hpayload (by omega)
  · -- the marks of the segment are the marks of the leaf
    have hmark {i : Nat} (hi : boundary blockSize (first blockSize S.firstOffset (decodedOffset S s)
        (decodedOffset S (s + n))) i < decodedOffset S (s + n) - decodedOffset S s) :
        (unframe blockSize versionSize (first blockSize S.firstOffset (decodedOffset S s) (decodedOffset S (s + n))) buffer
          (segmentObjectOffset S (S.sizeL s n * S.leafEntrySize) (boundary blockSize
            (first blockSize S.firstOffset (decodedOffset S s) (decodedOffset S (s + n))) i)) ==
          buffer (markPos blockSize versionSize
            (first blockSize S.firstOffset (decodedOffset S s) (decodedOffset S (s + n))) i)) = true ↔
        MarkOk S raw (marks blockSize S.firstOffset (decodedOffset S s) + i) := by
      obtain ⟨hbound, hpos⟩ := slice_boundary_of (w := versionSize) blockSize_pos hle hi
      have hlt := markPos_lt_start (w := versionSize) (o := 0) blockSize_pos (by decide) hi
      rw [Nat.add_zero] at hlt
      have hobj := objectOffset_segment (S := S) (s := s) (n := n) (hsub ▸ hi)
      rw [beq_iff_eq, hpayload (Nat.lt_of_le_of_lt segmentObjectOffset_le hi), hraw _ hlt, MarkOk, ← hbound, hobj, hpos]
    constructor
    · intro h k hs he
      obtain ⟨i, rfl, hbound, -⟩ := slice_boundary (w := versionSize) blockSize_pos hs he
      have hi : boundary blockSize (first blockSize S.firstOffset (decodedOffset S s) (decodedOffset S (s + n))) i <
          decodedOffset S (s + n) - decodedOffset S s := by omega
      exact (hmark hi).1 (h i (by omega))
    · intro h i hi
      have hi' : boundary blockSize (first blockSize S.firstOffset (decodedOffset S s) (decodedOffset S (s + n))) i <
          decodedOffset S (s + n) - decodedOffset S s := by omega
      obtain ⟨hbound, -⟩ := slice_boundary_of (w := versionSize) blockSize_pos hle hi'
      exact (hmark hi').2 (h _ (by omega) (by omega))

/-- What an accepted segment is decoded to. -/
theorem decodeSegment_some {version : Nat} (hn : 0 < n) (hbuf : SegmentOf S s n raw buffer)
    (h : decodeSegment S s n buffer out = some (out', version)) :
    AcceptedSegment S s n raw ∧ version = nodeVersionAt (decoded S raw) (decodedOffset S s) ∧
      ∀ p < (MetadataManager.getOffsetInfo S s n).2, out' p = decoded S raw (decodedOffset S s + p) := by
  obtain ⟨hout, hsome⟩ := decodeSegmentLoop_spec hbuf out
  obtain ⟨out₁, hfilter, heq⟩ := Option.map_eq_some_iff.1 h
  obtain ⟨rfl, rfl⟩ := Prod.mk.inj heq
  obtain ⟨hdec, hjoint⟩ := Option.filter_eq_some_iff.1 hfilter
  have hout := hout _ hdec
  have hmarks := hsome.1 (by rw [hdec]; rfl)
  simp only [metadata_getOffsetInfo] at hjoint hout ⊢
  obtain ⟨hgroups, hrecords⟩ := (segmentJointCheck_decoded hn hout).1 hjoint
  have hpos : 0 < n * S.leafEntrySize := Nat.mul_pos hn S.leafEntrySize_pos
  refine ⟨⟨hmarks, hgroups, hrecords⟩, ?_, hout⟩
  rw [nodeVersionAt, nodeVersionAt, hout 0 (Nat.lt_of_lt_of_le hpos (Nat.le_add_right _ _)), Nat.add_zero]

/-- **Acceptance** of a segment. -/
theorem decodeSegment_isSome (hn : 0 < n) (hbuf : SegmentOf S s n raw buffer) (out : Nat → UInt8) :
    (decodeSegment S s n buffer out).isSome ↔ AcceptedSegment S s n raw := by
  constructor
  · intro h
    obtain ⟨⟨out', version⟩, hout⟩ := Option.isSome_iff_exists.1 h
    exact (decodeSegment_some hn hbuf hout).1
  · intro h
    obtain ⟨hout, hsome⟩ := decodeSegmentLoop_spec hbuf out
    obtain ⟨out', hdec⟩ := Option.isSome_iff_exists.1 (hsome.2 h.marks)
    have hout := hout out' hdec
    have hjoint : segmentJointCheck S n (MetadataManager.getOffsetInfo S s n).1 out' = true := by
      simp only [metadata_getOffsetInfo] at hout ⊢
      exact (segmentJointCheck_decoded hn hout).2 ⟨h.groups, h.records⟩
    exact Option.isSome_iff_exists.2
      ⟨(out', nodeVersionAt out' 0), Option.map_eq_some_iff.2 ⟨out', Option.filter_eq_some_iff.2 ⟨hdec, hjoint⟩, rfl⟩⟩

end Chime

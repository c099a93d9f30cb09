import Chime.LeafCodec

/-!
# Leaf images

The two layouts of an encoded leaf are framings: `ScatteredLeafNode` puts a metadata replica in front of every
`neighborSize` records (`scattered`), and the version bytes a mark in front of every block (`image`). The offsets of
the source are the positions of these framings (`recordOffset_eq`, `decodedOffset_eq`, `decodedLeafSize_eq`,
`transLeafSize_eq`, `getOffsetInfo_eq`), and every offset of a decoded leaf belongs to one object (`object_cases`).
-/

namespace Chime

open Frame

variable {S : LeafSizes} {i j g o p x n s : Nat}

/-! ## The offsets of the source -/

/-- A number of blocks, as the source rounds it up. -/
theorem ceilDiv_eq {a b : Nat} (hb : 0 < b) : a / b + (if a % b ≠ 0 then 1 else 0) = (a + (b - 1)) / b := by
  have hdiv := Nat.div_add_mod a b
  split
  · rename_i h
    have hlt := Nat.mod_lt a hb
    rw [show a + (b - 1) = b * (a / b + 1) + (a % b - 1) by rw [Nat.mul_succ]; omega, Nat.mul_add_div hb,
      Nat.div_eq_of_lt (show a % b - 1 < b by omega), Nat.add_zero]
  · rename_i h
    rw [show a + (b - 1) = b * (a / b) + (b - 1) by omega, Nat.mul_add_div hb,
      Nat.div_eq_of_lt (show b - 1 < b by omega)]

theorem blockSize_pos : 0 < blockSize := by decide

namespace LeafSizes

theorem leafEntrySize_pos : 0 < S.leafEntrySize := by
  have := S.leafEntrySize_ge
  omega

theorem scatterMetadataSize_pos : 0 < S.scatterMetadataSize := by
  have := S.scatterMetadataSize_ge
  omega

theorem groupSize_pos : 0 < S.groupSize := Nat.mul_pos S.leafEntrySize_pos S.neighborSize_pos

theorem leafSpanSize_pos : 0 < S.leafSpanSize := Nat.lt_of_lt_of_le S.neighborSize_pos S.neighborSize_le

variable (S) in
/-- The offset of a record in a `ScatteredLeafNode`. -/
def recordPos (i : Nat) : Nat := S.recordOffset (i / S.neighborSize) (i % S.neighborSize)

theorem metadataOffset_eq : S.metadataOffset g = markPos S.groupSize S.scatterMetadataSize 0 g := by
  rw [metadataOffset, leafEntryGroupSize, markPos, Nat.zero_add, groupSize, Nat.mul_comm, Nat.add_comm]

theorem boundary_eq : boundary S.groupSize 0 g = g * S.neighborSize * S.leafEntrySize := by
  rw [boundary, Nat.zero_add, groupSize, Nat.mul_comm S.leafEntrySize, Nat.mul_comm, Nat.mul_assoc]

/-- The place of a record among the records of its group. -/
theorem mul_leafEntrySize : i * S.leafEntrySize =
    boundary S.groupSize 0 (i / S.neighborSize) + i % S.neighborSize * S.leafEntrySize := by
  rw [boundary_eq, ← Nat.add_mul, Nat.div_add_mod']

theorem lt_groupSize (hj : j < S.neighborSize) (hx : x < S.leafEntrySize) :
    j * S.leafEntrySize + x < S.groupSize := by
  have : (j + 1) * S.leafEntrySize ≤ S.neighborSize * S.leafEntrySize := Nat.mul_le_mul_right _ hj
  rw [Nat.succ_mul] at this
  rw [groupSize, Nat.mul_comm S.leafEntrySize]
  omega

theorem recordOffset_eq (hj : j < S.neighborSize) (hx : x < S.leafEntrySize) : S.recordOffset g j + x =
    pos S.groupSize S.scatterMetadataSize 0 (boundary S.groupSize 0 g + (j * S.leafEntrySize + x)) := by
  rw [pos_boundary_add S.groupSize_pos (lt_groupSize hj hx), ← metadataOffset_eq, recordOffset, metadataOffset]
  omega

theorem recordPos_eq (hx : x < S.leafEntrySize) :
    S.recordPos i + x = pos S.groupSize S.scatterMetadataSize 0 (i * S.leafEntrySize + x) := by
  rw [recordPos, recordOffset_eq (Nat.mod_lt _ S.neighborSize_pos) hx, ← Nat.add_assoc, ← mul_leafEntrySize]

/-- The offset at which a segment that begins with a record begins. -/
theorem decodedOffset_eq :
    LeafVersionManager.decodedOffset S i = start S.groupSize S.scatterMetadataSize 0 (i * S.leafEntrySize) := by
  rw [mul_leafEntrySize, LeafVersionManager.decodedOffset]
  split
  · rename_i h
    have hj := Nat.mod_lt i S.neighborSize_pos
    have hle : i % S.neighborSize * S.leafEntrySize ≤ S.groupSize := by
      rw [groupSize, Nat.mul_comm S.leafEntrySize]
      exact Nat.mul_le_mul_right _ (by omega)
    rw [start_boundary_add S.groupSize_pos (Nat.mul_pos (by omega) S.leafEntrySize_pos) hle, ← metadataOffset_eq,
      recordOffset, metadataOffset]
  · rename_i h
    rw [Decidable.not_not.1 h, Nat.zero_mul, Nat.add_zero, start_boundary S.groupSize_pos, metadataOffset_eq]

/-- Rounding up by groups of records and by their bytes. -/
theorem marks_records : marks S.groupSize 0 (n * S.leafEntrySize) = (n + (S.neighborSize - 1)) / S.neighborSize := by
  rw [← ceilDiv_eq S.neighborSize_pos, mul_leafEntrySize]
  split
  · rename_i h
    have hlt := Nat.mod_lt n S.neighborSize_pos
    have hle : n % S.neighborSize * S.leafEntrySize ≤ S.groupSize := by
      rw [groupSize, Nat.mul_comm S.leafEntrySize]
      exact Nat.mul_le_mul_right _ (by omega)
    exact marks_boundary_add S.groupSize_pos (Nat.mul_pos (by omega) S.leafEntrySize_pos) hle
  · rename_i h
    rw [Decidable.not_not.1 h, Nat.zero_mul, Nat.add_zero, Nat.add_zero, marks_boundary S.groupSize_pos]

theorem entryGroupNum_eq : S.entryGroupNum = marks S.groupSize 0 (S.leafSpanSize * S.leafEntrySize) := by
  rw [marks_records, entryGroupNum, ceilDiv_eq S.neighborSize_pos]

theorem leafSpanSize_le : S.leafSpanSize ≤ S.entryGroupNum * S.neighborSize := by
  have hdiv := Nat.div_add_mod S.leafSpanSize S.neighborSize
  have hlt := Nat.mod_lt S.leafSpanSize S.neighborSize_pos
  rw [entryGroupNum, Nat.add_mul, Nat.mul_comm]
  split <;> omega

theorem decodedLeafSize_eq :
    S.decodedLeafSize = start S.groupSize S.scatterMetadataSize 0 (S.leafSpanSize * S.leafEntrySize) := by
  have hle := S.leafSpanSize_le
  have hexp : S.leafEntryGroupSize * S.entryGroupNum =
      S.entryGroupNum * S.neighborSize * S.leafEntrySize + S.scatterMetadataSize * S.entryGroupNum := by
    rw [leafEntryGroupSize, Nat.add_mul, Nat.add_comm, Nat.mul_assoc, Nat.mul_comm, Nat.mul_comm S.neighborSize]
  have hover : S.leafEntrySize * S.overflowNum =
      S.entryGroupNum * S.neighborSize * S.leafEntrySize - S.leafSpanSize * S.leafEntrySize := by
    rw [overflowNum, ← Nat.sub_mul, Nat.mul_comm]
  have := Nat.mul_le_mul_right S.leafEntrySize hle
  rw [decodedLeafSize, hexp, hover, start, ← entryGroupNum_eq]
  omega

/-- The size of an encoded node. -/
theorem trans_eq {size : Nat} :
    (if size ≤ cachelineSize then size else cachelineSize + addCachelineVersionSize (size - cachelineSize)) =
      start blockSize versionSize (min cachelineSize size) size := by
  rw [start, marks, addCachelineVersionSize, cachelineSize]
  have h := ceilDiv_eq (a := size - 64) (b := 63) (by decide)
  simp only [blockSize, cachelineSize, versionSize]
  split
  · omega
  · omega

theorem transLeafSize_eq : S.transLeafSize = start blockSize versionSize S.firstOffset S.decodedLeafSize := trans_eq

/-! ## Objects -/

theorem recordPos_lt (hi : i < S.leafSpanSize) (hx : x < S.leafEntrySize) : S.recordPos i + x < S.decodedLeafSize := by
  have : (i + 1) * S.leafEntrySize ≤ S.leafSpanSize * S.leafEntrySize := Nat.mul_le_mul_right _ hi
  rw [Nat.succ_mul] at this
  rw [recordPos_eq hx, decodedLeafSize_eq]
  exact pos_lt_start (by omega)

theorem metadataOffset_lt (hg : g < S.entryGroupNum) (ho : o < S.scatterMetadataSize) :
    S.metadataOffset g + o < S.decodedLeafSize := by
  rw [metadataOffset_eq, decodedLeafSize_eq]
  rw [entryGroupNum_eq] at hg
  exact markPos_lt_start S.groupSize_pos ho ((boundary_lt_iff S.groupSize_pos).2 hg)

/-- The group of an offset. -/
theorem div_leafEntryGroupSize (hx : x < S.leafEntryGroupSize) :
    (S.metadataOffset g + x) / S.leafEntryGroupSize = g := by
  rw [metadataOffset, Nat.mul_comm, Nat.mul_add_div (by omega), Nat.div_eq_of_lt hx, Nat.add_zero]

theorem objectOffset_metadata (ho : o < S.scatterMetadataSize) :
    LeafVersionManager.objectOffset S (S.metadataOffset g + o) = S.metadataOffset g := by
  have hlt : o < S.leafEntryGroupSize := Nat.lt_of_lt_of_le ho (Nat.le_add_right _ _)
  simp only [LeafVersionManager.objectOffset, div_leafEntryGroupSize hlt]
  rw [if_pos]
  simp only [recordOffset, metadataOffset]
  omega

theorem objectOffset_record (hj : j < S.neighborSize) (hx : x < S.leafEntrySize) :
    LeafVersionManager.objectOffset S (S.recordOffset g j + x) = S.recordOffset g j := by
  have hlt : S.scatterMetadataSize + (j * S.leafEntrySize + x) < S.leafEntryGroupSize :=
    Nat.add_lt_add_left (lt_groupSize hj hx) _
  have hoff : S.recordOffset g j + x = S.metadataOffset g + (S.scatterMetadataSize + (j * S.leafEntrySize + x)) := by
    simp only [recordOffset, metadataOffset]
    omega
  have hzero : S.recordOffset g j + x - S.recordOffset g 0 = S.leafEntrySize * j + x := by
    simp only [recordOffset, Nat.mul_comm S.leafEntrySize]
    omega
  have hge : S.recordOffset g 0 ≤ S.recordOffset g j + x := by
    simp only [recordOffset]
    omega
  simp only [LeafVersionManager.objectOffset]
  rw [hoff, div_leafEntryGroupSize hlt, ← hoff, if_neg (by omega), hzero, Nat.mul_add_div S.leafEntrySize_pos,
    Nat.div_eq_of_lt hx, Nat.add_zero]

/-- **Objects**: every offset of a decoded leaf is in a replica or in a record. -/
theorem object_cases (hp : p < S.decodedLeafSize) :
    (∃ g o, g < S.entryGroupNum ∧ o < S.scatterMetadataSize ∧ p = S.metadataOffset g + o) ∨
      ∃ i x, i < S.leafSpanSize ∧ x < S.leafEntrySize ∧ p = S.recordPos i + x := by
  rw [decodedLeafSize_eq] at hp
  rcases raw_cases S.groupSize_pos hp with ⟨q, hq, rfl⟩ | ⟨g, o, ho, hg, rfl⟩
  · refine .inr ⟨q / S.leafEntrySize, q % S.leafEntrySize, Nat.div_lt_of_lt_mul (by rwa [Nat.mul_comm]),
      Nat.mod_lt _ S.leafEntrySize_pos, ?_⟩
    rw [recordPos_eq (Nat.mod_lt _ S.leafEntrySize_pos), Nat.div_add_mod']
  · refine .inl ⟨g, o, ?_, ho, by rw [metadataOffset_eq]⟩
    rw [entryGroupNum_eq]
    exact (boundary_lt_iff S.groupSize_pos).1 hg

/-! ## Segments -/

variable (S) in
/-- The number of records of a segment in front of its first replica. -/
def sizeL (s n : Nat) : Nat := min ((S.neighborSize - s % S.neighborSize) % S.neighborSize) n

/-- `first_metadata_offset` is the first mark of the slice. -/
theorem sizeL_mul : S.sizeL s n * S.leafEntrySize =
    first S.groupSize 0 (s * S.leafEntrySize) ((s + n) * S.leafEntrySize) := by
  have hmarks := marks_records (S := S) (n := s)
  have hdiv := Nat.div_add_mod s S.neighborSize
  have hlt := Nat.mod_lt s S.neighborSize_pos
  rw [first, boundary_eq, hmarks, ← ceilDiv_eq S.neighborSize_pos, ← Nat.sub_mul, ← Nat.sub_mul,
    Nat.add_sub_cancel_left,
    sizeL, ← Nat.mul_min_mul_right]
  congr 2
  rw [Nat.add_mul, Nat.mul_comm (s / S.neighborSize)]
  split
  · rw [Nat.mod_eq_of_lt (by omega)]
    omega
  · rename_i h
    rw [Decidable.not_not.1 h, Nat.sub_zero, Nat.mod_self]
    omega

/-- **Offsets of a segment** in a `ScatteredLeafNode`. -/
theorem metadata_getOffsetInfo : MetadataManager.getOffsetInfo S s n = (S.sizeL s n * S.leafEntrySize,
    start S.groupSize S.scatterMetadataSize (S.sizeL s n * S.leafEntrySize) (n * S.leafEntrySize)) := by
  have hfirst : min ((S.neighborSize - s % S.neighborSize) % S.neighborSize * S.leafEntrySize) (S.leafEntrySize * n) =
      S.sizeL s n * S.leafEntrySize := by
    rw [sizeL, ← Nat.mul_min_mul_right, Nat.mul_comm S.leafEntrySize]
  simp only [MetadataManager.getOffsetInfo, hfirst]
  rw [ceilDiv_eq S.groupSize_pos, start, marks, Nat.mul_comm S.leafEntrySize]

/-- The decoded size of a segment. -/
theorem decodedOffset_add : LeafVersionManager.decodedOffset S (s + n) = LeafVersionManager.decodedOffset S s +
    start S.groupSize S.scatterMetadataSize (S.sizeL s n * S.leafEntrySize) (n * S.leafEntrySize) := by
  have hle : s * S.leafEntrySize ≤ (s + n) * S.leafEntrySize := Nat.mul_le_mul_right _ (Nat.le_add_right s n)
  rw [decodedOffset_eq, decodedOffset_eq, slice_start S.groupSize_pos hle le_rfl, ← sizeL_mul, ← Nat.sub_mul,
    Nat.add_sub_cancel_left]

theorem decodedOffset_zero : LeafVersionManager.decodedOffset S 0 = 0 := by
  rw [decodedOffset_eq, Nat.zero_mul, start_of_le S.groupSize_pos le_rfl]

theorem decodedOffset_leafSpanSize : LeafVersionManager.decodedOffset S S.leafSpanSize = S.decodedLeafSize := by
  rw [decodedOffset_eq, decodedLeafSize_eq]

theorem decodedOffset_le (h : s + n ≤ S.leafSpanSize) :
    LeafVersionManager.decodedOffset S (s + n) ≤ S.decodedLeafSize := by
  rw [decodedOffset_eq, decodedLeafSize_eq]
  exact start_mono (Nat.mul_le_mul_right _ h)

/-! ### The objects of a segment -/

variable (S) in
/-- The offset of the `q`-th record of a segment that begins at the record `s`. -/
def segmentRecordPos (s n q : Nat) : Nat :=
  LeafVersionManager.segmentRecordOffset S (S.sizeL s n * S.leafEntrySize) s (s + q)

theorem segmentRecordPos_eq {q : Nat} (hx : x < S.leafEntrySize) : S.segmentRecordPos s n q + x =
    pos S.groupSize S.scatterMetadataSize (S.sizeL s n * S.leafEntrySize) (q * S.leafEntrySize + x) := by
  simp only [segmentRecordPos, LeafVersionManager.segmentRecordOffset, Nat.mul_div_cancel _ S.leafEntrySize_pos,
    Nat.add_sub_cancel_left]
  split
  · rename_i h
    have hle : (q + 1) * S.leafEntrySize ≤ S.sizeL s n * S.leafEntrySize := Nat.mul_le_mul_right _ h
    rw [Nat.succ_mul] at hle
    rw [pos_of_lt S.groupSize_pos (by omega)]
  · rename_i h
    obtain ⟨t, rfl⟩ := Nat.exists_eq_add_of_le (Nat.le_of_not_lt h)
    have hj := Nat.mod_lt t S.neighborSize_pos
    have hq : (S.sizeL s n + t) * S.leafEntrySize + x =
        boundary S.groupSize (S.sizeL s n * S.leafEntrySize) (t / S.neighborSize) +
          (t % S.neighborSize * S.leafEntrySize + x) := by
      have := mul_leafEntrySize (S := S) (i := t)
      simp only [boundary] at this ⊢
      rw [Nat.add_mul]
      omega
    rw [hq, pos_boundary_add S.groupSize_pos (lt_groupSize hj hx), Nat.add_sub_cancel_left, recordOffset, markPos,
      leafEntryGroupSize, groupSize, Nat.add_comm S.scatterMetadataSize, Nat.mul_comm (t / S.neighborSize)]
    omega

/-- The records of a segment. -/
theorem recordPos_add {q : Nat} (hq : q < n) :
    S.recordPos (s + q) = LeafVersionManager.decodedOffset S s + S.segmentRecordPos s n q := by
  have hpos := recordPos_eq (S := S) (i := s + q) S.leafEntrySize_pos
  have hseg := segmentRecordPos_eq (S := S) (s := s) (n := n) (q := q) S.leafEntrySize_pos
  have hlt : (s + q) * S.leafEntrySize < (s + n) * S.leafEntrySize :=
    Nat.mul_lt_mul_of_pos_right (by omega) S.leafEntrySize_pos
  rw [Nat.add_zero, Nat.add_zero] at hpos hseg
  rw [hpos, hseg, slice_pos S.groupSize_pos (Nat.mul_le_mul_right _ (Nat.le_add_right s q)) hlt, ← sizeL_mul,
    ← Nat.sub_mul,
    Nat.add_sub_cancel_left, decodedOffset_eq]

/-- The replicas of a segment. -/
theorem metadataOffset_segment {a : Nat}
    (ha : boundary S.groupSize (S.sizeL s n * S.leafEntrySize) a < n * S.leafEntrySize) :
    ∃ g, boundary S.groupSize 0 g < (s + n) * S.leafEntrySize ∧ s * S.leafEntrySize ≤ boundary S.groupSize 0 g ∧
      S.metadataOffset g =
        LeafVersionManager.decodedOffset S s + (S.sizeL s n * S.leafEntrySize + S.metadataOffset a) := by
  have hle : s * S.leafEntrySize ≤ (s + n) * S.leafEntrySize := Nat.mul_le_mul_right _ (Nat.le_add_right s n)
  rw [sizeL_mul] at ha
  have hlen : (s + n) * S.leafEntrySize - s * S.leafEntrySize = n * S.leafEntrySize := by
    rw [← Nat.sub_mul, Nat.add_sub_cancel_left]
  obtain ⟨hbound, hmark⟩ := slice_boundary_of (w := S.scatterMetadataSize) S.groupSize_pos hle (by rwa [hlen])
  refine ⟨_, by rw [← hbound]; omega, by rw [← hbound]; omega, ?_⟩
  rw [metadataOffset_eq, ← hmark, decodedOffset_eq, sizeL_mul, metadataOffset_eq]
  simp only [markPos]
  omega

/-- Every offset of a segment is in a replica or in a record. -/
theorem segment_cases
    (hp : p < start S.groupSize S.scatterMetadataSize (S.sizeL s n * S.leafEntrySize) (n * S.leafEntrySize)) :
    (∃ a o, boundary S.groupSize (S.sizeL s n * S.leafEntrySize) a < n * S.leafEntrySize ∧ o < S.scatterMetadataSize ∧
      p = S.sizeL s n * S.leafEntrySize + S.metadataOffset a + o) ∨
      ∃ q x, q < n ∧ x < S.leafEntrySize ∧ p = S.segmentRecordPos s n q + x := by
  rcases raw_cases S.groupSize_pos hp with ⟨q, hq, rfl⟩ | ⟨a, o, ho, ha, rfl⟩
  · refine .inr ⟨q / S.leafEntrySize, q % S.leafEntrySize, Nat.div_lt_of_lt_mul (by rwa [Nat.mul_comm]),
      Nat.mod_lt _ S.leafEntrySize_pos, ?_⟩
    rw [segmentRecordPos_eq (Nat.mod_lt _ S.leafEntrySize_pos), Nat.div_add_mod']
  · refine .inl ⟨a, o, ha, ho, ?_⟩
    rw [metadataOffset_eq]
    simp only [markPos]
    omega

theorem segmentObjectOffset_metadata {m a : Nat} (ho : o < S.scatterMetadataSize) :
    LeafVersionManager.segmentObjectOffset S m (m + S.metadataOffset a + o) = m + S.metadataOffset a := by
  have hlt : o < S.leafEntryGroupSize := Nat.lt_of_lt_of_le ho (Nat.le_add_right _ _)
  have hsub : m + S.metadataOffset a + o - m = S.metadataOffset a + o := by omega
  have hmod : (S.metadataOffset a + o) % S.leafEntryGroupSize = o := by
    rw [metadataOffset, Nat.mul_comm, Nat.mul_add_mod, Nat.mod_eq_of_lt hlt]
  rw [LeafVersionManager.segmentObjectOffset, if_neg (by omega)]
  simp only [hsub, div_leafEntryGroupSize hlt, hmod]
  rw [if_pos ho]

theorem segmentObjectOffset_record {q : Nat} (hx : x < S.leafEntrySize) :
    LeafVersionManager.segmentObjectOffset S (S.sizeL s n * S.leafEntrySize) (S.segmentRecordPos s n q + x) =
      S.segmentRecordPos s n q := by
  simp only [segmentRecordPos, LeafVersionManager.segmentRecordOffset, Nat.mul_div_cancel _ S.leafEntrySize_pos,
    Nat.add_sub_cancel_left]
  split
  · rename_i h
    have hle : (q + 1) * S.leafEntrySize ≤ S.sizeL s n * S.leafEntrySize := Nat.mul_le_mul_right _ h
    rw [Nat.succ_mul] at hle
    rw [LeafVersionManager.segmentObjectOffset, if_pos (by omega), Nat.mul_comm q, Nat.mul_add_div S.leafEntrySize_pos,
      Nat.div_eq_of_lt hx, Nat.add_zero, Nat.mul_comm]
  · rename_i h
    obtain ⟨t, rfl⟩ := Nat.exists_eq_add_of_le (Nat.le_of_not_lt h)
    have hlt : S.scatterMetadataSize + (t % S.neighborSize * S.leafEntrySize + x) < S.leafEntryGroupSize :=
      Nat.add_lt_add_left (lt_groupSize (Nat.mod_lt _ S.neighborSize_pos) hx) _
    have hsub : S.sizeL s n * S.leafEntrySize + S.recordOffset (t / S.neighborSize) (t % S.neighborSize) + x -
        S.sizeL s n * S.leafEntrySize = S.metadataOffset (t / S.neighborSize) +
          (S.scatterMetadataSize + (t % S.neighborSize * S.leafEntrySize + x)) := by
      simp only [recordOffset, metadataOffset]
      omega
    have hmod : (S.metadataOffset (t / S.neighborSize) + (S.scatterMetadataSize +
        (t % S.neighborSize * S.leafEntrySize + x))) % S.leafEntryGroupSize =
          S.scatterMetadataSize + (t % S.neighborSize * S.leafEntrySize + x) := by
      rw [metadataOffset, Nat.mul_comm, Nat.mul_add_mod, Nat.mod_eq_of_lt hlt]
    rw [Nat.add_sub_cancel_left, LeafVersionManager.segmentObjectOffset, if_neg (by omega)]
    simp only [hsub, div_leafEntryGroupSize hlt, hmod]
    rw [if_neg (by omega), Nat.add_sub_cancel_left, Nat.mul_comm (t % S.neighborSize),
      Nat.mul_add_div S.leafEntrySize_pos,
      Nat.div_eq_of_lt hx, Nat.add_zero]

/-- **Objects of a segment** are objects of the leaf. -/
theorem objectOffset_segment
    (hp : p < start S.groupSize S.scatterMetadataSize (S.sizeL s n * S.leafEntrySize) (n * S.leafEntrySize)) :
    LeafVersionManager.objectOffset S (LeafVersionManager.decodedOffset S s + p) =
      LeafVersionManager.decodedOffset S s +
      LeafVersionManager.segmentObjectOffset S (S.sizeL s n * S.leafEntrySize) p := by
  rcases segment_cases hp with ⟨a, o, ha, ho, rfl⟩ | ⟨q, x, hq, hx, rfl⟩
  · obtain ⟨g, -, -, hg⟩ := metadataOffset_segment ha
    rw [segmentObjectOffset_metadata ho, ← Nat.add_assoc, ← hg, objectOffset_metadata ho]
  · rw [segmentObjectOffset_record hx, ← Nat.add_assoc, ← recordPos_add hq, recordPos,
      objectOffset_record (Nat.mod_lt _ S.neighborSize_pos) hx]

/-! ### Offsets in the encoded leaf -/

/-- `get_raw_distance` counts the version bytes. -/
theorem getRawDistance_eq (f p : Nat) : LeafVersionManager.getRawDistance ((p : Int) - f) =
    (start blockSize versionSize f p : Int) - f := by
  have hsize : blockSize = 63 := rfl
  simp only [LeafVersionManager.getRawDistance, start, marks, hsize, versionSize]
  split
  · omega
  · split <;> omega

/-- The raw offset, the raw length and the offset of the first version byte of the bytes from `ds` to `de`. -/
theorem offsets_eq {f ds de len : Nat} (hle : ds ≤ de) (hlen : len = de - ds) :
    (if ds < f then
      (ds, (LeafVersionManager.getRawDistance (de - f) - LeafVersionManager.getRawDistance (ds - f)).toNat,
        min (f - ds) len)
    else
      (ds + ((ds - f) / blockSize + if (ds - f) % blockSize ≠ 0 then 1 else 0) * versionSize,
        (LeafVersionManager.getRawDistance (de - f) - LeafVersionManager.getRawDistance (ds - f)).toNat,
        min (f + ((ds - f) / blockSize + if (ds - f) % blockSize ≠ 0 then 1 else 0) * blockSize - ds) len)) =
      (start blockSize versionSize f ds, start blockSize versionSize f de - start blockSize versionSize f ds,
        first blockSize f ds de) := by
  have hmono := start_mono (b := blockSize) (w := versionSize) (f := f) hle
  have hraw : ((start blockSize versionSize f de : Int) - f - ((start blockSize versionSize f ds : Int) - f)).toNat =
      start blockSize versionSize f de - start blockSize versionSize f ds := by omega
  rw [getRawDistance_eq, getRawDistance_eq, hraw, hlen]
  split
  · rename_i h
    rw [start_of_le blockSize_pos h.le, first, marks_of_le blockSize_pos h.le, boundary, Nat.mul_zero, Nat.add_zero]
  · have hcnt := ceilDiv_eq (a := ds - f) blockSize_pos
    have hstart : ds + marks blockSize f ds * versionSize = start blockSize versionSize f ds := by
      rw [start, Nat.mul_comm]
    rw [hcnt, ← marks, hstart, first, boundary, Nat.mul_comm blockSize]

/-- **Offsets of a segment** in the encoded leaf. -/
theorem getOffsetInfo_eq {ds de : Nat} (hs : LeafVersionManager.decodedOffset S s = ds)
    (he : LeafVersionManager.decodedOffset S (s + n) = de) (hle : ds ≤ de) :
    LeafVersionManager.getOffsetInfo S s n = (start blockSize versionSize S.firstOffset ds,
      start blockSize versionSize S.firstOffset de - start blockSize versionSize S.firstOffset ds,
      first blockSize S.firstOffset ds de) := by
  simp only [LeafVersionManager.getOffsetInfo, hs, he]
  exact offsets_eq hle rfl

end LeafSizes
end Chime

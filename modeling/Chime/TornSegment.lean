import Chime.LeafRoundTrip
import Chime.TornNode

/-!
# Torn writes of segments

A write of a segment gives new versions to the hopped slots only, and the hop bitmaps of their homes change as well. In
an accepted mixture of the old and the new bytes a hopped record is all old or all new (`hopped_record`). The record of
another slot is mixed if its hop bitmap is split by a version byte and changes on both sides: the mixture of the new
blocks up to there and the old ones behind is accepted (`prefix_accepted`). `torn_segment_detected_iff` is the exact
condition.
-/

namespace Chime

open Frame Memory PackedVersion LeafVersionManager MetadataManager LeafSizes
open RawLeaf (scattered_record scattered_metadata)

variable {S : LeafSizes} {leaf leaf' writer : RawLeaf} {raw raw' : Nat → UInt8} {side : Nat → Bool}
  {i j k g o p q s n x version : Nat}

/-! ## Mixtures -/

/-- The block of a payload position. -/
theorem decoded_mix (hp : p < S.decodedLeafSize) : decoded S (mix cachelineSize side raw raw') p =
    if side (marks blockSize S.firstOffset (p + 1)) then decoded S raw' p else decoded S raw p :=
  unframe_mix blockSize_pos rfl hp

/-- A mixture of two images. -/
theorem decoded_mix_images (hraw : leaf.Encoded S raw) (hraw' : leaf'.Encoded S raw') (hp : p < S.decodedLeafSize) :
    decoded S (mix cachelineSize side raw raw') p =
      if side (marks blockSize S.firstOffset (p + 1)) then leaf'.scattered S p else leaf.scattered S p := by
  rw [decoded_mix hp, hraw.decoded hp, hraw'.decoded hp]

theorem mix_markPos (hraw : leaf.Encoded S raw) (hraw' : leaf'.Encoded S raw')
    (hk : boundary blockSize S.firstOffset k < S.decodedLeafSize) :
    mix cachelineSize side raw raw' (markPos blockSize versionSize S.firstOffset k) =
      if side (k + 1) then leaf'.scattered S (objectOffset S (boundary blockSize S.firstOffset k))
      else leaf.scattered S (objectOffset S (boundary blockSize S.firstOffset k)) := by
  have hmark := hraw.markOk hk
  have hmark' := hraw'.markOk hk
  rw [MarkOk, hraw.decoded (Nat.lt_of_le_of_lt objectOffset_le hk)] at hmark
  rw [MarkOk, hraw'.decoded (Nat.lt_of_le_of_lt objectOffset_le hk)] at hmark'
  rw [hmark, hmark']
  exact mix_mark rfl hk Nat.one_pos

/-- The object that covers a position between an offset and the start of its object. -/
theorem objectOffset_between (hle : objectOffset S p ≤ q) (hq : q ≤ p) : objectOffset S q = objectOffset S p := by
  have hlt : p < start S.groupSize S.scatterMetadataSize 0 (p + 1) :=
    Nat.lt_of_lt_of_le (Nat.lt_succ_self p) (Nat.le_add_right _ _)
  rcases raw_cases S.groupSize_pos hlt with ⟨r, -, rfl⟩ | ⟨g, o, ho, -, rfl⟩
  · have hx := Nat.mod_lt r S.leafEntrySize_pos
    have hpos := recordPos_eq (S := S) (i := r / S.leafEntrySize) hx
    rw [Nat.div_add_mod'] at hpos
    have hobj {x : Nat} (hx : x < S.leafEntrySize) :
        objectOffset S (S.recordPos (r / S.leafEntrySize) + x) = S.recordPos (r / S.leafEntrySize) :=
      objectOffset_record (Nat.mod_lt _ S.neighborSize_pos) hx
    rw [← hpos, hobj hx] at hle ⊢
    obtain ⟨x, rfl⟩ := Nat.exists_eq_add_of_le hle
    exact hobj (by omega)
  · rw [← metadataOffset_eq] at hq hle ⊢
    rw [objectOffset_metadata ho] at hle ⊢
    obtain ⟨x, rfl⟩ := Nat.exists_eq_add_of_le hle
    exact objectOffset_metadata (by omega)

/-- **A prefix of new blocks** is accepted, if the object over its end has one version. -/
theorem prefix_accepted (hleaf : leaf.Uniform S version) (hleaf' : leaf'.Uniform S version) (hraw : leaf.Encoded S raw)
    (hraw' : leaf'.Encoded S raw')
    (hobj : leaf'.scattered S (objectOffset S (boundary blockSize S.firstOffset j)) =
      leaf.scattered S (objectOffset S (boundary blockSize S.firstOffset j)))
    (hn : 0 < n) (hle : s + n ≤ S.leafSpanSize) :
    AcceptedSegment S s n (mix cachelineSize (fun b => decide (b ≤ j)) raw raw') := by
  have hend := decodedOffset_le hle
  have hversion {p : Nat} (hp : p < S.decodedLeafSize) (ho : objectOffset S p = p) :
      nodeVersionAt (decoded S (mix cachelineSize (fun b => decide (b ≤ j)) raw raw')) p = version := by
    rw [nodeVersionAt, decoded_mix_images hraw hraw' hp, ← ho]
    split
    · exact hleaf'.object hp
    · exact hleaf.object hp
  have hstart : objectOffset S (decodedOffset S s) = decodedOffset S s :=
    Nat.le_antisymm objectOffset_le (decodedOffset_le_objectOffset.2 le_rfl)
  have hlt : decodedOffset S s < S.decodedLeafSize := by
    have hpos : 0 < n * S.leafEntrySize := Nat.mul_pos hn S.leafEntrySize_pos
    rw [decodedOffset_add] at hend
    exact Nat.lt_of_lt_of_le (Nat.lt_add_of_pos_right (Nat.lt_of_lt_of_le hpos (Nat.le_add_right _ _))) hend
  refine ⟨fun k _ hk => ?_, fun g _ hg => ?_, fun i _ hi => ?_⟩
  · -- the mark in front of block `k + 1`
    have hk' : boundary blockSize S.firstOffset k < S.decodedLeafSize := by omega
    have hp : objectOffset S (boundary blockSize S.firstOffset k) < S.decodedLeafSize :=
      Nat.lt_of_le_of_lt objectOffset_le hk'
    have hblock : marks blockSize S.firstOffset (objectOffset S (boundary blockSize S.firstOffset k) + 1) ≤ k + 1 := by
      refine (marks_mono (Nat.succ_le_succ objectOffset_le)).trans ?_
      rw [marks_boundary_add blockSize_pos Nat.one_pos blockSize_pos]
    rw [MarkOk, mix_markPos hraw hraw' hk', decoded_mix_images hraw hraw' hp]
    by_cases hkj : k + 1 ≤ j
    · rw [if_pos (decide_eq_true (hblock.trans hkj)), if_pos (decide_eq_true hkj)]
    · rw [if_neg (show ¬ decide (k + 1 ≤ j) = true by simpa using hkj)]
      split
      · rename_i hlo
        -- the object begins in a new block and reaches over the end of the prefix
        rw [decide_eq_true_eq] at hlo
        have hj : objectOffset S (boundary blockSize S.firstOffset k) ≤ boundary blockSize S.firstOffset j := by
          by_contra hgt
          have := (boundary_lt_iff blockSize_pos).1 (show boundary blockSize S.firstOffset j <
            objectOffset S (boundary blockSize S.firstOffset k) + 1 by omega)
          omega
        have hjk : boundary blockSize S.firstOffset j ≤ boundary blockSize S.firstOffset k :=
          Nat.add_le_add_left (Nat.mul_le_mul_left _ (by omega)) _
        rw [← objectOffset_between hj hjk]
        exact hobj
      · rfl
  · have hlt' : S.metadataOffset g < S.decodedLeafSize :=
      metadataOffset_lt (RawLeaf.lt_entryGroupNum hg hle) S.scatterMetadataSize_pos
    have hself : objectOffset S (S.metadataOffset g) = S.metadataOffset g :=
      objectOffset_metadata (o := 0) S.scatterMetadataSize_pos
    rw [hversion hlt' hself, hversion hlt hstart]
  · have hlt' : S.recordPos i < S.decodedLeafSize := recordPos_lt (by omega) S.leafEntrySize_pos
    have hself : objectOffset S (S.recordPos i) = S.recordPos i :=
      objectOffset_record (x := 0) (Nat.mod_lt _ S.neighborSize_pos) S.leafEntrySize_pos
    rw [hversion hlt' hself, hversion hlt hstart]

/-! ## Records of a mixture -/

/-- **Hopped records**: a record with another version is all old or all new. -/
theorem hopped_record (hraw : leaf.Encoded S raw) (hraw' : leaf'.Encoded S raw')
    (hne : leaf.records (i * S.leafEntrySize) ≠ leaf'.records (i * S.leafEntrySize)) (hle : s + n ≤ S.leafSpanSize)
    (hacc : AcceptedSegment S s n (mix cachelineSize side raw raw')) (hs : s ≤ i) (hi : i < s + n) :
    (∀ x < S.leafEntrySize, decoded S (mix cachelineSize side raw raw') (S.recordPos i + x) =
        leaf.records (i * S.leafEntrySize + x)) ∨
      ∀ x < S.leafEntrySize, decoded S (mix cachelineSize side raw raw') (S.recordPos i + x) =
        leaf'.records (i * S.leafEntrySize + x) := by
  have hlt {x : Nat} (hx : x < S.leafEntrySize) : S.recordPos i + x < S.decodedLeafSize := recordPos_lt (by omega) hx
  have hobj {x : Nat} (hx : x < S.leafEntrySize) : objectOffset S (S.recordPos i + x) = S.recordPos i :=
    objectOffset_record (Nat.mod_lt _ S.neighborSize_pos) hx
  have hversion (leaf : RawLeaf) : leaf.scattered S (S.recordPos i) = leaf.records (i * S.leafEntrySize) :=
    scattered_record leaf (x := 0) S.leafEntrySize_pos
  -- the record is inside the segment
  have hlo : decodedOffset S s ≤ S.recordPos i := by
    rw [← hobj (x := 0) S.leafEntrySize_pos, decodedOffset_le_objectOffset, Nat.add_zero,
      ← Nat.add_zero (S.recordPos i),
      recordPos_eq S.leafEntrySize_pos, decodedOffset_eq]
    exact (start_mono (Nat.mul_le_mul_right _ hs)).trans start_le_pos
  have hhi {x : Nat} (hx : x < S.leafEntrySize) : S.recordPos i + x < decodedOffset S (s + n) := by
    have hmul : (i + 1) * S.leafEntrySize ≤ (s + n) * S.leafEntrySize := Nat.mul_le_mul_right _ hi
    rw [Nat.succ_mul] at hmul
    rw [recordPos_eq hx, decodedOffset_eq]
    exact pos_lt_start (by omega)
  have hchecked (k : Nat) (hk : S.recordPos i ≤ boundary blockSize S.firstOffset k)
      (hk' : boundary blockSize S.firstOffset k < S.recordPos i + S.leafEntrySize) :
      leaf.scattered S (objectOffset S (boundary blockSize S.firstOffset k)) = leaf.records (i * S.leafEntrySize) ∧
        leaf'.scattered S (objectOffset S (boundary blockSize S.firstOffset k)) = leaf'.records (i * S.leafEntrySize) ∧
        mix cachelineSize side raw raw' (markPos blockSize versionSize S.firstOffset k) =
          decoded S (mix cachelineSize side raw raw') (S.recordPos i) := by
    obtain ⟨x, hx⟩ := Nat.exists_eq_add_of_le hk
    have hxE : x < S.leafEntrySize := by omega
    have hmark := hacc.marks k (hlo.trans hk) (by rw [hx]; exact hhi hxE)
    rw [MarkOk, hx, hobj hxE] at hmark
    rw [hx, hobj hxE]
    exact ⟨hversion leaf, hversion leaf', hmark.symm⟩
  have hend : S.recordPos i + S.leafEntrySize ≤ S.decodedLeafSize := by
    have := hlt (x := S.leafEntrySize - 1) (by have := S.leafEntrySize_pos; omega)
    have := S.leafEntrySize_pos
    omega
  rw [RawLeaf.Encoded, transLeafSize_eq] at hraw hraw'
  obtain ⟨t, -, ht⟩ :=
    side_of_checked blockSize_pos id rfl hend (Nat.lt_add_of_pos_right S.leafEntrySize_pos) hraw hraw' hne
    (hversion leaf) (hversion leaf') hchecked
  cases t with
  | false =>
    exact .inl fun x hx => (ht _ (Nat.le_add_right _ x) (Nat.add_lt_add_left hx _)).trans (scattered_record leaf hx)
  | true =>
    exact .inr fun x hx => (ht _ (Nat.le_add_right _ x) (Nat.add_lt_add_left hx _)).trans (scattered_record leaf' hx)

/-- A byte of a record in a mixture. -/
theorem record_mix (hraw : leaf.Encoded S raw) (hraw' : leaf'.Encoded S raw') (hi : i < S.leafSpanSize)
    (hx : x < S.leafEntrySize) : decoded S (mix cachelineSize side raw raw') (S.recordPos i + x) =
      if side (marks blockSize S.firstOffset (S.recordPos i + x + 1)) then leaf'.records (i * S.leafEntrySize + x)
      else leaf.records (i * S.leafEntrySize + x) := by
  rw [decoded_mix_images hraw hraw' (recordPos_lt hi hx), scattered_record _ hx, scattered_record _ hx]

/-! ## What a searcher gets -/

/-- The leaf with the records of a decoded buffer. -/
def RawLeaf.ofDecoded (S : LeafSizes) (metadata : RawMetadata) (buffer : Nat → UInt8) : RawLeaf :=
  ⟨metadata, unframe S.groupSize S.scatterMetadataSize 0 buffer⟩

theorem RawLeaf.ofDecoded_scattered {metadata : RawMetadata} {buffer : Nat → UInt8}
    (h : ∀ g < S.entryGroupNum, ∀ o < S.scatterMetadataSize, buffer (S.metadataOffset g + o) = metadata.scattered o)
    (hp : p < S.decodedLeafSize) : (RawLeaf.ofDecoded S metadata buffer).scattered S p = buffer p := by
  rw [decodedLeafSize_eq] at hp
  rcases raw_cases S.groupSize_pos hp with ⟨q, -, rfl⟩ | ⟨g, o, ho, hg, rfl⟩
  · exact frame_pos S.groupSize_pos
  · have hg' : g < S.entryGroupNum := by
      rw [entryGroupNum_eq]
      exact (boundary_lt_iff S.groupSize_pos).1 hg
    rw [← metadataOffset_eq, h g hg' o ho, scattered_metadata _ ho]
    rfl

/-- The bytes of the record of a slot in an encoded leaf. -/
def IsRecord (S : LeafSizes) (i : Nat) (raw record : Nat → UInt8) : Prop :=
  ∀ x < S.leafEntrySize, record x = decoded S raw (S.recordPos i + x)

/-- Every record that a reader of the slots `[s, s + n)` gets from a mixture is all old or all new. -/
def TornDetected (S : LeafSizes) (s n : Nat) (raw raw' : Nat → UInt8) : Prop :=
  ∀ side buffer out₁ out₂ segment version records metadata, SegmentOf S s n (mix cachelineSize side raw raw') buffer →
    decodeSegment S s n buffer out₁ = some (segment, version) →
    decodeSegmentMetadata S segment out₂ (MetadataManager.getOffsetInfo S s n).1 n = some (records, metadata) →
    ∀ q < n, IsRecord S (s + q) raw (fun x => records (q * S.leafEntrySize + x)) ∨
      IsRecord S (s + q) raw' (fun x => records (q * S.leafEntrySize + x))

/-- A version byte is between the two bytes of the hop bitmap of a slot. -/
def BitmapSplit (S : LeafSizes) (i : Nat) : Prop := ∃ k, boundary blockSize S.firstOffset k = S.recordPos i + 2

/-- The metadata of a segment of a mixture are accepted, and the records are those of the mixture. -/
theorem records_mix (hraw : leaf.Encoded S raw) (hraw' : leaf'.Encoded S raw') (hmeta : leaf'.metadata = leaf.metadata)
    (hle : s + n ≤ S.leafSpanSize) {segment : Nat → UInt8}
    (hsegment : ∀ p < (MetadataManager.getOffsetInfo S s n).2,
      segment p = decoded S (mix cachelineSize side raw raw') (decodedOffset S s + p)) (out : Nat → UInt8) :
    ∃ records metadata, decodeSegmentMetadata S segment out (MetadataManager.getOffsetInfo S s n).1 n =
        some (records, metadata) ∧
      ∀ q < n, ∀ x < S.leafEntrySize, records (q * S.leafEntrySize + x) =
        decoded S (mix cachelineSize side raw raw') (S.recordPos (s + q) + x) := by
  have hreplica : ∀ g < S.entryGroupNum, ∀ o < S.scatterMetadataSize,
      decoded S (mix cachelineSize side raw raw') (S.metadataOffset g + o) = leaf.metadata.scattered o := by
    intro g hg o ho
    rw [decoded_mix_images hraw hraw' (metadataOffset_lt hg ho), scattered_metadata _ ho, scattered_metadata _ ho,
      hmeta]
    exact ite_self _
  have hend := decodedOffset_le hle
  have hscattered : ∀ p < (MetadataManager.getOffsetInfo S s n).2, segment p = (RawLeaf.ofDecoded S leaf.metadata
      (decoded S (mix cachelineSize side raw raw'))).scattered S (decodedOffset S s + p) := by
    intro p hp
    rw [hsegment p hp, RawLeaf.ofDecoded_scattered hreplica]
    rw [metadata_getOffsetInfo] at hp
    rw [decodedOffset_add] at hend
    exact Nat.lt_of_lt_of_le (Nat.add_lt_add_left hp _) hend
  obtain ⟨records, metadata, hdec, hrecords, -⟩ := decodeSegmentMetadata_scattered hscattered out
  refine ⟨records, metadata, hdec, fun q hq x hx => ?_⟩
  have hlt : (q + 1) * S.leafEntrySize ≤ n * S.leafEntrySize := Nat.mul_le_mul_right _ hq
  rw [Nat.succ_mul] at hlt
  rw [hrecords _ (by omega), recordPos_eq hx, Nat.add_mul, Nat.add_assoc]
  rfl

/-! ## The exact condition -/

/-- A record that does not change outside its bitmap is old or new, if its bitmap is not torn. -/
theorem unhopped_record (hraw : leaf.Encoded S raw) (hraw' : leaf'.Encoded S raw') (hi : i < S.leafSpanSize)
    (hsame : ∀ x < S.leafEntrySize, x ≠ 1 → x ≠ 2 →
      leaf'.records (i * S.leafEntrySize + x) = leaf.records (i * S.leafEntrySize + x))
    (hsplit : BitmapSplit S i → leaf'.records (i * S.leafEntrySize + 1) = leaf.records (i * S.leafEntrySize + 1) ∨
      leaf'.records (i * S.leafEntrySize + 2) = leaf.records (i * S.leafEntrySize + 2)) :
    (∀ x < S.leafEntrySize, decoded S (mix cachelineSize side raw raw') (S.recordPos i + x) =
        leaf.records (i * S.leafEntrySize + x)) ∨
      ∀ x < S.leafEntrySize, decoded S (mix cachelineSize side raw raw') (S.recordPos i + x) =
        leaf'.records (i * S.leafEntrySize + x) := by
  -- a side that gives both bytes of the bitmap
  obtain ⟨t, h₁, h₂⟩ : ∃ t : Bool,
      (side (marks blockSize S.firstOffset (S.recordPos i + 1 + 1)) = t ∨
        leaf'.records (i * S.leafEntrySize + 1) = leaf.records (i * S.leafEntrySize + 1)) ∧
      (side (marks blockSize S.firstOffset (S.recordPos i + 2 + 1)) = t ∨
        leaf'.records (i * S.leafEntrySize + 2) = leaf.records (i * S.leafEntrySize + 2)) := by
    by_cases hblock : marks blockSize S.firstOffset (S.recordPos i + 1 + 1) =
      marks blockSize S.firstOffset (S.recordPos i + 2 + 1)
    · exact ⟨side (marks blockSize S.firstOffset (S.recordPos i + 2 + 1)), .inl (by rw [hblock]), .inl rfl⟩
    · have hmono := marks_mono (b := blockSize) (f := S.firstOffset)
        (show S.recordPos i + 1 + 1 ≤ S.recordPos i + 2 + 1 by omega)
      have hlo := (boundary_lt_iff blockSize_pos).2 (Nat.lt_of_le_of_ne hmono hblock)
      have hhi := le_boundary_marks (f := S.firstOffset) (s := S.recordPos i + 1 + 1) blockSize_pos
      have hbitmap : BitmapSplit S i := ⟨marks blockSize S.firstOffset (S.recordPos i + 1 + 1), by omega⟩
      rcases hsplit hbitmap with h | h
      · exact ⟨_, .inr h, .inl rfl⟩
      · exact ⟨_, .inl rfl, .inr h⟩
  have hrec : ∀ x < S.leafEntrySize, decoded S (mix cachelineSize side raw raw') (S.recordPos i + x) =
      if t then leaf'.records (i * S.leafEntrySize + x) else leaf.records (i * S.leafEntrySize + x) := by
    intro x hx
    rw [record_mix hraw hraw' hi hx]
    have hx' : side (marks blockSize S.firstOffset (S.recordPos i + x + 1)) = t ∨
        leaf'.records (i * S.leafEntrySize + x) = leaf.records (i * S.leafEntrySize + x) := by
      by_cases hone : x = 1
      · exact hone ▸ h₁
      · by_cases htwo : x = 2
        · exact htwo ▸ h₂
        · exact .inr (hsame x hx hone htwo)
    rcases hx' with h | h
    · rw [h]
    · rw [h, ite_self, ite_self]
  cases t with
  | false => exact .inl hrec
  | true => exact .inr hrec

/-- A bitmap that changes on both sides of a version byte is torn. -/
theorem torn_of_split (hleaf : leaf.Uniform S version) (hleaf' : leaf'.Uniform S version) (hraw : leaf.Encoded S raw)
    (hraw' : leaf'.Encoded S raw') (hmeta : leaf'.metadata = leaf.metadata) (hn : 0 < n) (hle : s + n ≤ S.leafSpanSize)
    (hq : q < n) (hversion : leaf'.records ((s + q) * S.leafEntrySize) = leaf.records ((s + q) * S.leafEntrySize))
    (hsplit : BitmapSplit S (s + q))
    (h₁ : leaf'.records ((s + q) * S.leafEntrySize + 1) ≠ leaf.records ((s + q) * S.leafEntrySize + 1))
    (h₂ : leaf'.records ((s + q) * S.leafEntrySize + 2) ≠ leaf.records ((s + q) * S.leafEntrySize + 2)) :
    ¬ TornDetected S s n raw raw' := by
  intro hdet
  have hE := S.leafEntrySize_ge
  have hi : s + q < S.leafSpanSize := by omega
  obtain ⟨k, hk⟩ := hsplit
  have hobj {x : Nat} (hx : x < S.leafEntrySize) : objectOffset S (S.recordPos (s + q) + x) = S.recordPos (s + q) :=
    objectOffset_record (Nat.mod_lt _ S.neighborSize_pos) hx
  have hscattered (leaf : RawLeaf) :
      leaf.scattered S (S.recordPos (s + q)) = leaf.records ((s + q) * S.leafEntrySize) :=
    scattered_record leaf (x := 0) S.leafEntrySize_pos
  have hacc := prefix_accepted (j := k) (n := n) (s := s) hleaf hleaf' hraw hraw'
    (by rw [hk, hobj (by omega), hscattered, hscattered, hversion]) hn hle
  -- the buffer that the reader gets
  have hbuf : SegmentOf S s n (mix cachelineSize (fun b => decide (b ≤ k)) raw raw') fun x =>
      mix cachelineSize (fun b => decide (b ≤ k)) raw raw' ((LeafVersionManager.getOffsetInfo S s n).1 + x) :=
        fun _ _ => rfl
  obtain ⟨⟨segment, v⟩, hdec⟩ := Option.isSome_iff_exists.1 ((decodeSegment_isSome hn hbuf 0).2 hacc)
  obtain ⟨-, -, hsegment⟩ := decodeSegment_some hn hbuf hdec
  obtain ⟨records, metadata, hdec', hrecords⟩ := records_mix hraw hraw' hmeta hle hsegment 0
  have hold {x : Nat} (hx : x < S.leafEntrySize) : decoded S raw (S.recordPos (s + q) + x) =
      leaf.records ((s + q) * S.leafEntrySize + x) := by
    rw [hraw.decoded (recordPos_lt hi hx), scattered_record _ hx]
  have hnew {x : Nat} (hx : x < S.leafEntrySize) : decoded S raw' (S.recordPos (s + q) + x) =
      leaf'.records ((s + q) * S.leafEntrySize + x) := by
    rw [hraw'.decoded (recordPos_lt hi hx), scattered_record _ hx]
  have hfirst : marks blockSize S.firstOffset (S.recordPos (s + q) + 1 + 1) = k := by
    rw [show S.recordPos (s + q) + 1 + 1 = boundary blockSize S.firstOffset k by omega, marks_boundary blockSize_pos]
  have hsecond : marks blockSize S.firstOffset (S.recordPos (s + q) + 2 + 1) = k + 1 := by
    rw [← hk, marks_boundary_add blockSize_pos Nat.one_pos blockSize_pos]
  rcases hdet _ _ _ _ _ _ _ _ hbuf hdec hdec' q hq with h | h
  · have hbyte : records (q * S.leafEntrySize + 1) = decoded S raw (S.recordPos (s + q) + 1) := h 1 (by omega)
    rw [hrecords q hq 1 (by omega), record_mix hraw hraw' hi (by omega), hfirst, if_pos (decide_eq_true le_rfl),
      hold (by omega)] at hbyte
    exact h₁ hbyte
  · have hbyte : records (q * S.leafEntrySize + 2) = decoded S raw' (S.recordPos (s + q) + 2) := h 2 (by omega)
    rw [hrecords q hq 2 (by omega), record_mix hraw hraw' hi (by omega), hsecond, if_neg (by simp),
      hnew (by omega)] at hbyte
    exact h₂ hbyte.symm

variable {l r : Nat} {hopped : List Nat}

/-- The version of a slot changes if it is hopped. -/
theorem RawLeaf.Patched.version_eq_iff (h : leaf.Patched S writer l r hopped leaf') (hi : i < S.leafSpanSize) :
    leaf'.records (i * S.leafEntrySize) = leaf.records (i * S.leafEntrySize) ↔ i ∉ hopped := by
  have hentry := h.entryVersion i hi
  constructor
  · intro heq hmem
    rw [heq, if_pos hmem] at hentry
    have : PackedVersion.entryVersion (leaf.records (i * S.leafEntrySize)) < 16 := entryVersion_lt
    omega
  · intro hmem
    rw [if_neg hmem, Nat.add_zero, Nat.mod_eq_of_lt entryVersion_lt] at hentry
    exact eq_iff.2 ⟨h.nodeVersion i hi, hentry⟩

/-- The records that a reader gets, by the records of the mixture. -/
theorem tornDetected_of_records (hraw : leaf.Encoded S raw) (hraw' : leaf'.Encoded S raw')
    (hmeta : leaf'.metadata = leaf.metadata) (hn : 0 < n) (hle : s + n ≤ S.leafSpanSize)
    (h : ∀ side, AcceptedSegment S s n (mix cachelineSize side raw raw') → ∀ i, s ≤ i → i < s + n →
      (∀ x < S.leafEntrySize, decoded S (mix cachelineSize side raw raw') (S.recordPos i + x) =
          leaf.records (i * S.leafEntrySize + x)) ∨
        ∀ x < S.leafEntrySize, decoded S (mix cachelineSize side raw raw') (S.recordPos i + x) =
          leaf'.records (i * S.leafEntrySize + x)) : TornDetected S s n raw raw' := by
  intro side buffer out₁ out₂ segment v records metadata hbuf hdec hmetadata q hq
  obtain ⟨hacc, -, hsegment⟩ := decodeSegment_some hn hbuf hdec
  obtain ⟨records', metadata', hdec', hrecords⟩ := records_mix hraw hraw' hmeta hle hsegment out₂
  obtain ⟨rfl, rfl⟩ := Prod.mk.inj (Option.some.inj (hmetadata.symm.trans hdec'))
  refine (h side hacc (s + q) (Nat.le_add_right s q) (by omega)).imp (fun h x hx => ?_) fun h x hx => ?_
  · rw [hraw.decoded (recordPos_lt (by omega) hx), scattered_record _ hx, ← h x hx]
    exact hrecords q hq x hx
  · rw [hraw'.decoded (recordPos_lt (by omega) hx), scattered_record _ hx, ← h x hx]
    exact hrecords q hq x hx

/-- **The exact condition** for a patched leaf. -/
theorem tornDetected_patched_iff (hleaf : leaf.Uniform S version) (hraw : leaf.Encoded S raw)
    (hraw' : leaf'.Encoded S raw')
    (hpatched : leaf.Patched S writer l r hopped leaf')
    (hbitmaps : ∀ i < S.leafSpanSize, InSegment l r i → i ∉ hopped → ∀ x, 3 ≤ x → x < S.leafEntrySize →
      writer.records (i * S.leafEntrySize + x) = leaf.records (i * S.leafEntrySize + x))
    (hn : 0 < n) (hle : s + n ≤ S.leafSpanSize) :
    TornDetected S s n raw raw' ↔ ∀ i, s ≤ i → i < s + n → InSegment l r i → i ∉ hopped → BitmapSplit S i →
      writer.records (i * S.leafEntrySize + 1) = leaf.records (i * S.leafEntrySize + 1) ∨
        writer.records (i * S.leafEntrySize + 2) = leaf.records (i * S.leafEntrySize + 2) := by
  have hE := S.leafEntrySize_ge
  constructor
  · intro hdet i hs hi hin hmem hsplit
    obtain ⟨q, rfl⟩ := Nat.exists_eq_add_of_le hs
    by_contra hne
    obtain ⟨h₁, h₂⟩ := not_or.1 hne
    rw [← hpatched.inside _ (by omega) hin _ Nat.one_pos (by omega)] at h₁
    rw [← hpatched.inside _ (by omega) hin _ Nat.two_pos (by omega)] at h₂
    exact torn_of_split hleaf (hpatched.uniform hleaf) hraw hraw' hpatched.metadata hn hle (by omega)
      ((hpatched.version_eq_iff (by omega)).2 hmem) hsplit h₁ h₂ hdet
  · intro hcond
    refine tornDetected_of_records hraw hraw' hpatched.metadata hn hle fun side hacc i hs hi => ?_
    have hiN : i < S.leafSpanSize := by omega
    by_cases hmem : i ∈ hopped
    · have hne : leaf.records (i * S.leafEntrySize) ≠ leaf'.records (i * S.leafEntrySize) := fun heq =>
        (hpatched.version_eq_iff hiN).1 heq.symm hmem
      exact hopped_record hraw hraw' hne hle hacc hs hi
    · have hversion := (hpatched.version_eq_iff hiN).2 hmem
      by_cases hin : InSegment l r i
      · refine unhopped_record hraw hraw' hiN (fun x hx hone htwo => ?_) fun hsplit => ?_
        · rcases Nat.eq_zero_or_pos x with rfl | hpos
          · exact hversion
          · rw [hpatched.inside i hiN hin x hpos hx]
            exact hbitmaps i hiN hin hmem x (by omega) hx
        · rw [hpatched.inside i hiN hin 1 Nat.one_pos (by omega), hpatched.inside i hiN hin 2 Nat.two_pos (by omega)]
          exact hcond i hs hi hin hmem hsplit
      · exact unhopped_record hraw hraw' hiN (fun x hx _ _ => hpatched.outside i hiN hin x hx)
          fun _ => .inl (hpatched.outside i hiN hin 1 (by omega))

/-- **Torn writes of segments**: the writer leaves a record alone but for its hop bitmap if its slot is not hopped.
Every record that a searcher gets is all old or all new, if and only if no bitmap of such a slot changes on both sides
of a version byte; and it always is if one entry is written. -/
theorem torn_segment_detected_iff (S : LeafSizes) (leaf : RawLeaf) (version : Nat) (raw : Nat → UInt8)
    (hleaf : leaf.Uniform S version) (hraw : leaf.Encoded S raw) (writer : RawLeaf)
    (hmeta : RawLeaf.SameMetadata S leaf writer) (lockBuffer : Nat → UInt8) (rbuf : Nat → Nat → UInt8) :
    (∀ l r hopped, l < S.leafSpanSize → r < S.leafSpanSize → hopped.Nodup → (∀ i ∈ hopped, InSegment l r i) →
      (∀ i < S.leafSpanSize, InSegment l r i →
        writer.records (i * S.leafEntrySize) = leaf.records (i * S.leafEntrySize)) →
      (∀ i < S.leafSpanSize, InSegment l r i → i ∉ hopped → ∀ x, 3 ≤ x → x < S.leafEntrySize →
        writer.records (i * S.leafEntrySize + x) = leaf.records (i * S.leafEntrySize + x)) →
      ∀ s n, 0 < n → s + n ≤ S.leafSpanSize →
        (TornDetected S s n raw (writeBatch (writer.segmentWriteAndUnlock S l r hopped lockBuffer rbuf) raw) ↔
          ∀ i, s ≤ i → i < s + n → InSegment l r i → i ∉ hopped → BitmapSplit S i →
            writer.records (i * S.leafEntrySize + 1) = leaf.records (i * S.leafEntrySize + 1) ∨
              writer.records (i * S.leafEntrySize + 2) = leaf.records (i * S.leafEntrySize + 2))) ∧
    ∀ idx kv, idx < S.leafSpanSize → writer.records (idx * S.leafEntrySize) = leaf.records (idx * S.leafEntrySize) →
      ∀ s n, 0 < n → s + n ≤ S.leafSpanSize →
        TornDetected S s n raw (writeBatch (writer.entryWriteAndUnlock S idx kv lockBuffer rbuf) raw) := by
  refine ⟨fun l r hopped hl hr hnodup hmem hversion hbitmaps s n hn hle => ?_,
    fun idx kv hidx hversion s n hn hle => ?_⟩
  · obtain ⟨leaf', hpatches⟩ : ∃ leaf', RawLeaf.Patches S leaf writer l r hopped lockBuffer raw
        (writer.segmentWriteAndUnlock S l r hopped lockBuffer rbuf) leaf' :=
      RawLeaf.patches_segment hleaf hraw hmeta hl hr hnodup hmem hversion
    exact tornDetected_patched_iff hleaf hraw hpatches.encoded hpatches.patched hbitmaps hn hle
  · obtain ⟨leaf', hpatches⟩ : ∃ leaf', RawLeaf.Patches S leaf (writer.update S idx kv) idx idx [idx] lockBuffer raw
        (writer.entryWriteAndUnlock S idx kv lockBuffer rbuf) leaf' :=
      RawLeaf.patches_entry hleaf hraw hmeta hidx hversion
    refine (tornDetected_patched_iff hleaf hraw hpatches.encoded hpatches.patched (fun i _ hin hmem => ?_) hn hle).2
      fun i _ _ hin hmem => ?_
    · exact absurd (List.mem_singleton.2 (RawLeaf.inSegment_self.1 hin)) hmem
    · exact absurd (List.mem_singleton.2 (RawLeaf.inSegment_self.1 hin)) hmem

/-- One byte of the hop bitmap of slot 0 changes. -/
theorem torn_segment_detected_sample : TornDetected sampleSizes 0 5 (sampleLeaf.image sampleSizes)
    (writeBatch (sampleWriter.segmentWriteAndUnlock sampleSizes 4 0 [4] (fun _ => 0) fun _ _ => 0)
      (sampleLeaf.image sampleSizes)) := by
  have hversion : ∀ i < 5, sampleWriter.records (i * 19) = sampleLeaf.records (i * 19) := by decide
  have hbitmap : ∀ i < 5, i ≠ 4 → sampleWriter.records (i * 19 + 2) = sampleLeaf.records (i * 19 + 2) := by decide
  have hrest : ∀ i < 5, i ≠ 4 → ∀ x < 19, 3 ≤ x → sampleWriter.records (i * 19 + x) = sampleLeaf.records (i * 19 + x) := by
    decide
  refine ((torn_segment_detected_iff sampleSizes sampleLeaf 3 (sampleLeaf.image sampleSizes) sampleLeaf_uniform
    (fun _ _ => rfl) sampleWriter ⟨rfl, fun _ _ => rfl⟩ (fun _ => 0) fun _ _ => 0).1 4 0 [4] (by decide) (by decide)
    (by decide) (by decide) (fun i hi _ => hversion i hi) (fun i hi _ hmem x hge hx => ?_) 0 5 (by decide) (by decide)).2
    fun i _ hi _ hmem _ => .inr (hbitmap i (by omega) (mt List.mem_singleton.2 hmem))
  exact hrest i hi (mt List.mem_singleton.2 hmem) x hx hge

/-! ### A torn bitmap -/

/-- A leaf of 64 slots with neighbourhoods of 10. -/
def tornSizes : LeafSizes := ⟨64, 10, 19, 10, Nat.succ_pos 9, Nat.le_add_left 10 54, sampleSizes.leafEntrySize_ge,
  sampleSizes.scatterMetadataSize_ge⟩

/-- The bytes of a record with version 0: its hop bitmap, and a key and a value of one byte. -/
def recordBytes (bitmap key value : Nat) : Nat → UInt8
  | 1 => .ofNat (bitmap % 256)
  | 2 => .ofNat (bitmap / 256)
  | 10 => .ofNat key
  | 11 => .ofNat value
  | _ => 0

/-- The leaf with the slots 25 to 39 taken; slot 31 has a key of home 25, slot 32 one of home 31, and the others keys
of their own homes. -/
def tornLeaf : RawLeaf :=
  ⟨⟨0, 1, fun _ => 0⟩, fun x =>
    let i := x / 19
    if 25 ≤ i ∧ i < 40 then
      recordBytes (if i = 25 then 2 ^ 9 + 2 ^ 3 else if i = 31 then 2 ^ 8 else if i = 32 then 0 else 2 ^ 9) (i + 1)
        (i + 1)
        (x % 19)
    else 0⟩

/-- The leaf of the writer that inserts a key of home 25: it moves the key in slot 32 to slot 40. -/
def tornWriter : RawLeaf :=
  { tornLeaf with records := fun x =>
      match x / 19 with
      | 25 => recordBytes (2 ^ 9 + 2 ^ 3 + 2 ^ 2) 26 26 (x % 19)
      | 31 => recordBytes (2 ^ 0) 32 32 (x % 19)
      | 32 => recordBytes 0 99 99 (x % 19)
      | 40 => recordBytes 0 33 33 (x % 19)
      | _ => tornLeaf.records x }

theorem tornLeaf_uniform : tornLeaf.Uniform tornSizes 0 := by
  refine ⟨by decide, fun i hi => ?_⟩
  have h : ∀ i < 64, nodeVersion (tornLeaf.records (i * 19)) = 0 := by decide +kernel
  exact h i hi

/-- The hop bitmap of slot 31 is split, and changes on both sides. -/
theorem not_torn_segment_detected : ¬ TornDetected tornSizes 31 10 (tornLeaf.image tornSizes)
    (writeBatch (tornWriter.segmentWriteAndUnlock tornSizes 25 40 [40, 32] (fun _ => 0) fun _ _ => 0)
      (tornLeaf.image tornSizes)) := by
  have hversion : ∀ i < 64, tornWriter.records (i * 19) = tornLeaf.records (i * 19) := by decide +kernel
  obtain ⟨leaf', hpatches⟩ : ∃ leaf', RawLeaf.Patches tornSizes tornLeaf tornWriter 25 40 [40, 32] (fun _ => 0)
      (tornLeaf.image tornSizes)
      (tornWriter.segmentWriteAndUnlock tornSizes 25 40 [40, 32] (fun _ => 0) fun _ _ => 0) leaf' :=
    RawLeaf.patches_segment tornLeaf_uniform (fun _ _ => rfl) ⟨rfl, fun _ _ => rfl⟩ (by decide) (by decide) (by decide)
      (by decide) fun i hi _ => hversion i hi
  have hinside := hpatches.patched.inside 31 (by decide) (by decide)
  refine torn_of_split (q := 0) tornLeaf_uniform (hpatches.patched.uniform tornLeaf_uniform)
    (fun _ _ => rfl) hpatches.encoded
    hpatches.patched.metadata (by decide) (by decide) (by decide)
      ((hpatches.patched.version_eq_iff (by decide)).2 (by decide))
    ⟨9, by decide⟩ ?_ ?_
  · have h := hinside 1 (by decide) (by decide)
    rw [h]
    decide
  · have h := hinside 2 (by decide) (by decide)
    rw [h]
    decide

end Chime

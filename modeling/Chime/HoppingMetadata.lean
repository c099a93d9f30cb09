import Chime.PartialRead
import Chime.View

/-!
# The metadata of a hopping read (`leaf_node_insert`, `hopscotch_search`)

A view of a leaf gets its metadata from a replica among the slots that are read. `leaf_node_insert` extends its read up
to the next replica; the extended read is at most the leaf, and every read of it, as every read of a neighborhood, has
a slot that starts a group and fills the metadata of the view (`hopping_read_metadata`).
-/

namespace Chime

open LeafSizes LeafVersionManager Memory

/-- The entries that are read from `lIdx` on, after "ensure to read one scattered metadata". -/
def extendToMetadata (neighborSize lIdx readEntryNum : Nat) : Nat :=
  let rIdx := lIdx + readEntryNum
  if readEntryNum < neighborSize ∧ lIdx % neighborSize ≠ 0 ∧ lIdx / neighborSize = (rIdx - 1) / neighborSize then
    ((rIdx - 1 + neighborSize) / neighborSize * neighborSize + 1) - lIdx
  else readEntryNum

theorem insertReadNum_eq {L : Layout} (lock : Valock L) (lIdx : Nat) :
    insertReadNum lock lIdx = extendToMetadata L.neighborSize lIdx (lock.getReadEntryNumFromBitmap lIdx) := rfl

/-- The segment that the metadata is decoded from, by its first slot and its size: the read itself, or the left part of
a read around the end. -/
def metadataSegment (leafSpanSize hashIdx entryNum : Nat) : Nat × Nat :=
  if segmentSizeL leafSpanSize hashIdx entryNum = 0 then (hashIdx, entryNum)
  else (0, segmentSizeL leafSpanSize hashIdx entryNum)

section Windows

variable {N H l n : Nat}

/-- The next multiple of the group size is in the window, or the window reaches around the end. -/
def ReachesGroup (N H l n : Nat) : Prop := (H - l % H) % H < n ∨ N < l + n

theorem reachesGroup_of_le (hH : 0 < H) (hn : H ≤ n) : ReachesGroup N H l n :=
  .inl (Nat.lt_of_lt_of_le (Nat.mod_lt _ hH) hn)

/-- **The extension** is at most the leaf, and reaches a group. -/
theorem extendToMetadata_spec (hH : 0 < H) (hHN : H ≤ N) (h1 : 1 ≤ n) (hn : n ≤ N) :
    n ≤ extendToMetadata H l n ∧ extendToMetadata H l n ≤ N ∧ ReachesGroup N H l (extendToMetadata H l n) := by
  have hdiv := Nat.div_add_mod l H
  have hmod := Nat.mod_lt l hH
  have hdiv' := Nat.div_add_mod (l + n - 1) H
  have hmod' := Nat.mod_lt (l + n - 1) hH
  rw [extendToMetadata]
  by_cases hext : n < H ∧ l % H ≠ 0 ∧ l / H = (l + n - 1) / H
  · -- the read is inside of one group and goes on to the next one
    obtain ⟨hlt, hne, heq⟩ := hext
    have hup : (l + n - 1 + H) / H = l / H + 1 := by rw [Nat.add_div_right _ hH, heq]
    rw [if_pos ⟨hlt, hne, heq⟩, hup, Nat.add_mul, Nat.one_mul, Nat.mul_comm]
    rw [← heq] at hdiv'
    refine ⟨by omega, by omega, .inl ?_⟩
    rw [Nat.mod_eq_of_lt (by omega)]
    omega
  · rw [if_neg hext]
    refine ⟨le_rfl, hn, ?_⟩
    by_cases hle : H ≤ n
    · exact reachesGroup_of_le hH hle
    refine .inl ?_
    by_cases hz : l % H = 0
    · rw [hz, Nat.sub_zero, Nat.mod_self]
      exact h1
    · -- the last slot is in a later group
      have hlater : l / H + 1 ≤ (l + n - 1) / H := by
        have := Nat.div_le_div_right (c := H) (show l ≤ l + n - 1 by omega)
        omega
      have := Nat.mul_le_mul_left H hlater
      rw [Nat.mul_succ] at this
      rw [Nat.mod_eq_of_lt (by omega)]
      omega

/-- A window that reaches a group has a slot that starts one; around the end this is the first slot. -/
theorem ReachesGroup.exists_start (h : ReachesGroup N H l n) (hH : 0 < H) (hl : l < N) :
    ∃ i < n, (l + i) % N % H = 0 := by
  by_cases hwrap : N < l + n
  · refine ⟨N - l, by omega, ?_⟩
    rw [Nat.add_sub_cancel' hl.le, Nat.mod_self, Nat.zero_mod]
  · have hlt := h.resolve_right hwrap
    have hdiv := Nat.div_add_mod l H
    have hmod := Nat.mod_lt l hH
    refine ⟨_, hlt, ?_⟩
    by_cases hz : l % H = 0
    · rw [hz, Nat.sub_zero, Nat.mod_self, Nat.add_zero, Nat.mod_eq_of_lt hl, hz]
    · have hpad : (H - l % H) % H = H - l % H := Nat.mod_eq_of_lt (by omega)
      rw [hpad] at hlt ⊢
      have hnext : l + (H - l % H) = H * (l / H + 1) := by
        rw [Nat.mul_succ]
        omega
      have hin : l + (H - l % H) < N := by omega
      rw [Nat.mod_eq_of_lt hin, hnext, Nat.mul_mod_right]

end Windows

section Reads

variable {S : LeafSizes} {s n hashIdx sizeR sizeL entryNum : Nat} {needed forWrite : Bool} {read : LeafRead}
  {b b' : ReadBuffers RawLeaf}

/-- `decode_segment_metadata` takes the metadata from a replica, whatever segment it decodes. -/
def FillsMetadata (S : LeafSizes) (s n : Nat) : Prop :=
  ∀ inp out records metadata,
    MetadataManager.decodeSegmentMetadata S inp out (MetadataManager.getOffsetInfo S s n).1 n =
      some (records, metadata) →
      metadata = some (.ofScattered inp (MetadataManager.getOffsetInfo S s n).1)

/-- The metadata of a view is a replica in a segment that is accepted. -/
def TakesMetadata (S : LeafSizes) (s n : Nat) (b : ReadBuffers RawLeaf) : Prop :=
  ∃ inter segment version, decodeSegment S s n (view b.raw (LeafVersionManager.getOffsetInfo S s n).1) inter =
      some (segment, version) ∧
    b.leaf.metadata = .ofScattered segment (MetadataManager.getOffsetInfo S s n).1

theorem fillsMetadata_of_lt (h : (S.neighborSize - s % S.neighborSize) % S.neighborSize < n) : FillsMetadata S s n := by
  intro inp out records metadata hdec
  have hlt : (MetadataManager.getOffsetInfo S s n).1 < S.leafEntrySize * n := by
    simp only [MetadataManager.getOffsetInfo]
    refine Nat.lt_of_le_of_lt (Nat.min_le_left _ _) ?_
    rw [Nat.mul_comm S.leafEntrySize]
    exact Nat.mul_lt_mul_of_pos_right h S.leafEntrySize_pos
  simp only [MetadataManager.decodeSegmentMetadata, if_neg (not_le.2 hlt)] at hdec
  obtain ⟨records', -, heq⟩ := Option.map_eq_some_iff.1 hdec
  exact (Prod.mk.inj heq).2.symm

theorem readSegment_metadata (hfill : FillsMetadata S s n) (h : S.readSegment needed s n read b = some (true, b')) :
    TakesMetadata S s n b' := by
  simp only [readSegment] at h
  split at h
  · cases h
  rename_i segment version hdec
  split at h
  · cases h
  rename_i records metadata hmeta
  obtain rfl := hfill _ _ _ _ hmeta
  split at h
  · cases h
  obtain rfl := (Prod.mk.inj (Option.some.inj h)).2
  exact ⟨_, _, _, hdec, rfl⟩

theorem readTwoSegments_metadata (hfill : FillsMetadata S 0 sizeL)
    (h : S.readTwoSegments hashIdx sizeR sizeL read b = some (true, b')) : TakesMetadata S 0 sizeL b' := by
  simp only [readTwoSegments] at h
  split at h
  · cases h
  rename_i segmentL versionL hdecL
  split at h
  · cases h
  split at h
  · cases h
  split at h
  · cases h
  rename_i recordsL metadataL hmetaL
  obtain rfl := hfill _ _ _ _ hmetaL
  split at h
  · cases h
  simp only at h
  split at h
  · cases h
  obtain rfl := (Prod.mk.inj (Option.some.inj h)).2
  exact ⟨_, _, _, hdecL, rfl⟩

/-- What a read of `n` slots from `lIdx` on has: a slot that starts a group, and the metadata. -/
structure CarriesMetadata (S : LeafSizes) (lIdx n : Nat) : Prop where
  start : ∃ i < n, (lIdx + i) % S.leafSpanSize % S.neighborSize = 0
  fills : FillsMetadata S (metadataSegment S.leafSpanSize lIdx n).1 (metadataSegment S.leafSpanSize lIdx n).2
  search : ∀ forWrite reads b read b', S.hopscotchSearch lIdx n forWrite reads b = some (read, b') →
    TakesMetadata S (metadataSegment S.leafSpanSize lIdx n).1 (metadataSegment S.leafSpanSize lIdx n).2 b'

theorem ReachesGroup.carriesMetadata (h : ReachesGroup S.leafSpanSize S.neighborSize hashIdx n)
    (hl : hashIdx < S.leafSpanSize) :
    CarriesMetadata S hashIdx n := by
  have hfills :
      FillsMetadata S (metadataSegment S.leafSpanSize hashIdx n).1 (metadataSegment S.leafSpanSize hashIdx n).2 := by
    rw [metadataSegment]
    split
    · rename_i hone
      rw [segmentSizeL] at hone
      refine fillsMetadata_of_lt (h.resolve_right ?_)
      split at hone <;> omega
    · rename_i htwo
      refine fillsMetadata_of_lt ?_
      rw [Nat.zero_mod, Nat.sub_zero, Nat.mod_self]
      exact Nat.pos_of_ne_zero htwo
  refine ⟨h.exists_start S.neighborSize_pos hl, hfills, fun forWrite reads b read b' hsearch => ?_⟩
  rw [metadataSegment] at hfills ⊢
  rw [LeafSizes.hopscotchSearch] at hsearch
  obtain ⟨b₁, -, hread⟩ := reRead_some (I := fun _ => True) (fun _ _ _ _ _ => trivial) hsearch trivial
  split at hread
  · rename_i hlen
    have htwo : segmentSizeL S.leafSpanSize hashIdx n ≠ 0 := by
      intro hz
      rw [hz, getOffsetInfo_rawStart.2, Nat.zero_add, Nat.sub_self] at hlen
      exact hlen rfl
    rw [if_neg htwo] at hfills ⊢
    exact readTwoSegments_metadata hfills hread
  · rename_i hlen
    have hone : segmentSizeL S.leafSpanSize hashIdx n = 0 := by
      by_contra hpos
      exact hlen (rawLen_pos (Nat.pos_of_ne_zero hpos)).ne'
    have hsizeR : segmentSizeR S.leafSpanSize hashIdx n = n := by
      rw [segmentSizeL] at hone
      rw [segmentSizeR]
      split at hone <;> omega
    rw [if_pos hone] at hfills ⊢
    rw [hsizeR] at hread
    exact readSegment_metadata hfills hread

end Reads

/-- **Hopping reads carry the metadata**: the read of an insert, which is at most the leaf, and every read of a
neighborhood. -/
theorem hopping_read_metadata (S : LeafSizes) (lIdx : Nat) (hl : lIdx < S.leafSpanSize) :
    (∀ readEntryNum, 1 ≤ readEntryNum → readEntryNum ≤ S.leafSpanSize →
      readEntryNum ≤ extendToMetadata S.neighborSize lIdx readEntryNum ∧
        extendToMetadata S.neighborSize lIdx readEntryNum ≤ S.leafSpanSize ∧
        CarriesMetadata S lIdx (extendToMetadata S.neighborSize lIdx readEntryNum)) ∧
      CarriesMetadata S lIdx S.neighborSize := by
  refine ⟨fun n h1 hn => ?_, (reachesGroup_of_le S.neighborSize_pos le_rfl).carriesMetadata hl⟩
  obtain ⟨hge, hle, hgroup⟩ := extendToMetadata_spec (l := lIdx) S.neighborSize_pos S.neighborSize_le h1 hn
  exact ⟨hge, hle, hgroup.carriesMetadata hl⟩

/-- Five slots in groups of two: a read of one slot from slot 3 on is extended to slot 4. -/
theorem hopping_read_metadata_five : 1 ≤ extendToMetadata 2 3 1 ∧ extendToMetadata 2 3 1 ≤ 5 ∧
    CarriesMetadata sampleSizes 3 (extendToMetadata 2 3 1) :=
  (hopping_read_metadata sampleSizes 3 (by decide)).1 1 (by decide) (by decide)

end Chime

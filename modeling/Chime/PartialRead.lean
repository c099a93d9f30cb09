import Chime.NodeRoundTrip

/-!
# Reads of some slots of a leaf (`hopscotch_search`, `leaf_entry_read`)

A reader reads the slots it wants to the ring buffer and decodes them into its view of the leaf, until a read is
accepted (`reRead`). With replicas, the other slots of the view stay as they are. Without, `decode_header_versions`
copies the first `FIRST_OFFSET` bytes of the ring buffer and not the header only, so that the other slots stay as they
are exactly if the bytes copied over them are theirs.

`leaf_node_insert` zeroes `allocationLeafSize` bytes of the view before, and then looks for its key in all slots. With
replicas and without fence keys in them, the leaf can be smaller in the memory than in the view, whose last slots then
keep a part of their bytes (`StaleKey`).
-/

namespace Chime

open Frame Memory

/-- `raw_leaf_buffer` and `leaf_buffer`. -/
structure ReadBuffers (α : Type) where
  raw : Nat → UInt8
  leaf : α

/-- The read that is accepted, and what it leaves. `none`: no read of the list is, or an assertion fails. -/
def reRead {α β : Type} (attempt : α → β → Option (Bool × β)) : List α → β → Option (α × β)
  | [], _ => none
  | a :: as, b =>
    match attempt a b with
    | none => none
    | some (true, b) => some (a, b)
    | some (false, b) => reRead attempt as b

/-- `segment_size_r` -/
def segmentSizeR (leafSpanSize hashIdx entryNum : Nat) : Nat := min entryNum (leafSpanSize - hashIdx)

/-- `segment_size_l` -/
def segmentSizeL (leafSpanSize hashIdx entryNum : Nat) : Nat :=
  if entryNum ≤ leafSpanSize - hashIdx then 0 else entryNum - (leafSpanSize - hashIdx)

/-- `memset(buffer, 0, size)` -/
def memset (buffer : Nat → UInt8) (size : Nat) : Nat → UInt8 := fun x => if x < size then 0 else buffer x

/-- `memset` of a view whose records are behind `leafMetadataSize` bytes. The fields of its metadata are in the first
16 bytes, which are always zeroed. -/
def RawLeaf.memset (leaf : RawLeaf) (leafMetadataSize size : Nat) : RawLeaf :=
  ⟨⟨0, 0, fun _ => 0⟩, fun x => if leafMetadataSize + x < size then 0 else leaf.records x⟩

/-! ## With replicas -/

/-- What a read finds: the bytes of the leaf, and those in the segment buffers of the ring. -/
structure LeafRead where
  node : Nat → UInt8
  segmentR : Nat → UInt8
  segmentL : Nat → UInt8

namespace LeafSizes

variable (S : LeafSizes)

/-- The read of one segment, into the view if it is accepted; `metadataNeeded`: the assertion that it has a replica. -/
def readSegment (metadataNeeded : Bool) (s n : Nat) (read : LeafRead) (b : ReadBuffers RawLeaf) :
    Option (Bool × ReadBuffers RawLeaf) :=
  let (rawOffset, rawLen, _) := LeafVersionManager.getOffsetInfo S s n
  let raw := copy b.raw rawOffset read.node rawOffset rawLen
  match decodeSegment S s n (view raw rawOffset) read.segmentR with
  | none => some (false, { b with raw })
  | some (segment, _) =>
    match MetadataManager.decodeSegmentMetadata S segment (view b.leaf.records (s * S.leafEntrySize))
      (MetadataManager.getOffsetInfo S s n).1 n with
    | none => none
    | some (records, metadata) =>
      if metadataNeeded ∧ metadata.isNone then none
      else some (true, ⟨raw, metadata.getD b.leaf.metadata, setView b.leaf.records (s * S.leafEntrySize) records⟩)

/-- The read of two segments, which have one node version if it is accepted. The assertions: the left one has a
replica, and the replicas have one version. -/
def readTwoSegments (hashIdx sizeR sizeL : Nat) (read : LeafRead) (b : ReadBuffers RawLeaf) :
    Option (Bool × ReadBuffers RawLeaf) :=
  let (rawOffsetR, rawLenR, _) := LeafVersionManager.getOffsetInfo S hashIdx sizeR
  let (rawOffsetL, rawLenL, _) := LeafVersionManager.getOffsetInfo S 0 sizeL
  let raw := copy (copy b.raw rawOffsetL read.node rawOffsetL rawLenL) rawOffsetR read.node rawOffsetR rawLenR
  match decodeSegment S 0 sizeL (view raw rawOffsetL) read.segmentL with
  | none => some (false, { b with raw })
  | some (segmentL, versionL) =>
    match decodeSegment S hashIdx sizeR (view raw rawOffsetR) read.segmentR with
    | none => some (false, { b with raw })
    | some (segmentR, versionR) =>
      if versionR ≠ versionL then some (false, { b with raw })
      else
        match MetadataManager.decodeSegmentMetadata S segmentL (view b.leaf.records 0)
          (MetadataManager.getOffsetInfo S 0 sizeL).1 sizeL with
        | none => none
        | some (recordsL, metadataL) =>
          let records := setView b.leaf.records 0 recordsL
          match MetadataManager.decodeSegmentMetadata S segmentR (view records (hashIdx * S.leafEntrySize))
            (MetadataManager.getOffsetInfo S hashIdx sizeR).1 sizeR with
          | none => none
          | some (recordsR, metadataR) =>
            match metadataL with
            | none => none
            | some metadataL =>
              if metadataR.any fun metadataR => metadataR.hVersion != metadataL.hVersion then none
              else some (true, ⟨raw, metadataL, setView records (hashIdx * S.leafEntrySize) recordsR⟩)

def allocationLeafSize : Nat := S.transLeafSize + allocationLockSize

/-- `hopscotch_search` -/
def hopscotchSearch (hashIdx entryNum : Nat) (forWrite : Bool) (reads : List LeafRead) (b : ReadBuffers RawLeaf) :
    Option (LeafRead × ReadBuffers RawLeaf) :=
  let sizeR := segmentSizeR S.leafSpanSize hashIdx entryNum
  let sizeL := segmentSizeL S.leafSpanSize hashIdx entryNum
  reRead (if (LeafVersionManager.getOffsetInfo S 0 sizeL).2.1 ≠ 0 then readTwoSegments S hashIdx sizeR sizeL
      else readSegment S (decide (S.neighborSize ≤ entryNum)) hashIdx sizeR)
    (if forWrite then reads.take 1 else reads) b

/-- `leaf_entry_read` -/
def leafEntryRead (idx : Nat) (forWrite : Bool) (reads : List LeafRead) (b : ReadBuffers RawLeaf) :
    Option (LeafRead × ReadBuffers RawLeaf) :=
  reRead (readSegment S false idx 1) (if forWrite then reads.take 1 else reads) b

end LeafSizes

/-! ## Without replicas -/

namespace NodeSizes

variable (S : NodeSizes)

/-- `decode_header_versions` from the ring buffer to the view. -/
def decodeHeader (raw leaf : Nat → UInt8) : Option Nat × (Nat → UInt8) :=
  ((VersionManager.decodeHeaderVersions S raw leaf).map Prod.snd,
    Frame.decodeOut blockSize versionSize S.firstOffset S.headerSize
      (fun _ _ i => copy leaf 0 raw 0 S.firstOffset 0 == raw i) raw leaf)

/-- The bytes that `decode_header_versions` copies over the view. -/
def copiedHeader (raw leaf : Nat → UInt8) : Nat → UInt8 := fun p => if p < S.firstOffset then raw p else leaf p

/-- `decode_segment_versions` from the ring buffer to the slots from `s` on of the view. -/
def decodeEntries (s n : Nat) (raw leaf : Nat → UInt8) : Option Nat × (Nat → UInt8) :=
  let (rawOffset, _, firstOffset) := VersionManager.getOffsetInfo S s n
  let out := view leaf (S.entryOffset s)
  ((VersionManager.decodeSegmentVersions S (view raw rawOffset) out firstOffset n).map Prod.snd,
    setView leaf (S.entryOffset s) (Frame.decodeOut blockSize versionSize firstOffset (S.entrySize * n)
      (fun out j i => out (j / S.entrySize * S.entrySize) == view raw rawOffset i) (view raw rawOffset) out))

/-- The checks of a read, and what they leave in the view. -/
def decodeSlots (sizeL hashIdx sizeR : Nat) (raw leaf : Nat → UInt8) : Bool × (Nat → UInt8) :=
  match decodeHeader S raw leaf with
  | (none, leaf) => (false, leaf)
  | (some version, leaf) =>
    match if 0 < sizeL then decodeEntries S 0 sizeL raw leaf else (some version, leaf) with
    | (none, leaf) => (false, leaf)
    | (some versionL, leaf) =>
      match decodeEntries S hashIdx sizeR raw leaf with
      | (none, leaf) => (false, leaf)
      | (some versionR, leaf) => (version == versionR && version == versionL, leaf)

/-- The read of `headerLen` bytes with the header and the left segment, and of the right segment. -/
def readSlots (headerLen sizeL hashIdx sizeR : Nat) (node : Nat → UInt8) (b : ReadBuffers (Nat → UInt8)) :
    Option (Bool × ReadBuffers (Nat → UInt8)) :=
  let (rawOffsetR, rawLenR, _) := VersionManager.getOffsetInfo S hashIdx sizeR
  let raw := copy (copy b.raw 0 node 0 headerLen) rawOffsetR node rawOffsetR rawLenR
  let (ok, leaf) := decodeSlots S sizeL hashIdx sizeR raw b.leaf
  some (ok, ⟨raw, leaf⟩)

/-- `hopscotch_search` -/
def hopscotchSearch (hashIdx entryNum : Nat) (forWrite : Bool) (reads : List (Nat → UInt8))
    (b : ReadBuffers (Nat → UInt8)) :
    Option ((Nat → UInt8) × ReadBuffers (Nat → UInt8)) :=
  let sizeR := segmentSizeR S.spanSize hashIdx entryNum
  let sizeL := segmentSizeL S.spanSize hashIdx entryNum
  let (rawOffsetL, rawLenL, _) := VersionManager.getOffsetInfo S 0 sizeL
  reRead (readSlots S (rawOffsetL + rawLenL) sizeL hashIdx sizeR) (if forWrite then reads.take 1 else reads) b

def allocationLeafSize : Nat := S.transSize + allocationLockSize

/-- `bufferMetadataSize` -/
def bufferMetadataSize (internalMetadataSize : Nat) : Nat :=
  LeafSizes.addCachelineVersionSize (max S.headerSize internalMetadataSize)

/-- `leaf_entry_read` -/
def leafEntryRead (internalMetadataSize idx : Nat) (forWrite : Bool) (reads : List (Nat → UInt8))
    (b : ReadBuffers (Nat → UInt8)) : Option ((Nat → UInt8) × ReadBuffers (Nat → UInt8)) :=
  reRead (readSlots S (bufferMetadataSize S internalMetadataSize) 0 idx 1) (if forWrite then reads.take 1 else reads) b

end NodeSizes

/-! ## The loop -/

/-- What rejected reads keep holds before the accepted one. -/
theorem reRead_some {α β : Type} {attempt : α → β → Option (Bool × β)} {I : β → Prop}
    (hstep : ∀ a b b', attempt a b = some (false, b') → I b → I b') {as : List α} {a : α} {b b' : β}
    (h : reRead attempt as b = some (a, b')) (hI : I b) : ∃ b₁, I b₁ ∧ attempt a b₁ = some (true, b') := by
  induction as generalizing b with
  | nil => cases h
  | cons a₁ as ih =>
    rw [reRead] at h
    split at h
    · cases h
    · rename_i b₁ hok
      obtain ⟨rfl, rfl⟩ := Prod.mk.inj (Option.some.inj h)
      exact ⟨b, hI, hok⟩
    · rename_i b₁ hfail
      exact ih h (hstep _ _ _ hfail hI)

/-! ## The slots that are read -/

/-- The slot is one of the `entryNum` slots from `hashIdx` on, around the end of the leaf. -/
def Requested (leafSpanSize hashIdx entryNum i : Nat) : Prop := (i + leafSpanSize - hashIdx) % leafSpanSize < entryNum

theorem requested_iff {N h n i : Nat} (hh : h < N) (hi : i < N) :
    Requested N h n i ↔ (h ≤ i ∧ i < h + segmentSizeR N h n) ∨ i < segmentSizeL N h n := by
  have hmod : (i + N - h) % N = if h ≤ i then i - h else i + N - h := by
    split
    · rw [show i + N - h = (i - h) + N by omega, Nat.add_mod_right, Nat.mod_eq_of_lt (by omega)]
    · exact Nat.mod_eq_of_lt (by omega)
  rw [Requested, hmod, segmentSizeR, segmentSizeL]
  split <;> split <;> omega

/-- What a read of some slots does to the records of the view, if `record` are the records of the leaf that was read. -/
structure ReadsOnly (spanSize entrySize : Nat) (requested : Nat → Prop) (record : Nat → Nat → UInt8)
    (before after : Nat → UInt8) : Prop where
  /-- the other slots stay as they are -/
  frame : ∀ i < spanSize, ¬ requested i → ∀ x < entrySize, after (i * entrySize + x) = before (i * entrySize + x)
  fetched : ∀ i < spanSize, requested i → ∀ x < entrySize, after (i * entrySize + x) = record i x

/-- `records[i].key == k`: the key of a record is behind its version and its hop bitmap. -/
def SlotHasKey (entrySize keyLen : Nat) (records : Nat → UInt8) (k : Nat → UInt8) (i : Nat) : Prop :=
  ∀ x < keyLen, records (i * entrySize + (3 + x)) = k x

/-- A match of `k` in the view is a record of the leaf that was read. -/
def MatchFetched (spanSize entrySize keyLen : Nat) (requested : Nat → Prop) (record : Nat → Nat → UInt8)
    (after k : Nat → UInt8) : Prop :=
  ∀ i < spanSize, SlotHasKey entrySize keyLen after k i →
    requested i ∧ ∀ x < entrySize, after (i * entrySize + x) = record i x

section ReadsOnly

variable {N E keyLen : Nat} {requested requested' : Nat → Prop} {record record' : Nat → Nat → UInt8}
  {before before' between after k : Nat → UInt8}

/-- **A key found** is one of the leaf that was read exactly if no other slot of the view had it before. -/
theorem ReadsOnly.matchFetched_iff (h : ReadsOnly N E requested record before after) (hlen : 3 + keyLen ≤ E) :
    MatchFetched N E keyLen requested record after k ↔ ∀ i < N, ¬ requested i → ¬ SlotHasKey E keyLen before k i := by
  constructor
  · intro hfetched i hi hnot hkey
    refine hnot (hfetched i hi fun x hx => ?_).1
    rw [h.frame i hi hnot _ (by omega)]
    exact hkey x hx
  · intro hnone i hi hkey
    have hreq : requested i := by
      by_contra hnot
      refine hnone i hi hnot fun x hx => ?_
      rw [← h.frame i hi hnot _ (by omega)]
      exact hkey x hx
    exact ⟨hreq, h.fetched i hi hreq⟩

/-- The condition on the slots that are not read, for a read whose effect on them is known. -/
theorem ReadsOnly.iff_frame (h : ReadsOnly N E requested record before after) :
    ReadsOnly N E requested record before' after ↔
      ∀ i < N, ¬ requested i → ∀ x < E, before (i * E + x) = before' (i * E + x) :=
  ⟨fun h' i hi hnot x hx => (h.frame i hi hnot x hx).symm.trans (h'.frame i hi hnot x hx),
    fun heq => ⟨fun i hi hnot x hx => (h.frame i hi hnot x hx).trans (heq i hi hnot x hx), h.fetched⟩⟩

/-- Two reads, one after the other. -/
theorem ReadsOnly.trans [DecidablePred requested'] (h : ReadsOnly N E requested record before between)
    (h' : ReadsOnly N E requested' record' between after) :
    ReadsOnly N E (fun i => requested i ∨ requested' i) (fun i => if requested' i then record' i else record i)
      before after := by
  refine ⟨fun i hi hnot x hx => ?_, fun i hi hreq x hx => ?_⟩
  · rw [h'.frame i hi (fun hr => hnot (.inr hr)) x hx, h.frame i hi (fun hr => hnot (.inl hr)) x hx]
  · split
    · rename_i hr
      exact h'.fetched i hi hr x hx
    · rename_i hr
      rw [h'.frame i hi hr x hx, h.fetched i hi (hreq.resolve_right hr) x hx]

theorem ReadsOnly.congr (h : ReadsOnly N E requested record before after)
    (hreq : ∀ i < N, requested' i ↔ requested i) : ReadsOnly N E requested' record before after :=
  ⟨fun i hi hnot => h.frame i hi (mt (hreq i hi).2 hnot), fun i hi hr => h.fetched i hi ((hreq i hi).1 hr)⟩

end ReadsOnly

/-- A slot has the key `k` in a view that was zeroed: from the end of what was zeroed on, its bytes are those of the
view before. -/
def StaleKey (S : LeafSizes) (leafMetadataSize keyLen : Nat) (leaf : RawLeaf) (k : Nat → UInt8) (i : Nat) : Prop :=
  ∀ x < keyLen, k x = if leafMetadataSize + (i * S.leafEntrySize + (3 + x)) < S.allocationLeafSize then 0
    else leaf.records (i * S.leafEntrySize + (3 + x))

/-- **All is zeroed** if the leaf is not smaller in the memory than in the view. -/
theorem StaleKey.size_lt {S : LeafSizes} {leafMetadataSize keyLen i : Nat} {leaf : RawLeaf} {k : Nat → UInt8}
    (h : StaleKey S leafMetadataSize keyLen leaf k i) (hlen : 3 + keyLen ≤ S.leafEntrySize) (hi : i < S.leafSpanSize)
    (hk : ∃ x < keyLen, k x ≠ 0) :
    S.allocationLeafSize < leafMetadataSize + S.leafSpanSize * S.leafEntrySize := by
  obtain ⟨x, hx, hne⟩ := hk
  have hle : (i + 1) * S.leafEntrySize ≤ S.leafSpanSize * S.leafEntrySize := Nat.mul_le_mul_right _ hi
  rw [Nat.succ_mul] at hle
  by_contra hge
  refine hne ?_
  rw [h x hx, if_pos (by omega)]

theorem slotHasKey_memset {S : LeafSizes} {leafMetadataSize keyLen i : Nat} {leaf : RawLeaf} {k : Nat → UInt8} :
    SlotHasKey S.leafEntrySize keyLen (leaf.memset leafMetadataSize S.allocationLeafSize).records k i ↔
      StaleKey S leafMetadataSize keyLen leaf k i :=
  forall₂_congr fun _ _ => eq_comm

/-! ## Leaves with replicas -/

section Replicated

open LeafVersionManager LeafSizes

variable {S : LeafSizes} {s n q x idx hashIdx sizeR sizeL entryNum : Nat}
    {raw node inp out records segment : Nat → UInt8}
  {metadata : Option RawMetadata} {read : LeafRead} {b b' : ReadBuffers RawLeaf} {needed forWrite : Bool}

/-- What `decode_segment_metadata` leaves. -/
theorem decodeSegmentMetadata_some
    (h : MetadataManager.decodeSegmentMetadata S inp out (MetadataManager.getOffsetInfo S s n).1 n =
      some (records, metadata)) :
    (∀ x < n * S.leafEntrySize,
      records x = unframe S.groupSize S.scatterMetadataSize (S.sizeL s n * S.leafEntrySize) inp x) ∧
      ∀ x, n * S.leafEntrySize ≤ x → records x = out x := by
  have hle : S.sizeL s n * S.leafEntrySize ≤ n * S.leafEntrySize := Nat.mul_le_mul_right _ sizeL_le
  rw [metadata_getOffsetInfo] at h
  simp only [MetadataManager.decodeSegmentMetadata, Nat.mul_comm S.leafEntrySize] at h
  split at h
  · rename_i hall
    obtain ⟨rfl, rfl⟩ := Prod.mk.inj (Option.some.inj h)
    refine ⟨fun x hx => ?_, fun x hx => copy_of_not (by omega)⟩
    rw [copy_apply (by omega), unframe, pos_of_lt S.groupSize_pos (by omega), Nat.zero_add, Nat.sub_zero]
  · obtain ⟨records₁, hdec, heq⟩ := Option.map_eq_some_iff.1 h
    obtain ⟨rfl, rfl⟩ := Prod.mk.inj heq
    refine ⟨(decode_spec S.groupSize_pos fun _ _ _ _ _ => rfl).1 _ hdec, fun x hx => ?_⟩
    rw [← decodeOut_of_some hdec, decodeOut_of_le (by omega) hx]

/-- The records of an accepted segment are those of the leaf that was read. -/
theorem records_of_segment {version : Nat} (hbuf : SegmentOf S s n node raw)
    (hdec : decodeSegment S s n raw inp = some (segment, version))
    (hmeta : MetadataManager.decodeSegmentMetadata S segment out (MetadataManager.getOffsetInfo S s n).1 n =
      some (records, metadata)) (hq : q < n) (hx : x < S.leafEntrySize) :
    records (q * S.leafEntrySize + x) = decoded S node (S.recordPos (s + q) + x) := by
  have hlt : (q + 1) * S.leafEntrySize ≤ n * S.leafEntrySize := Nat.mul_le_mul_right _ hq
  rw [Nat.succ_mul] at hlt
  have hpos := pos_lt_start (b := S.groupSize) (w := S.scatterMetadataSize) (f := S.sizeL s n * S.leafEntrySize)
    (show q * S.leafEntrySize + x < n * S.leafEntrySize by omega)
  have hsegment := (decodeSegment_some (by omega) hbuf hdec).2.2
  rw [metadata_getOffsetInfo] at hsegment
  rw [(decodeSegmentMetadata_some hmeta).1 _ (by omega), unframe, hsegment _ hpos, ← segmentRecordPos_eq hx,
    ← Nat.add_assoc,
    ← recordPos_add hq]

/-- The slots of a segment. -/
theorem setView_segment {before : Nat → UInt8} (hrec : ∀ q < n, ∀ x < S.leafEntrySize,
      records (q * S.leafEntrySize + x) = decoded S node (S.recordPos (s + q) + x))
    (hrest : ∀ x, n * S.leafEntrySize ≤ x → records x = view before (s * S.leafEntrySize) x) :
    ReadsOnly S.leafSpanSize S.leafEntrySize (fun i => s ≤ i ∧ i < s + n)
      (fun i x => decoded S node (S.recordPos i + x)) before
      (setView before (s * S.leafEntrySize) records) := by
  refine ⟨fun i _ hout x hx => ?_, fun i _ hin x hx => ?_⟩
  · rcases Nat.lt_or_ge i s with hlt | hge
    · have hle : (i + 1) * S.leafEntrySize ≤ s * S.leafEntrySize := Nat.mul_le_mul_right _ hlt
      rw [Nat.succ_mul] at hle
      exact setView_of_lt (by omega)
    · obtain ⟨q, rfl⟩ := Nat.exists_eq_add_of_le hge
      have hle : n * S.leafEntrySize ≤ q * S.leafEntrySize := Nat.mul_le_mul_right _ (by omega)
      rw [Nat.add_mul, Nat.add_assoc, setView_add, hrest _ (by omega), view]
  · obtain ⟨q, rfl⟩ := Nat.exists_eq_add_of_le hin.1
    rw [Nat.add_mul, Nat.add_assoc, setView_add, hrec q (by omega) x hx]

/-- A byte that is read. -/
theorem copy_same {dst src : Nat → UInt8} {d len p : Nat} (h : (d ≤ p ∧ p < d + len) ∨ dst p = src p) :
    copy dst d src d len p = src p := by
  by_cases hin : d ≤ p ∧ p < d + len
  · rw [copy_apply hin, Nat.add_sub_cancel' hin.1]
  · rw [copy_of_not hin]
    exact h.resolve_left hin

/-- A rejected read of a segment leaves the view. -/
theorem readSegment_false (h : S.readSegment needed s n read b = some (false, b')) : b'.leaf = b.leaf := by
  simp only [readSegment] at h
  split at h
  · obtain rfl := (Prod.mk.inj (Option.some.inj h)).2
    rfl
  · split at h
    · cases h
    · split at h
      · cases h
      · cases h

/-- **One segment.** -/
theorem readSegment_true (h : S.readSegment needed s n read b = some (true, b')) :
    ReadsOnly S.leafSpanSize S.leafEntrySize (fun i => s ≤ i ∧ i < s + n)
      (fun i x => decoded S read.node (S.recordPos i + x))
      b.leaf.records b'.leaf.records := by
  simp only [readSegment] at h
  split at h
  · cases h
  · rename_i segment version hdec
    split at h
    · cases h
    · rename_i records metadata hmeta
      split at h
      · cases h
      · obtain rfl := (Prod.mk.inj (Option.some.inj h)).2
        have hbuf : SegmentOf S s n read.node (view (copy b.raw (LeafVersionManager.getOffsetInfo S s n).1 read.node
            (LeafVersionManager.getOffsetInfo S s n).1 (LeafVersionManager.getOffsetInfo S s n).2.1)
            (LeafVersionManager.getOffsetInfo S s n).1) :=
          fun x hx => copy_same (.inl ⟨by omega, by omega⟩)
        exact setView_segment (fun q hq x hx => records_of_segment hbuf hdec hmeta hq hx)
          (decodeSegmentMetadata_some hmeta).2

/-- A rejected read of two segments leaves the view. -/
theorem readTwoSegments_false (h : S.readTwoSegments hashIdx sizeR sizeL read b = some (false, b')) :
    b'.leaf = b.leaf := by
  simp only [readTwoSegments] at h
  split at h
  · obtain rfl := (Prod.mk.inj (Option.some.inj h)).2
    rfl
  · split at h
    · obtain rfl := (Prod.mk.inj (Option.some.inj h)).2
      rfl
    · split at h
      · obtain rfl := (Prod.mk.inj (Option.some.inj h)).2
        rfl
      · split at h
        · cases h
        · split at h
          · cases h
          · split at h
            · cases h
            · split at h <;> cases h

/-- **Two segments.** -/
theorem readTwoSegments_true (h : S.readTwoSegments hashIdx sizeR sizeL read b = some (true, b')) :
    ReadsOnly S.leafSpanSize S.leafEntrySize (fun i => (0 ≤ i ∧ i < 0 + sizeL) ∨ (hashIdx ≤ i ∧ i < hashIdx + sizeR))
      (fun i x => decoded S read.node (S.recordPos i + x)) b.leaf.records b'.leaf.records := by
  simp only [readTwoSegments] at h
  generalize hraw : copy (copy b.raw (getOffsetInfo S 0 sizeL).1 read.node (getOffsetInfo S 0 sizeL).1
    (getOffsetInfo S 0 sizeL).2.1) (getOffsetInfo S hashIdx sizeR).1 read.node (getOffsetInfo S hashIdx sizeR).1
    (getOffsetInfo S hashIdx sizeR).2.1 = raw at h
  have hbufL : SegmentOf S 0 sizeL read.node (view raw (getOffsetInfo S 0 sizeL).1) := fun x hx => by
    rw [view, ← hraw]
    exact copy_same (.inr (copy_same (.inl ⟨by omega, by omega⟩)))
  have hbufR : SegmentOf S hashIdx sizeR read.node (view raw (getOffsetInfo S hashIdx sizeR).1) := fun x hx => by
    rw [view, ← hraw]
    exact copy_same (.inl ⟨by omega, by omega⟩)
  split at h
  · cases h
  rename_i segmentL versionL hdecL
  split at h
  · cases h
  rename_i segmentR versionR hdecR
  split at h
  · cases h
  split at h
  · cases h
  rename_i recordsL metadataL hmetaL
  split at h
  · cases h
  rename_i recordsR metadataR hmetaR
  split at h
  · cases h
  split at h
  · cases h
  obtain rfl := (Prod.mk.inj (Option.some.inj h)).2
  have hrestL := (decodeSegmentMetadata_some hmetaL).2
  rw [← Nat.zero_mul S.leafEntrySize] at hrestL
  have hL := setView_segment (fun q hq x hx => records_of_segment hbufL hdecL hmetaL hq hx) hrestL
  have hR := setView_segment (fun q hq x hx => records_of_segment hbufR hdecR hmetaR hq hx)
    (decodeSegmentMetadata_some hmetaR).2
  rw [Nat.zero_mul] at hL
  simpa only [ite_self] using hL.trans hR

/-- A segment with records has raw bytes. -/
theorem rawLen_pos (hn : 0 < n) : 0 < (LeafVersionManager.getOffsetInfo S s n).2.1 := by
  have hadd := decodedOffset_add (S := S) (s := s) (n := n)
  have hpos : 0 < n * S.leafEntrySize := Nat.mul_pos hn S.leafEntrySize_pos
  have hle : n * S.leafEntrySize ≤ start S.groupSize S.scatterMetadataSize (S.sizeL s n * S.leafEntrySize)
      (n * S.leafEntrySize) := Nat.le_add_right _ _
  have hlt := pos_lt_start (b := blockSize) (w := versionSize) (f := S.firstOffset)
    (show decodedOffset S s < decodedOffset S (s + n) by omega)
  have hstart := start_le_pos (b := blockSize) (w := versionSize) (f := S.firstOffset) (p := decodedOffset S s)
  rw [getOffsetInfo_eq rfl rfl (by omega)]
  simp only
  omega

/-- **`hopscotch_search`** with replicas. -/
theorem LeafSizes.hopscotchSearch_readsOnly (hh : hashIdx < S.leafSpanSize) {reads : List LeafRead}
    (h : S.hopscotchSearch hashIdx entryNum forWrite reads b = some (read, b')) :
    ReadsOnly S.leafSpanSize S.leafEntrySize (Requested S.leafSpanSize hashIdx entryNum)
      (fun i x => decoded S read.node (S.recordPos i + x)) b.leaf.records b'.leaf.records := by
  rw [hopscotchSearch] at h
  split at h
  · obtain ⟨b₁, hleaf, hread⟩ := reRead_some (I := fun b₁ => b₁.leaf = b.leaf)
      (fun _ _ _ hr hI => (readTwoSegments_false hr).trans hI) h rfl
    rw [← hleaf]
    refine (readTwoSegments_true hread).congr fun i hi => ?_
    rw [requested_iff hh hi]
    omega
  · rename_i hlen
    have hsizeL : segmentSizeL S.leafSpanSize hashIdx entryNum = 0 := by
      by_contra hne
      exact hlen (rawLen_pos (Nat.pos_of_ne_zero hne)).ne'
    obtain ⟨b₁, hleaf, hread⟩ := reRead_some (I := fun b₁ => b₁.leaf = b.leaf)
      (fun _ _ _ hr hI => (readSegment_false hr).trans hI) h rfl
    rw [← hleaf]
    refine (readSegment_true hread).congr fun i hi => ?_
    rw [requested_iff hh hi, hsizeL]
    omega

/-- **`leaf_entry_read`** with replicas. -/
theorem LeafSizes.leafEntryRead_readsOnly {reads : List LeafRead}
    (h : S.leafEntryRead idx forWrite reads b = some (read, b')) :
    ReadsOnly S.leafSpanSize S.leafEntrySize (· = idx) (fun i x => decoded S read.node (S.recordPos i + x))
      b.leaf.records b'.leaf.records := by
  obtain ⟨b₁, hleaf, hread⟩ := reRead_some (I := fun b₁ => b₁.leaf = b.leaf)
    (fun _ _ _ hr hI => (readSegment_false hr).trans hI) h rfl
  rw [← hleaf]
  refine (readSegment_true hread).congr fun i _ => ?_
  omega

end Replicated

/-! ## Leaves without replicas -/

section Plain

open VersionManager NodeSizes

variable {S : NodeSizes} {s n p i x v idx hashIdx sizeR sizeL headerLen : Nat} {raw node leaf leaf' : Nat → UInt8}
  {b b' : ReadBuffers (Nat → UInt8)} {ok : Bool}

/-- What `decode_header_versions` leaves: the first bytes of the ring buffer. -/
theorem decodeHeader_of_le (hp : S.headerSize ≤ p) :
    (S.decodeHeader raw leaf).2 p = if p < S.firstOffset then raw p else leaf p := by
  split
  · rename_i hlt
    exact decodeOut_of_lt hlt
  · exact decodeOut_of_le (by omega) hp

theorem first_le {b f s e : Nat} : first b f s e ≤ e - s := Nat.min_le_right _ _

/-- `decode_segment_versions` leaves the other bytes of the view. -/
theorem decodeEntries_of_not (h : p < S.entryOffset s ∨ S.entryOffset (s + n) ≤ p) :
    (S.decodeEntries s n raw leaf).2 p = leaf p := by
  simp only [decodeEntries, NodeSizes.getOffsetInfo_eq]
  rcases h with hlt | hge
  · exact setView_of_lt hlt
  · rw [entryOffset_add] at hge
    obtain ⟨x, rfl⟩ := Nat.exists_eq_add_of_le (show S.entryOffset s ≤ p by omega)
    have hfirst := first_le (b := blockSize) (f := S.firstOffset) (s := S.entryOffset s) (e := S.entryOffset (s + n))
    rw [entryOffset_add, Nat.add_sub_cancel_left] at hfirst
    rw [setView_add, decodeOut_of_le (by rw [entryOffset_add]; omega) (by rw [Nat.mul_comm]; omega), view]

/-- What an accepted segment is decoded to. -/
theorem decodeEntries_some (h : (S.decodeEntries s n raw leaf).1 = some v) (hs : S.entryOffset s ≤ p)
    (hp : p < S.entryOffset (s + n)) :
    (S.decodeEntries s n raw leaf).2 p = unframe blockSize versionSize S.firstOffset raw p := by
  have hse : S.entryOffset s ≤ S.entryOffset (s + n) := entryOffset_le (Nat.le_add_right s n)
  have hsub : S.entryOffset (s + n) - S.entryOffset s = n * S.entrySize := by
    rw [entryOffset_add, Nat.add_sub_cancel_left]
  simp only [decodeEntries, NodeSizes.getOffsetInfo_eq] at h ⊢
  obtain ⟨result, hdec, -⟩ := Option.map_eq_some_iff.1 h
  obtain ⟨out, hfilter, -⟩ := Option.map_eq_some_iff.1 hdec
  have hout := (Option.filter_eq_some_iff.1 hfilter).1
  obtain ⟨x, rfl⟩ := Nat.exists_eq_add_of_le hs
  have hlocal := local_mark (g := fun j => j / S.entrySize * S.entrySize) (fun _ => Nat.div_mul_le_self _ _)
    (view raw (start blockSize versionSize S.firstOffset (S.entryOffset s)))
  rw [setView_add, decodeOut_of_some hout, (decode_spec blockSize_pos hlocal).1 _ hout x (by rw [Nat.mul_comm]; omega)]
  exact unframe_slice blockSize_pos hse (fun _ _ => rfl) (by omega)

/-- The bytes of the slots that are not read. -/
structure Unread (S : NodeSizes) (sizeL hashIdx sizeR p : Nat) : Prop where
  header : S.headerSize ≤ p
  left : S.entryOffset sizeL ≤ p
  right : p < S.entryOffset hashIdx ∨ S.entryOffset (hashIdx + sizeR) ≤ p

/-- **The checks** of a read leave the first bytes of the ring buffer in the slots that are not read. -/
theorem decodeSlots_unread (hp : Unread S sizeL hashIdx sizeR p) :
    (S.decodeSlots sizeL hashIdx sizeR raw leaf).2 p = if p < S.firstOffset then raw p else leaf p := by
  have hleft {leaf : Nat → UInt8} : (S.decodeEntries 0 sizeL raw leaf).2 p = leaf p :=
    decodeEntries_of_not (.inr (by rw [Nat.zero_add]; exact hp.left))
  have hright {leaf : Nat → UInt8} : (S.decodeEntries hashIdx sizeR raw leaf).2 p = leaf p :=
    decodeEntries_of_not hp.right
  rw [← decodeHeader_of_le hp.header, decodeSlots]
  split
  · rename_i leaf₁ hheader
    rw [hheader]
  · rename_i version leaf₁ hheader
    have hmid : (if 0 < sizeL then S.decodeEntries 0 sizeL raw leaf₁ else (some version, leaf₁)).2 p = leaf₁ p := by
      split
      · exact hleft
      · rfl
    rw [hheader]
    split
    · rename_i leaf₂ hL
      rwa [hL] at hmid
    · rename_i versionL leaf₂ hL
      rw [hL] at hmid
      have hlast := @hright leaf₂
      split
      · rename_i leaf₃ hR
        rw [hR] at hlast
        exact hlast.trans hmid
      · rename_i versionR leaf₃ hR
        rw [hR] at hlast
        exact hlast.trans hmid

/-- The slots of an accepted read have the bytes of the ring buffer. -/
theorem decodeSlots_read (h : S.decodeSlots sizeL hashIdx sizeR raw leaf = (true, leaf'))
    (hp : (S.entryOffset hashIdx ≤ p ∧ p < S.entryOffset (hashIdx + sizeR)) ∨
      (S.entryOffset 0 ≤ p ∧ p < S.entryOffset sizeL)) :
    leaf' p = unframe blockSize versionSize S.firstOffset raw p := by
  rw [decodeSlots] at h
  split at h
  · cases h
  rename_i version leaf₁ hheader
  split at h
  · cases h
  rename_i versionL leaf₂ hL
  split at h
  · cases h
  rename_i versionR leaf₃ hR
  obtain rfl := (Prod.mk.inj h).2
  by_cases hin : S.entryOffset hashIdx ≤ p ∧ p < S.entryOffset (hashIdx + sizeR)
  · have := decodeEntries_some (congrArg Prod.fst hR) hin.1 hin.2
    rwa [hR] at this
  · have hp := hp.resolve_left hin
    have hpos : 0 < sizeL := by
      refine Nat.pos_of_ne_zero fun hzero => ?_
      rw [hzero] at hp
      omega
    have hlast : (S.decodeEntries hashIdx sizeR raw leaf₂).2 p = leaf₂ p := decodeEntries_of_not (by omega)
    rw [if_pos hpos] at hL
    have hleft := decodeEntries_some (p := p) (congrArg Prod.fst hL) hp.1 (by rw [Nat.zero_add]; exact hp.2)
    rw [hL] at hleft
    rw [hR] at hlast
    exact hlast.trans hleft

/-! ### A read -/

/-- The bytes of the right segment in the ring buffer. -/
theorem readSlots_raw (h : S.readSlots headerLen sizeL hashIdx sizeR node b = some (ok, b')) :
    b'.raw = copy (copy b.raw 0 node 0 headerLen)
      (start blockSize versionSize S.firstOffset (S.entryOffset hashIdx)) node
        (start blockSize versionSize S.firstOffset (S.entryOffset hashIdx))
        (start blockSize versionSize S.firstOffset (S.entryOffset (hashIdx + sizeR)) -
          start blockSize versionSize S.firstOffset (S.entryOffset hashIdx)) ∧
      S.decodeSlots sizeL hashIdx sizeR b'.raw b.leaf = (ok, b'.leaf) := by
  simp only [readSlots, NodeSizes.getOffsetInfo_eq] at h
  obtain ⟨rfl, rfl⟩ := Prod.mk.inj (Option.some.inj h)
  exact ⟨rfl, rfl⟩

/-- In front of the first version byte, the slots that are not read have their bytes of the ring buffer, but for those
read with the header. -/
theorem readSlots_front (h : S.readSlots headerLen sizeL hashIdx sizeR node b = some (ok, b'))
    (hp : Unread S sizeL hashIdx sizeR p) (hlt : p < S.firstOffset) :
    b'.raw p = if p < headerLen then node p else b.raw p := by
  have hpos := pos_of_lt (w := versionSize) blockSize_pos hlt
  have hout : ¬(start blockSize versionSize S.firstOffset (S.entryOffset hashIdx) ≤ p ∧
      p < start blockSize versionSize S.firstOffset (S.entryOffset (hashIdx + sizeR))) := by
    rw [← hpos, ← Nat.not_lt, pos_lt_start_iff, pos_lt_start_iff]
    have := hp.right
    omega
  rw [(readSlots_raw h).1, copy_of_not (by omega)]
  split
  · exact copy_same (.inl (by omega))
  · exact copy_of_not (by omega)

/-- The slots of an accepted read are those of the leaf. -/
theorem readSlots_read (h : S.readSlots headerLen sizeL hashIdx sizeR node b = some (true, b'))
    (hheader : 0 < sizeL → start blockSize versionSize S.firstOffset (S.entryOffset sizeL) ≤ headerLen)
    (hp : (S.entryOffset hashIdx ≤ p ∧ p < S.entryOffset (hashIdx + sizeR)) ∨
      (S.entryOffset 0 ≤ p ∧ p < S.entryOffset sizeL)) :
    b'.leaf p = unframe blockSize versionSize S.firstOffset node p := by
  obtain ⟨hraw, hdec⟩ := readSlots_raw h
  rw [decodeSlots_read hdec hp, unframe, unframe, hraw]
  refine copy_same ?_
  by_cases hin : S.entryOffset hashIdx ≤ p ∧ p < S.entryOffset (hashIdx + sizeR)
  · have hlo : ¬ pos blockSize versionSize S.firstOffset p <
        start blockSize versionSize S.firstOffset (S.entryOffset hashIdx) :=
      mt pos_lt_start_iff.1 (by omega)
    have hhi := pos_lt_start (b := blockSize) (w := versionSize) (f := S.firstOffset) hin.2
    exact .inl (by omega)
  · have hp := hp.resolve_left hin
    have hpos : 0 < sizeL := by
      refine Nat.pos_of_ne_zero fun hzero => ?_
      rw [hzero] at hp
      omega
    have hlt := pos_lt_start (b := blockSize) (w := versionSize) (f := S.firstOffset) hp.2
    have := hheader hpos
    exact .inr (copy_same (.inl (by omega)))

/-- **The slots that are not read**, after the loop. -/
theorem reRead_unread {reads : List (Nat → UInt8)}
    (h : reRead (S.readSlots headerLen sizeL hashIdx sizeR) reads b = some (node, b'))
    (hp : Unread S sizeL hashIdx sizeR p) :
    b'.leaf p = if p < S.firstOffset then if p < headerLen then node p else b.raw p else b.leaf p := by
  have hleaf {ok : Bool} {node : Nat → UInt8} {b₁ b₂ : ReadBuffers (Nat → UInt8)}
      (hread : S.readSlots headerLen sizeL hashIdx sizeR node b₁ = some (ok, b₂)) :
      b₂.leaf p = if p < S.firstOffset then b₂.raw p else b₁.leaf p := by
    have : (S.decodeSlots sizeL hashIdx sizeR b₂.raw b₁.leaf).2 p = _ := decodeSlots_unread hp
    rwa [(readSlots_raw hread).2] at this
  have hrejected (node₁ : Nat → UInt8) (b₁ b₂ : ReadBuffers (Nat → UInt8))
      (hread : S.readSlots headerLen sizeL hashIdx sizeR node₁ b₁ = some (false, b₂))
      (hI : (p < S.firstOffset → headerLen ≤ p → b₁.raw p = b.raw p) ∧ (S.firstOffset ≤ p → b₁.leaf p = b.leaf p)) :
      (p < S.firstOffset → headerLen ≤ p → b₂.raw p = b.raw p) ∧ (S.firstOffset ≤ p → b₂.leaf p = b.leaf p) := by
    refine ⟨fun hlt hge => ?_, fun hge => ?_⟩
    · rw [readSlots_front hread hp hlt, if_neg (by omega), hI.1 hlt hge]
    · rw [hleaf hread, if_neg (by omega), hI.2 hge]
  obtain ⟨b₁, ⟨hraw, hrest⟩, hread⟩ := reRead_some hrejected h ⟨fun _ _ => rfl, fun _ => rfl⟩
  rw [hleaf hread]
  split
  · rename_i hlt
    rw [readSlots_front hread hp hlt]
    split
    · rfl
    · rename_i hge
      exact hraw hlt (by omega)
  · rename_i hge
    exact hrest (by omega)

/-! ### The exact condition -/

theorem entryOffset_le_add (hx : x < S.entrySize) : S.entryOffset s ≤ S.entryOffset i + x ↔ s ≤ i := by
  refine ⟨fun h => Nat.le_of_not_lt fun hlt => ?_, fun h => (entryOffset_le h).trans (Nat.le_add_right _ _)⟩
  have := entryOffset_le (S := S) (show i + 1 ≤ s by omega)
  rw [entryOffset_add, Nat.one_mul] at this
  omega

/-- A byte of a slot is not read if the slot is not. -/
theorem unread_iff (hx : x < S.entrySize) : Unread S sizeL hashIdx sizeR (S.entryOffset i + x) ↔
    ¬((hashIdx ≤ i ∧ i < hashIdx + sizeR) ∨ i < sizeL) := by
  have hle (s : Nat) := entryOffset_le_add (S := S) (s := s) (i := i) hx
  have hlt (s : Nat) : S.entryOffset i + x < S.entryOffset s ↔ i < s := by
    rw [← Nat.not_le, hle, Nat.not_le]
  have hheader : S.headerSize ≤ S.entryOffset i + x := by
    rw [entryOffset]
    omega
  constructor
  · intro h
    have hleft := (hle _).1 h.left
    have hright := h.right
    rw [hlt, hle] at hright
    omega
  · intro h
    refine ⟨hheader, (hle _).2 (by omega), ?_⟩
    rw [hlt, hle]
    omega

theorem entryOffset_add_lt (hi : i < S.spanSize) (hx : x < S.entrySize) : S.entryOffset i + x < S.nodeSize := by
  have hend := entryOffset_le (S := S) (show i + 1 ≤ S.spanSize from hi)
  rw [entryOffset_add, Nat.one_mul] at hend
  rw [nodeSize]
  omega

/-- The bytes of the slots that are not requested. -/
theorem forall_slot_iff {requested : Nat → Prop} {P : Nat → Prop} :
    (∀ i < S.spanSize, ¬ requested i → ∀ x < S.entrySize, P (S.entryOffset i + x)) ↔
      ∀ p, S.headerSize ≤ p → p < S.nodeSize → ¬ requested ((p - S.headerSize) / S.entrySize) → P p := by
  constructor
  · intro hslot p hge hlt hnot
    have hi : (p - S.headerSize) / S.entrySize < S.spanSize := by
      rw [nodeSize, entryOffset] at hlt
      rw [Nat.div_lt_iff_lt_mul S.entrySize_pos]
      omega
    have hp := hslot _ hi hnot _ (Nat.mod_lt (p - S.headerSize) S.entrySize_pos)
    have hdiv := Nat.div_add_mod' (p - S.headerSize) S.entrySize
    rwa [entryOffset, Nat.add_assoc, hdiv, Nat.add_sub_cancel' hge] at hp
  · intro hbyte i hi hnot x hx
    have hslot : (S.entryOffset i + x - S.headerSize) / S.entrySize = i := by
      rw [entryOffset, show S.headerSize + i * S.entrySize + x - S.headerSize = S.entrySize * i + x by
        rw [Nat.mul_comm]; omega, Nat.mul_add_div S.entrySize_pos, Nat.div_eq_of_lt hx, Nat.add_zero]
    refine hbyte _ ?_ (entryOffset_add_lt hi hx) (by rwa [hslot])
    rw [entryOffset]
    omega

/-- **An accepted read** of some slots touches these slots and what `decode_header_versions` copies. -/
theorem readsOnly_copied {requested : Nat → Prop} {reads : List (Nat → UInt8)}
    (h : reRead (S.readSlots headerLen sizeL hashIdx sizeR) reads b = some (node, b'))
    (hheader : 0 < sizeL → start blockSize versionSize S.firstOffset (S.entryOffset sizeL) ≤ headerLen)
    (hreq : ∀ i < S.spanSize, requested i ↔ (hashIdx ≤ i ∧ i < hashIdx + sizeR) ∨ i < sizeL) :
    ReadsOnly S.spanSize S.entrySize requested
      (fun i x => unframe blockSize versionSize S.firstOffset node (S.entryOffset i + x))
      (view (S.copiedHeader (fun p => if p < headerLen then node p else b.raw p) b.leaf) S.headerSize)
      (view b'.leaf S.headerSize) := by
  have hbyte (i x : Nat) : S.headerSize + (i * S.entrySize + x) = S.entryOffset i + x := (Nat.add_assoc ..).symm
  refine ⟨fun i hi hnot x hx => ?_, fun i hi hr x hx => ?_⟩
  · have hunread := (unread_iff (S := S) hx).2 (mt (hreq i hi).2 hnot)
    rw [view, view, hbyte, reRead_unread h hunread, copiedHeader]
  · obtain ⟨b₁, -, hread⟩ := reRead_some (I := fun _ => True) (fun _ _ _ _ _ => trivial) h trivial
    have hzero (hL : i < sizeL) : S.entryOffset 0 ≤ S.entryOffset i + x := (entryOffset_le_add hx).2 (Nat.zero_le i)
    have hlt {s : Nat} (his : i < s) : S.entryOffset i + x < S.entryOffset s := by
      rw [← Nat.not_le, entryOffset_le_add hx]
      omega
    rw [view, hbyte]
    refine readSlots_read hread hheader (((hreq i hi).1 hr).imp (fun hR => ?_) fun hL => ⟨hzero hL, hlt hL⟩)
    exact ⟨(entryOffset_le_add hx).2 hR.1, hlt hR.2⟩

/-- **The exact condition** for a read to leave the other slots of the view as they are: the bytes in front of the
first version byte that are copied over them are theirs. -/
theorem readsOnly_iff {requested : Nat → Prop} {record : Nat → Nat → UInt8} {after : Nat → UInt8}
    (h : ReadsOnly S.spanSize S.entrySize requested record (view (S.copiedHeader raw leaf) S.headerSize) after) :
    ReadsOnly S.spanSize S.entrySize requested record (view leaf S.headerSize) after ↔
      ∀ p, S.headerSize ≤ p → p < S.firstOffset → ¬ requested ((p - S.headerSize) / S.entrySize) →
        raw p = leaf p := by
  have hbyte (i x : Nat) : S.headerSize + (i * S.entrySize + x) = S.entryOffset i + x := (Nat.add_assoc ..).symm
  have hfirst : S.firstOffset ≤ S.nodeSize := Nat.min_le_right _ _
  simp only [h.iff_frame, view, hbyte, copiedHeader]
  rw [forall_slot_iff (P := fun p => (if p < S.firstOffset then raw p else leaf p) = leaf p)]
  refine forall₂_congr fun p hge => ⟨fun hall hlt hnot => ?_, fun hall _ hnot => ?_⟩
  · simpa only [if_pos hlt] using hall (by omega) hnot
  · split
    · rename_i hlt
      exact hall hlt hnot
    · rfl

/-- **`hopscotch_search`** without replicas. -/
theorem NodeSizes.hopscotchSearch_readsOnly {entryNum : Nat} {forWrite : Bool} {reads : List (Nat → UInt8)}
    (hh : hashIdx < S.spanSize) (h : S.hopscotchSearch hashIdx entryNum forWrite reads b = some (node, b')) :
    ReadsOnly S.spanSize S.entrySize (Requested S.spanSize hashIdx entryNum)
      (fun i x => unframe blockSize versionSize S.firstOffset node (S.entryOffset i + x))
      (view (S.copiedHeader b.raw b.leaf) S.headerSize) (view b'.leaf S.headerSize) := by
  have hmono : start blockSize versionSize S.firstOffset (S.entryOffset 0) ≤
      start blockSize versionSize S.firstOffset (S.entryOffset (segmentSizeL S.spanSize hashIdx entryNum)) :=
    start_mono (entryOffset_le (Nat.zero_le _))
  simp only [hopscotchSearch, NodeSizes.getOffsetInfo_eq, Nat.zero_add, Nat.add_sub_cancel' hmono] at h
  have hcopied := readsOnly_copied h (fun _ => le_rfl) fun i hi => requested_iff hh hi
  refine hcopied.iff_frame.2 fun i hi hnot x hx => ?_
  rw [view, view, ← Nat.add_assoc, ← entryOffset, copiedHeader, copiedHeader]
  split
  · rename_i hlt
    -- the bytes read with the left segment are those of its slots
    have hleft : ¬ S.entryOffset i + x <
        start blockSize versionSize S.firstOffset (S.entryOffset (segmentSizeL S.spanSize hashIdx entryNum)) := by
      rw [← pos_of_lt (w := versionSize) blockSize_pos hlt, pos_lt_start_iff, Nat.not_lt, entryOffset_le_add hx]
      rw [requested_iff hh hi] at hnot
      omega
    rw [if_neg hleft]
  · rfl

/-- **`leaf_entry_read`** without replicas. -/
theorem NodeSizes.leafEntryRead_readsOnly {internalMetadataSize : Nat} {forWrite : Bool} {reads : List (Nat → UInt8)}
    (h : S.leafEntryRead internalMetadataSize idx forWrite reads b = some (node, b')) :
    ReadsOnly S.spanSize S.entrySize (· = idx)
      (fun i x => unframe blockSize versionSize S.firstOffset node (S.entryOffset i + x))
      (view (S.copiedHeader (fun p => if p < S.bufferMetadataSize internalMetadataSize then node p else b.raw p) b.leaf)
        S.headerSize)
      (view b'.leaf S.headerSize) := by
  have hnot : ¬ 0 < 0 := Nat.lt_irrefl 0
  exact readsOnly_copied h (fun hpos => absurd hpos hnot) fun i _ => by omega

/-- A slot has the key `k` in a view that was zeroed, after `decode_header_versions`. -/
def NodeSizes.StaleKey (S : NodeSizes) (keyLen : Nat) (raw k : Nat → UInt8) (i : Nat) : Prop :=
  ∀ x < keyLen, k x = if S.entryOffset i + (3 + x) < S.firstOffset then raw (S.entryOffset i + (3 + x)) else 0

/-- All of the view is zeroed. -/
theorem memset_allocationLeafSize (hp : p < S.nodeSize) : memset leaf S.allocationLeafSize p = 0 := by
  have hle : S.nodeSize ≤ S.transSize := nodeSize_le
  exact if_pos (by rw [allocationLeafSize]; omega)

theorem slotHasKey_copiedHeader {keyLen : Nat} {k : Nat → UInt8} (hlen : 3 + keyLen ≤ S.entrySize) (hi : i < S.spanSize) :
    SlotHasKey S.entrySize keyLen (view (S.copiedHeader raw (memset leaf S.allocationLeafSize)) S.headerSize) k i ↔
      S.StaleKey keyLen raw k i := by
  refine forall₂_congr fun x hx => ?_
  rw [view, ← Nat.add_assoc, ← entryOffset, copiedHeader,
    memset_allocationLeafSize (entryOffset_add_lt hi (by omega)), eq_comm]

end Plain

/-! ## The frame of a partial read -/

/-- **Partial reads.** With replicas, `hopscotch_search` and `leaf_entry_read` touch only the slots they read. Without,
they do exactly if the bytes in front of the first version byte that `decode_header_versions` copies over other slots
are the bytes of these slots. In a view that `leaf_node_insert` has zeroed, a match of its key is a record of the leaf
exactly if no slot that is not read has the key from the bytes that are not zeroed (with replicas) or from those that
are copied (without). -/
theorem partial_read_frame (S : LeafSizes) (T : NodeSizes) :
    (∀ hashIdx entryNum forWrite reads b read b', hashIdx < S.leafSpanSize →
      S.hopscotchSearch hashIdx entryNum forWrite reads b = some (read, b') →
      ReadsOnly S.leafSpanSize S.leafEntrySize (Requested S.leafSpanSize hashIdx entryNum)
        (fun i x => decoded S read.node (S.recordPos i + x)) b.leaf.records b'.leaf.records) ∧
    (∀ idx forWrite reads b read b', S.leafEntryRead idx forWrite reads b = some (read, b') →
      ReadsOnly S.leafSpanSize S.leafEntrySize (· = idx) (fun i x => decoded S read.node (S.recordPos i + x))
        b.leaf.records b'.leaf.records) ∧
    (∀ hashIdx entryNum forWrite reads b node b', hashIdx < T.spanSize →
      T.hopscotchSearch hashIdx entryNum forWrite reads b = some (node, b') →
      (ReadsOnly T.spanSize T.entrySize (Requested T.spanSize hashIdx entryNum)
          (fun i x => unframe blockSize versionSize T.firstOffset node (T.entryOffset i + x))
          (view b.leaf T.headerSize) (view b'.leaf T.headerSize) ↔
        ∀ p, T.headerSize ≤ p → p < T.firstOffset →
          ¬ Requested T.spanSize hashIdx entryNum ((p - T.headerSize) / T.entrySize) → b.raw p = b.leaf p)) ∧
    (∀ internalMetadataSize idx forWrite reads b node b',
      T.leafEntryRead internalMetadataSize idx forWrite reads b = some (node, b') →
      (ReadsOnly T.spanSize T.entrySize (· = idx)
          (fun i x => unframe blockSize versionSize T.firstOffset node (T.entryOffset i + x))
          (view b.leaf T.headerSize) (view b'.leaf T.headerSize) ↔
        ∀ p, T.headerSize ≤ p → p < T.firstOffset → (p - T.headerSize) / T.entrySize ≠ idx →
          (if p < T.bufferMetadataSize internalMetadataSize then node p else b.raw p) = b.leaf p)) ∧
    (∀ leafMetadataSize keyLen (k : Nat → UInt8) hashIdx entryNum forWrite reads raw (leaf : RawLeaf) read b',
      3 + keyLen ≤ S.leafEntrySize → hashIdx < S.leafSpanSize →
      S.hopscotchSearch hashIdx entryNum forWrite reads ⟨raw, leaf.memset leafMetadataSize S.allocationLeafSize⟩ =
        some (read, b') →
      (MatchFetched S.leafSpanSize S.leafEntrySize keyLen (Requested S.leafSpanSize hashIdx entryNum)
          (fun i x => decoded S read.node (S.recordPos i + x)) b'.leaf.records k ↔
        ∀ i < S.leafSpanSize, ¬ Requested S.leafSpanSize hashIdx entryNum i →
          ¬ StaleKey S leafMetadataSize keyLen leaf k i) ∧
      ∀ idx forWrite reads read' b'', S.leafEntryRead idx forWrite reads b' = some (read', b'') →
        (MatchFetched S.leafSpanSize S.leafEntrySize keyLen
            (fun i => Requested S.leafSpanSize hashIdx entryNum i ∨ i = idx)
            (fun i => if i = idx then fun x => decoded S read'.node (S.recordPos i + x)
              else fun x => decoded S read.node (S.recordPos i + x)) b''.leaf.records k ↔
          ∀ i < S.leafSpanSize, ¬(Requested S.leafSpanSize hashIdx entryNum i ∨ i = idx) →
            ¬ StaleKey S leafMetadataSize keyLen leaf k i)) ∧
    ∀ keyLen (k : Nat → UInt8) hashIdx entryNum forWrite reads raw leaf node b', 3 + keyLen ≤ T.entrySize →
      hashIdx < T.spanSize →
      T.hopscotchSearch hashIdx entryNum forWrite reads ⟨raw, memset leaf T.allocationLeafSize⟩ = some (node, b') →
      (MatchFetched T.spanSize T.entrySize keyLen (Requested T.spanSize hashIdx entryNum)
          (fun i x => unframe blockSize versionSize T.firstOffset node (T.entryOffset i + x))
          (view b'.leaf T.headerSize) k ↔
        ∀ i < T.spanSize, ¬ Requested T.spanSize hashIdx entryNum i → ¬ T.StaleKey keyLen raw k i) ∧
      ∀ internalMetadataSize idx forWrite reads node' b'',
        T.leafEntryRead internalMetadataSize idx forWrite reads b' = some (node', b'') →
        (∀ p, T.headerSize ≤ p → p < T.firstOffset → (p - T.headerSize) / T.entrySize ≠ idx →
          (if p < T.bufferMetadataSize internalMetadataSize then node' p else b'.raw p) = b'.leaf p) →
        (MatchFetched T.spanSize T.entrySize keyLen (fun i => Requested T.spanSize hashIdx entryNum i ∨ i = idx)
            (fun i => if i = idx then fun x => unframe blockSize versionSize T.firstOffset node' (T.entryOffset i + x)
              else fun x => unframe blockSize versionSize T.firstOffset node (T.entryOffset i + x))
            (view b''.leaf T.headerSize) k ↔
          ∀ i < T.spanSize, ¬(Requested T.spanSize hashIdx entryNum i ∨ i = idx) → ¬ T.StaleKey keyLen raw k i) := by
  refine ⟨fun hashIdx entryNum forWrite reads b read b' hh h => LeafSizes.hopscotchSearch_readsOnly hh h,
    fun idx forWrite reads b read b' h => LeafSizes.leafEntryRead_readsOnly h,
    fun hashIdx entryNum forWrite reads b node b' hh h => readsOnly_iff (NodeSizes.hopscotchSearch_readsOnly hh h),
    fun size idx forWrite reads b node b' h => readsOnly_iff (NodeSizes.leafEntryRead_readsOnly h),
    fun size keyLen k hashIdx entryNum forWrite reads raw leaf read b' hlen hh h => ?_,
    fun keyLen k hashIdx entryNum forWrite reads raw leaf node b' hlen hh h => ?_⟩
  · have hfirst := LeafSizes.hopscotchSearch_readsOnly hh h
    refine ⟨?_, fun idx forWrite reads read' b'' h' => ?_⟩
    · simp only [hfirst.matchFetched_iff hlen, slotHasKey_memset]
    · simp only [(hfirst.trans (LeafSizes.leafEntryRead_readsOnly h')).matchFetched_iff hlen, slotHasKey_memset]
  · have hfirst := NodeSizes.hopscotchSearch_readsOnly hh h
    refine ⟨?_, fun size idx forWrite reads node' b'' h' hcond => ?_⟩
    · rw [hfirst.matchFetched_iff hlen]
      exact forall₂_congr fun i hi => by rw [slotHasKey_copiedHeader hlen hi]
    · have hsecond := (readsOnly_iff (NodeSizes.leafEntryRead_readsOnly h')).2 hcond
      rw [(hfirst.trans hsecond).matchFetched_iff hlen]
      exact forall₂_congr fun i hi => by rw [slotHasKey_copiedHeader hlen hi]

/-- A reader of a locked leaf reads it once. -/
theorem reRead_single {α β : Type} {attempt : α → β → Option (Bool × β)} {a a' : α} {b b' : β}
    (h : reRead attempt [a] b = some (a', b')) : a' = a := by
  rw [reRead] at h
  split at h
  · cases h
  · exact (Prod.mk.inj (Option.some.inj h)).1.symm
  · cases h

theorem LeafSizes.hopscotchSearch_single {S : LeafSizes} {hashIdx entryNum : Nat} {read read' : LeafRead}
    {b b' : ReadBuffers RawLeaf} (h : S.hopscotchSearch hashIdx entryNum true [read] b = some (read', b')) :
    read' = read := reRead_single h

theorem NodeSizes.hopscotchSearch_single {S : NodeSizes} {hashIdx entryNum : Nat} {node node' : Nat → UInt8}
    {b b' : ReadBuffers (Nat → UInt8)} (h : S.hopscotchSearch hashIdx entryNum true [node] b = some (node', b')) :
    node' = node := reRead_single h

/-- The sizes of a leaf without replicas, with keys and values of eight bytes. -/
def plainSizes : NodeSizes := ⟨27, 19, 64, Nat.succ_pos 26, Nat.succ_pos 18, Nat.succ_pos 63⟩

/-- An encoded leaf without replicas, with bytes of its own. -/
def plainLeaf : Nat → UInt8 :=
  VersionManager.encodeNodeVersions plainSizes (fun p => if p = 27 then 6 else .ofNat (p + 1)) 0

/-- A view, and a ring buffer, with a leaf of before. -/
def staleView : RawLeaf := ⟨⟨7, 1, fun x => .ofNat x⟩, fun x => .ofNat (x + 11)⟩

/-- The slots 4 and 0 of a leaf with replicas are read to a view that was zeroed, and the slots 0 to 7 of a leaf
without to a view that was not. -/
theorem partial_read_frame_sample :
    (∃ b', sampleSizes.hopscotchSearch 4 2 true [⟨sampleLeaf.image sampleSizes, 0, 0⟩]
        ⟨staleView.records, staleView.memset 27 sampleSizes.allocationLeafSize⟩ =
        some (⟨sampleLeaf.image sampleSizes, 0, 0⟩, b') ∧
      MatchFetched 5 19 8 (Requested 5 4 2)
        (fun i x => decoded sampleSizes (sampleLeaf.image sampleSizes) (sampleSizes.recordPos i + x)) b'.leaf.records
        (view sampleLeaf.records (4 * 19 + 3))) ∧
    ∃ b', plainSizes.hopscotchSearch 0 8 true [plainLeaf] ⟨staleView.records, staleView.records⟩ =
        some (plainLeaf, b') ∧
      ReadsOnly 64 19 (Requested 64 0 8)
        (fun i x => unframe blockSize versionSize plainSizes.firstOffset plainLeaf (plainSizes.entryOffset i + x))
        (view staleView.records 27) (view b'.leaf 27) := by
  obtain ⟨-, -, hplain, -, hreplicas, -⟩ := partial_read_frame sampleSizes plainSizes
  constructor
  · have hsome : (sampleSizes.hopscotchSearch 4 2 true [⟨sampleLeaf.image sampleSizes, 0, 0⟩]
        ⟨staleView.records, staleView.memset 27 sampleSizes.allocationLeafSize⟩).isSome = true := by decide +kernel
    obtain ⟨⟨read, b'⟩, h⟩ := Option.isSome_iff_exists.1 hsome
    obtain rfl := LeafSizes.hopscotchSearch_single h
    refine ⟨b', h, (hreplicas 27 8 _ 4 2 true _ _ _ _ _ (by decide) (by decide) h).1.2 fun i hi _ hstale => ?_⟩
    exact absurd (hstale.size_lt (by decide) hi ⟨0, by decide, by decide⟩) (by decide)
  · have hsome : (plainSizes.hopscotchSearch 0 8 true [plainLeaf] ⟨staleView.records, staleView.records⟩).isSome = true := by
      decide +kernel
    obtain ⟨⟨node, b'⟩, h⟩ := Option.isSome_iff_exists.1 hsome
    obtain rfl := NodeSizes.hopscotchSearch_single h
    refine ⟨b', h, (hplain 0 8 true _ _ _ _ (by decide) h).2 fun p hge hlt hnot => absurd ?_ hnot⟩
    have hp : p < 64 := Nat.lt_of_lt_of_le hlt (Nat.min_le_left _ _)
    have hslot : (p - 27) / 19 < 8 := by omega
    exact (requested_iff (by decide) (show (p - 27) / 19 < 64 by omega)).2 (.inl ⟨Nat.zero_le _, hslot⟩)

/-- The ring buffer with a leaf read before, which has the key 5 in slot 0. -/
def staleBuffer : Nat → UInt8 := fun p => if p = 30 then 5 else 0

theorem wideSizes_pos : 0 < 8 := Nat.succ_pos 7

theorem wideSizes_le : 8 ≤ 64 := Nat.le_add_left 8 56

/-- The sizes of a leaf with replicas, with keys of 128 bytes and values of eight. -/
def wideSizes : LeafSizes :=
  ⟨64, 8, 139, 10, wideSizes_pos, wideSizes_le, Nat.le_add_left 3 136, sampleSizes.scatterMetadataSize_ge⟩

/-- The key 5 of 128 bytes. -/
def wideKey : Nat → UInt8 := fun x => if x = 127 then 5 else 0

/-- A view that was of a leaf with the key 5 in slot 63. -/
def wideView : RawLeaf := ⟨⟨0, 1, fun _ => 0⟩, fun x => if 63 * 139 + 3 ≤ x then wideKey (x - (63 * 139 + 3)) else 0⟩

/-- The view was zeroed and some slots of an empty leaf are read to it, but it has the key of a leaf before in a slot
that was not read: without replicas in slot 0, and with keys of 128 bytes in slot 63. -/
theorem not_partial_read_frame :
    (∃ b', plainSizes.hopscotchSearch 10 8 true [0] ⟨staleBuffer, 0⟩ = some (0, b') ∧
      ¬ Requested 64 10 8 0 ∧ view b'.leaf 27 3 = 5 ∧ view (0 : Nat → UInt8) 27 3 = 0) ∧
    ∃ b', wideSizes.hopscotchSearch 0 8 true [⟨0, 0, 0⟩] ⟨0, wideView.memset 267 wideSizes.allocationLeafSize⟩ =
        some (⟨0, 0, 0⟩, b') ∧
      ¬ Requested 64 0 8 63 ∧ SlotHasKey 139 128 b'.leaf.records wideKey 63 := by
  constructor
  · have hleaf : (plainSizes.hopscotchSearch 10 8 true [0] ⟨staleBuffer, 0⟩).map (fun r => view r.2.leaf 27 3) =
        some 5 := by
      decide +kernel
    obtain ⟨⟨node, b'⟩, h, hbyte⟩ := Option.map_eq_some_iff.1 hleaf
    obtain rfl := NodeSizes.hopscotchSearch_single h
    exact ⟨b', h, by unfold Requested; decide, hbyte, rfl⟩
  · have hsome : (wideSizes.hopscotchSearch 0 8 true [⟨0, 0, 0⟩]
        ⟨0, wideView.memset 267 wideSizes.allocationLeafSize⟩).isSome = true := by decide +kernel
    obtain ⟨⟨read, b'⟩, h⟩ := Option.isSome_iff_exists.1 hsome
    obtain rfl := LeafSizes.hopscotchSearch_single h
    have hnot : ¬ Requested 64 0 8 63 := by unfold Requested; decide
    refine ⟨b', h, hnot, fun x hx => ?_⟩
    have hkey : ∀ x < 128, (wideView.memset 267 wideSizes.allocationLeafSize).records (63 * 139 + (3 + x)) = wideKey x := by
      decide +kernel
    have honly := LeafSizes.hopscotchSearch_readsOnly (show 0 < wideSizes.leafSpanSize by decide) h
    exact (honly.frame 63 (by decide) hnot (3 + x) (show 3 + x < 139 by omega)).trans (hkey x hx)

end Chime

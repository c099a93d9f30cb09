import Chime.NodeCodec
import Chime.SegmentPatch

/-!
# Torn writes of whole nodes

While a node is written, a reader may find each block of 64 bytes old or new (`Frame.mix`). The old and the new node
have different node versions, and an accepted mixture has one node version in all its objects and marks, so it is all
old or all new: `torn_segment` for the segments of a leaf, `torn_node` for a node without replicas.
`torn_node_detected` puts them together.
-/

namespace Chime

open Frame Memory PackedVersion

/-! ## Leaves -/

section Leaf

open LeafVersionManager MetadataManager LeafSizes

variable {S : LeafSizes} {leaf leaf' : RawLeaf} {raw raw' : Nat → UInt8} {side : Nat → Bool} {s n p v v' : Nat}

/-- Every offset of a segment is in one of its replicas or records. -/
theorem segment_object (hs : decodedOffset S s ≤ p) (he : p < decodedOffset S (s + n)) :
    (∃ g, s * S.leafEntrySize ≤ boundary S.groupSize 0 g ∧ boundary S.groupSize 0 g < (s + n) * S.leafEntrySize ∧
      objectOffset S p = S.metadataOffset g) ∨
      ∃ i, s ≤ i ∧ i < s + n ∧ objectOffset S p = S.recordPos i := by
  rw [decodedOffset_eq] at hs he
  rcases raw_cases S.groupSize_pos he with ⟨q, hq, rfl⟩ | ⟨g, o, ho, hg, rfl⟩
  · have hx := Nat.mod_lt q S.leafEntrySize_pos
    have hpos := recordPos_eq (S := S) (i := q / S.leafEntrySize) hx
    rw [Nat.div_add_mod'] at hpos
    refine .inr ⟨q / S.leafEntrySize, ?_, ?_, ?_⟩
    · rw [Nat.le_div_iff_mul_le S.leafEntrySize_pos]
      refine Nat.le_of_not_lt fun hlt => ?_
      have := pos_lt_start (b := S.groupSize) (w := S.scatterMetadataSize) (f := 0) hlt
      omega
    · rwa [Nat.div_lt_iff_lt_mul S.leafEntrySize_pos]
    · rw [← hpos, recordPos, objectOffset_record (Nat.mod_lt _ S.neighborSize_pos) hx]
  · refine .inl ⟨g, Nat.le_of_not_lt fun hlt => ?_, hg, ?_⟩
    · have := markPos_lt_start S.groupSize_pos ho hlt
      omega
    · rw [← metadataOffset_eq, objectOffset_metadata ho]

/-- All objects of an accepted segment have its node version. -/
theorem AcceptedSegment.object (h : AcceptedSegment S s n raw) (hs : decodedOffset S s ≤ p)
    (he : p < decodedOffset S (s + n)) :
    nodeVersionAt (decoded S raw) (objectOffset S p) = nodeVersionAt (decoded S raw) (decodedOffset S s) := by
  rcases segment_object hs he with ⟨g, hlo, hhi, hobj⟩ | ⟨i, hlo, hhi, hobj⟩
  · rw [hobj]
    exact h.groups g hlo hhi
  · rw [hobj]
    exact h.records i hlo hhi

/-- A leaf is one segment. -/
theorem Accepted.segment (h : Accepted S raw) : AcceptedSegment S 0 S.leafSpanSize raw := by
  have hzero : decodedOffset S 0 = 0 := decodedOffset_zero
  have hall : decodedOffset S (0 + S.leafSpanSize) = S.decodedLeafSize := by
    rw [Nat.zero_add, decodedOffset_leafSpanSize]
  refine ⟨fun k _ hk => h.marks k (hall ▸ hk), fun g _ hg => ?_, fun i _ hi => ?_⟩
  · rw [hzero]
    exact h.groups g (RawLeaf.lt_entryGroupNum (by rwa [Nat.zero_add] at hg) le_rfl)
  · rw [hzero]
    exact h.records i (by omega)

/-- All objects of a leaf have its node version. -/
theorem RawLeaf.Uniform.object (h : leaf.Uniform S v) (hp : p < S.decodedLeafSize) :
    nodeVersion (leaf.scattered S (objectOffset S p)) = v := by
  rcases object_cases hp with ⟨g, o, hg, ho, rfl⟩ | ⟨i, x, hi, hx, rfl⟩
  · have hs := scattered_metadata leaf (g := g) S.scatterMetadataSize_pos
    rw [Nat.add_zero] at hs
    rw [objectOffset_metadata ho, hs]
    exact h.metadata
  · have hs := scattered_record leaf (i := i) S.leafEntrySize_pos
    rw [Nat.add_zero, Nat.add_zero] at hs
    rw [recordPos, objectOffset_record (Nat.mod_lt _ S.neighborSize_pos) hx, ← recordPos, hs]
    exact h.records i hi

/-- **Torn segments**: an accepted segment is all old or all new, and its version says which. -/
theorem torn_segment (hleaf : leaf.Uniform S v) (hleaf' : leaf'.Uniform S v') (hne : v ≠ v') (hraw : leaf.Encoded S raw)
    (hraw' : leaf'.Encoded S raw') (hn : 0 < n) (hle : s + n ≤ S.leafSpanSize)
    (hacc : AcceptedSegment S s n (mix cachelineSize side raw raw')) :
    ∃ t : Bool, nodeVersionAt (decoded S (mix cachelineSize side raw raw')) (decodedOffset S s) =
      (if t then v' else v) ∧
      ∀ p, decodedOffset S s ≤ p → p < decodedOffset S (s + n) →
        decoded S (mix cachelineSize side raw raw') p = if t then leaf'.scattered S p else leaf.scattered S p := by
  have hend := decodedOffset_le hle
  have hlt : decodedOffset S s < decodedOffset S (s + n) := by
    have hpos : 0 < n * S.leafEntrySize := Nat.mul_pos hn S.leafEntrySize_pos
    rw [decodedOffset_add]
    exact Nat.lt_add_of_pos_right (Nat.lt_of_lt_of_le hpos (Nat.le_add_right _ _))
  have hstart : objectOffset S (decodedOffset S s) = decodedOffset S s :=
    Nat.le_antisymm objectOffset_le (decodedOffset_le_objectOffset.2 le_rfl)
  rw [RawLeaf.Encoded, transLeafSize_eq] at hraw hraw'
  have hfirst : nodeVersion (leaf.scattered S (decodedOffset S s)) = v := by
    rw [← hstart]
    exact hleaf.object (by omega)
  have hfirst' : nodeVersion (leaf'.scattered S (decodedOffset S s)) = v' := by
    rw [← hstart]
    exact hleaf'.object (by omega)
  refine side_of_checked blockSize_pos nodeVersion rfl hend hlt hraw hraw' hne hfirst hfirst' fun k hs he => ⟨?_,
    ?_, ?_⟩
  · exact hleaf.object (by omega)
  · exact hleaf'.object (by omega)
  · have hmark := hacc.marks k hs he
    have hobj := hacc.object hs he
    rw [nodeVersionAt, hmark] at hobj
    exact hobj

end Leaf

/-! ## Nodes without replicas -/

section Node

open VersionManager NodeSizes

variable {S : NodeSizes} {node node' : Nat → UInt8} {raw raw' out out' : Nat → UInt8} {side : Nat → Bool} {p v v' : Nat}

namespace NodeSizes

theorem transSize_eq : S.transSize = start blockSize versionSize S.firstOffset S.nodeSize := LeafSizes.trans_eq

variable (S)

/-- The raw bytes hold the encoded node. -/
def Encoded (node raw : Nat → UInt8) : Prop := ∀ x < S.transSize,
  raw x = frame blockSize versionSize S.firstOffset node (fun p _ => node (objectOffset S p)) x

/-- All objects of the node have one node version. -/
structure Uniform (node : Nat → UInt8) (version : Nat) : Prop where
  metadata : nodeVersion (node 0) = version
  entry : ∀ i < S.spanSize, nodeVersion (node (S.entryOffset i)) = version

end NodeSizes

theorem VersionManager.objectOffset_le : objectOffset S p ≤ p := by
  have := Nat.div_mul_le_self (p - S.headerSize) S.entrySize
  rw [objectOffset]
  split
  · exact Nat.zero_le p
  · rw [entryOffset]
    omega

/-- Every offset of a node is in its header or in an entry. -/
theorem VersionManager.object_cases (hp : p < S.nodeSize) :
    objectOffset S p = 0 ∨ ∃ i < S.spanSize, objectOffset S p = S.entryOffset i := by
  rw [objectOffset]
  split
  · exact .inl rfl
  · refine .inr ⟨_, ?_, rfl⟩
    rw [nodeSize, entryOffset] at hp
    rw [Nat.div_lt_iff_lt_mul S.entrySize_pos]
    omega

theorem NodeSizes.Uniform.object (h : S.Uniform node v) (hp : p < S.nodeSize) :
    nodeVersion (node (objectOffset S p)) = v := by
  rcases object_cases hp with hobj | ⟨i, hi, hobj⟩
  · rw [hobj]
    exact h.metadata
  · rw [hobj]
    exact h.entry i hi

/-- `encode_node_versions` writes the node with its node versions incremented. -/
theorem VersionManager.encodeNodeVersions_encoded (hraw : ∀ x < S.transSize, raw x = encodeNodeVersions S node out x) :
    S.Encoded (incrementNodeVersions S node) raw := by
  intro x hx
  rw [hraw x hx]
  rw [transSize_eq] at hx
  exact encode_apply blockSize_pos hx

theorem VersionManager.incrementNodeVersions_uniform :
    S.Uniform (incrementNodeVersions S node) ((nodeVersion (node (S.entryOffset 0)) + 1) % 16) := by
  refine ⟨?_, fun i hi => ?_⟩
  · have hmem : 0 ∈ objects S := List.mem_cons_self
    rw [incrementNodeVersions, foldl_setNodeVersion, if_pos hmem]
    exact nodeVersion_setNodeVersion
  · have hmem : S.entryOffset i ∈ objects S := List.mem_cons_of_mem _ (List.mem_map_of_mem (List.mem_range.2 hi))
    rw [incrementNodeVersions, foldl_setNodeVersion, if_pos hmem]
    exact nodeVersion_setNodeVersion

/-- What is accepted, and what it is decoded to. -/
theorem VersionManager.decodeNodeVersions_some (h : decodeNodeVersions S raw out = some out') :
    (∀ p < S.nodeSize, out' p = unframe blockSize versionSize S.firstOffset raw p) ∧
      (∀ k, boundary blockSize S.firstOffset k < S.nodeSize →
        unframe blockSize versionSize S.firstOffset raw (objectOffset S (boundary blockSize S.firstOffset k)) =
          raw (markPos blockSize versionSize S.firstOffset k)) ∧
      ∀ p < S.nodeSize, nodeVersion (unframe blockSize versionSize S.firstOffset raw (objectOffset S p)) =
        nodeVersion (unframe blockSize versionSize S.firstOffset raw 0) := by
  obtain ⟨hdec, hjoint⟩ := Option.filter_eq_some_iff.1 h
  have hlocal := local_mark (g := objectOffset S) (fun _ => objectOffset_le) raw
  have hsome : (Frame.decode blockSize versionSize S.firstOffset S.nodeSize (fun out j i => out (objectOffset S j) == raw i)
      raw out).isSome := by
    rw [hdec]
    rfl
  have hout := (decode_spec blockSize_pos hlocal).1 out' hdec
  have hmarks := (decode_spec blockSize_pos hlocal).2.1 hsome
  refine ⟨hout, fun k hk => beq_iff_eq.1 (hmarks k hk), fun p hp => ?_⟩
  simp only [jointCheck, Bool.and_eq_true, beq_iff_eq, List.all_eq_true, List.mem_range] at hjoint
  have hzero : 0 < S.nodeSize := Nat.lt_of_le_of_lt (Nat.zero_le p) hp
  rw [← hout _ (Nat.lt_of_le_of_lt objectOffset_le hp), ← hout 0 hzero, ← hjoint.1]
  rcases object_cases hp with hobj | ⟨i, hi, hobj⟩
  · rw [hobj, hjoint.1]
  · rw [hobj, ← hjoint.2 i hi]

/-- **Torn nodes**: an accepted node is all old or all new. -/
theorem torn_node (hnode : S.Uniform node v) (hnode' : S.Uniform node' v') (hne : v ≠ v') (hraw : S.Encoded node raw)
    (hraw' : S.Encoded node' raw') (hdec : decodeNodeVersions S (mix cachelineSize side raw raw') out = some out') :
    ∃ t : Bool, ∀ p < S.nodeSize, out' p = if t then node' p else node p := by
  obtain ⟨hout, hmarks, hobjects⟩ := VersionManager.decodeNodeVersions_some hdec
  have hpos : 0 < S.nodeSize := Nat.lt_of_lt_of_le S.headerSize_pos (Nat.le_add_right _ _)
  rw [NodeSizes.Encoded, transSize_eq] at hraw hraw'
  have hfirst : S.firstOffset = min (blockSize + 1) S.nodeSize := rfl
  have hchecked (k : Nat) (_ : 0 ≤ boundary blockSize S.firstOffset k)
    (hk : boundary blockSize S.firstOffset k < S.nodeSize) :
      nodeVersion (node (objectOffset S (boundary blockSize S.firstOffset k))) = v ∧
        nodeVersion (node' (objectOffset S (boundary blockSize S.firstOffset k))) = v' ∧
        nodeVersion (mix cachelineSize side raw raw' (markPos blockSize versionSize S.firstOffset k)) =
          nodeVersion (unframe blockSize versionSize S.firstOffset (mix cachelineSize side raw raw') 0) := by
    have hobj := hobjects _ hk
    rw [hmarks k hk] at hobj
    exact ⟨hnode.object hk, hnode'.object hk, hobj⟩
  obtain ⟨t, -, ht⟩ := side_of_checked blockSize_pos nodeVersion hfirst le_rfl hpos hraw hraw' hne hnode.metadata
    hnode'.metadata hchecked
  exact ⟨t, fun p hp => (hout p hp).trans (ht p (Nat.zero_le p) hp)⟩

end Node

/-! ## What a reader of a torn node gets -/

/-- The decoded segment is that of a leaf. -/
def IsSegment (S : LeafSizes) (s n : Nat) (leaf : RawLeaf) (segment : Nat → UInt8) : Prop :=
  ∀ p < (MetadataManager.getOffsetInfo S s n).2, segment p = leaf.scattered S (LeafVersionManager.decodedOffset S s + p)

section Detected

open LeafSizes

variable {S : LeafSizes} {leaf leaf' : RawLeaf} {raw raw' buffer out out' : Nat → UInt8} {side : Nat → Bool}
  {s n v v' version : Nat}

/-- Node versions are incremented to other ones. -/
theorem succ_mod_ne (_ : v < 16) : v ≠ (v + 1) % 16 := by omega

/-- A torn leaf. -/
theorem torn_leaf (hleaf : leaf.Uniform S v) (hleaf' : leaf'.Uniform S v') (hne : v ≠ v') (hraw : leaf.Encoded S raw)
    (hraw' : leaf'.Encoded S raw')
    (hdec : LeafVersionManager.decodeNodeVersions S (mix cachelineSize side raw raw') out = some out') :
    (∀ p < S.decodedLeafSize, out' p = leaf.scattered S p) ∨ ∀ p < S.decodedLeafSize, out' p = leaf'.scattered S p := by
  obtain ⟨hacc, hout⟩ := decodeNodeVersions_some hdec
  obtain ⟨t, -, ht⟩ := torn_segment hleaf hleaf' hne hraw hraw' S.leafSpanSize_pos (Nat.zero_add _).le hacc.segment
  rw [Nat.zero_add, decodedOffset_leafSpanSize, decodedOffset_zero] at ht
  cases t with
  | false => exact .inl fun p hp => (hout p hp).trans (ht p (Nat.zero_le p) hp)
  | true => exact .inr fun p hp => (hout p hp).trans (ht p (Nat.zero_le p) hp)

/-- A decoded segment of a torn leaf. -/
theorem torn_decodeSegment (hleaf : leaf.Uniform S v) (hleaf' : leaf'.Uniform S v') (hne : v ≠ v')
    (hraw : leaf.Encoded S raw)
    (hraw' : leaf'.Encoded S raw') (hn : 0 < n) (hle : s + n ≤ S.leafSpanSize)
    (hbuf : SegmentOf S s n (mix cachelineSize side raw raw') buffer)
    (hdec : decodeSegment S s n buffer out = some (out', version)) :
    (version = v ∧ IsSegment S s n leaf out') ∨ (version = v' ∧ IsSegment S s n leaf' out') := by
  obtain ⟨hacc, hversion, hout⟩ := decodeSegment_some hn hbuf hdec
  obtain ⟨t, hfirst, ht⟩ := torn_segment hleaf hleaf' hne hraw hraw' hn hle hacc
  have hlt {p : Nat} (hp : p < (MetadataManager.getOffsetInfo S s n).2) :
      LeafVersionManager.decodedOffset S s + p < LeafVersionManager.decodedOffset S (s + n) := by
    rw [metadata_getOffsetInfo] at hp
    rw [decodedOffset_add]
    exact Nat.add_lt_add_left hp _
  rw [hfirst] at hversion
  cases t with
  | false => exact .inl ⟨hversion, fun p hp => (hout p hp).trans (ht _ (Nat.le_add_right _ p) (hlt hp))⟩
  | true => exact .inr ⟨hversion, fun p hp => (hout p hp).trans (ht _ (Nat.le_add_right _ p) (hlt hp))⟩

end Detected

/-- **Torn writes of whole nodes** are detected, by the readers of a leaf, of a segment and of two segments, and by
those of a node without replicas. -/
theorem torn_node_detected :
    (∀ (S : LeafSizes) (leaf writer : RawLeaf) (version : Nat) (raw raw' inter out : Nat → UInt8), leaf.Uniform S version →
      leaf.Encoded S raw → nodeVersion writer.metadata.hVersion = version →
      (∀ x < S.transLeafSize, raw' x =
        LeafVersionManager.encodeNodeVersions S (MetadataManager.encodeNodeMetadata S writer inter) out x) →
      (∀ side out₁ node, LeafVersionManager.decodeNodeVersions S (mix cachelineSize side raw raw') out₁ = some node →
        (∀ p < S.decodedLeafSize, node p = leaf.scattered S p) ∨
          ∀ p < S.decodedLeafSize, node p = (writer.incremented S).scattered S p) ∧
      (∀ s n side buffer out₁ segment v, 0 < n → s + n ≤ S.leafSpanSize →
        SegmentOf S s n (mix cachelineSize side raw raw') buffer → decodeSegment S s n buffer out₁ = some (segment, v) →
        IsSegment S s n leaf segment ∨ IsSegment S s n (writer.incremented S) segment) ∧
      ∀ s₁ n₁ side₁ buffer₁ out₁ segment₁ s₂ n₂ side₂ buffer₂ out₂ segment₂ v, 0 < n₁ → s₁ + n₁ ≤ S.leafSpanSize →
        0 < n₂ → s₂ + n₂ ≤ S.leafSpanSize →
        SegmentOf S s₁ n₁ (mix cachelineSize side₁ raw raw') buffer₁ →
        SegmentOf S s₂ n₂ (mix cachelineSize side₂ raw raw') buffer₂ →
        decodeSegment S s₁ n₁ buffer₁ out₁ = some (segment₁, v) →
          decodeSegment S s₂ n₂ buffer₂ out₂ = some (segment₂, v) →
        (IsSegment S s₁ n₁ leaf segment₁ ∧ IsSegment S s₂ n₂ leaf segment₂) ∨
          (IsSegment S s₁ n₁ (writer.incremented S) segment₁ ∧ IsSegment S s₂ n₂ (writer.incremented S) segment₂)) ∧
    ∀ (S : NodeSizes) (node writer : Nat → UInt8) (version : Nat) (raw raw' out : Nat → UInt8), S.Uniform node version →
      S.Encoded node raw → nodeVersion (writer (S.entryOffset 0)) = version →
      (∀ x < S.transSize, raw' x = VersionManager.encodeNodeVersions S writer out x) →
      ∀ side out₁ decoded, VersionManager.decodeNodeVersions S (mix cachelineSize side raw raw') out₁ = some decoded →
        (∀ p < S.nodeSize, decoded p = node p) ∨
          ∀ p < S.nodeSize, decoded p = VersionManager.incrementNodeVersions S writer p := by
  refine ⟨fun S leaf writer version raw raw' inter out hleaf hraw hwriter hraw' => ?_,
    fun S node writer version raw raw' out hnode hraw hwriter hraw' side out₁ decoded hdec => ?_⟩
  · have hne := succ_mod_ne hleaf.version_lt
    have henc : (writer.incremented S).Encoded S raw' :=
      encodeNodeVersions_encoded (fun p hp => encodeNodeMetadata_apply hp) hraw'
    have hnew : (writer.incremented S).Uniform S ((version + 1) % 16) := by
      rw [← hwriter]
      exact RawLeaf.incremented_version
    refine ⟨fun side out₁ node hdec => torn_leaf hleaf hnew hne hraw henc hdec,
      fun s n side buffer out₁ segment v hn hle hbuf hdec => ?_,
      fun s₁ n₁ side₁ buffer₁ out₁ segment₁ s₂ n₂ side₂ buffer₂ out₂ segment₂
        v hn₁ hle₁ hn₂ hle₂ hbuf₁ hbuf₂ hdec₁ hdec₂ => ?_⟩
    · exact (torn_decodeSegment hleaf hnew hne hraw henc hn hle hbuf hdec).imp And.right And.right
    · have h₁ := torn_decodeSegment hleaf hnew hne hraw henc hn₁ hle₁ hbuf₁ hdec₁
      have h₂ := torn_decodeSegment hleaf hnew hne hraw henc hn₂ hle₂ hbuf₂ hdec₂
      rcases h₁ with ⟨rfl, h₁⟩ | ⟨rfl, h₁⟩
      · exact .inl ⟨h₁, (h₂.resolve_right fun h => hne h.1).2⟩
      · exact .inr ⟨h₁, (h₂.resolve_left fun h => hne h.1.symm).2⟩
  · have hne : version ≠ (version + 1) % 16 := succ_mod_ne (hwriter ▸ nodeVersion_lt)
    have hnew : S.Uniform (VersionManager.incrementNodeVersions S writer) ((version + 1) % 16) := by
      rw [← hwriter]
      exact VersionManager.incrementNodeVersions_uniform
    obtain ⟨t, ht⟩ := torn_node hnode hnew hne hraw (VersionManager.encodeNodeVersions_encoded hraw') hdec
    cases t with
    | false => exact .inl ht
    | true => exact .inr ht

/-- The old bytes in the first block and the new ones in the second. -/
def sampleMix : Nat → UInt8 :=
  mix cachelineSize (fun k => k == 1) (sampleLeaf.image sampleSizes) ((sampleWriter.incremented sampleSizes).image sampleSizes)

/-- A reader of the whole leaf rejects the mixture; a reader of the slots 3 and 4 accepts it. -/
theorem torn_node_detected_sample : LeafVersionManager.decodeNodeVersions sampleSizes sampleMix 0 = none ∧
    ∃ segment, decodeSegment sampleSizes 3 2 (view sampleMix 78) 0 = some (segment, 4) ∧
      (IsSegment sampleSizes 3 2 sampleLeaf segment ∨
        IsSegment sampleSizes 3 2 (sampleWriter.incremented sampleSizes) segment) := by
  have henc : (sampleWriter.incremented sampleSizes).Encoded sampleSizes
      (LeafVersionManager.encodeNodeVersions sampleSizes
        (MetadataManager.encodeNodeMetadata sampleSizes sampleWriter 0) 0) :=
    encodeNodeVersions_encoded (fun p hp => encodeNodeMetadata_apply hp) fun _ _ => rfl
  have hdec : ((decodeSegment sampleSizes 3 2 (view sampleMix 78) 0).map Prod.snd) = some 4 := by decide +kernel
  obtain ⟨⟨segment, v⟩, hdec, rfl⟩ := Option.map_eq_some_iff.1 hdec
  have hnone : (LeafVersionManager.decodeNodeVersions sampleSizes sampleMix 0).isNone = true := by decide +kernel
  exact ⟨Option.isNone_iff_eq_none.1 hnone, segment, hdec,
    (torn_node_detected.1 sampleSizes sampleLeaf sampleWriter 3 (sampleLeaf.image sampleSizes)
      ((sampleWriter.incremented sampleSizes).image sampleSizes) 0 0 sampleLeaf_uniform (fun _ _ => rfl) (by decide)
      fun x hx => (henc x hx).symm).2.1 3 2 (fun k => k == 1) (view sampleMix 78) 0 segment 4 (by decide) (by decide)
        (fun _ _ => rfl) hdec⟩

end Chime

import Chime.TornNode

/-!
# Encoding a node without replicas and back

Raw bytes that are accepted hold the encoded node they are decoded to (`Encoded.of_decode`), and an encoded node with
one node version is accepted (`NodeSizes.Encoded.decodes`), and so are its header and its segments. A segment written
over its raw slice makes the encoded node with the entries of the segment replaced (`NodeSizes.Encoded.patch`).
-/

namespace Chime

open Frame Memory PackedVersion VersionManager NodeSizes

variable {S : NodeSizes} {node segment : Nat → UInt8} {raw buffer inp out out' : Nat → UInt8} {s n i p x v l r : Nat}

/-! ## Offsets -/

namespace NodeSizes

theorem entryOffset_add : S.entryOffset (s + n) = S.entryOffset s + n * S.entrySize := by
  rw [entryOffset, entryOffset, Nat.add_mul, Nat.add_assoc]

theorem entryOffset_le (h : s ≤ n) : S.entryOffset s ≤ S.entryOffset n :=
  Nat.add_le_add_left (Nat.mul_le_mul_right _ h) _

theorem entryOffset_lt_entryOffset (h : s < n) : S.entryOffset s < S.entryOffset n :=
  Nat.add_lt_add_left (Nat.mul_lt_mul_of_pos_right h S.entrySize_pos) _

/-- The objects of a segment are its entries. -/
theorem objectOffset_entry (h : S.entryOffset s ≤ p) :
    objectOffset S p = S.entryOffset s + (p - S.entryOffset s) / S.entrySize * S.entrySize := by
  obtain ⟨x, rfl⟩ := Nat.exists_eq_add_of_le h
  have hle : ¬ S.entryOffset s + x < S.headerSize := by
    rw [entryOffset]
    omega
  have hx : S.entryOffset s + x - S.headerSize = S.entrySize * s + x := by
    rw [entryOffset, Nat.mul_comm]
    omega
  rw [objectOffset, if_neg hle, hx, Nat.mul_add_div S.entrySize_pos, entryOffset_add, Nat.add_sub_cancel_left]

/-- **Offsets of a segment** in the encoded node. -/
theorem getOffsetInfo_eq : VersionManager.getOffsetInfo S s n =
    (start blockSize versionSize S.firstOffset (S.entryOffset s),
      start blockSize versionSize S.firstOffset (S.entryOffset (s + n)) -
        start blockSize versionSize S.firstOffset (S.entryOffset s),
      first blockSize S.firstOffset (S.entryOffset s) (S.entryOffset (s + n))) := by
  have hlen : S.entrySize * n = S.entryOffset (s + n) - S.entryOffset s := by
    rw [entryOffset_add, Nat.mul_comm, Nat.add_sub_cancel_left]
  simp only [VersionManager.getOffsetInfo]
  exact LeafSizes.offsets_eq (entryOffset_le (Nat.le_add_right s n)) hlen

theorem nodeSize_pos : 0 < S.nodeSize := Nat.lt_of_lt_of_le S.headerSize_pos (Nat.le_add_right _ _)

theorem headerSize_le : S.headerSize ≤ S.nodeSize := Nat.le_add_right _ _

theorem nodeSize_le : S.nodeSize ≤ S.transSize := by
  rw [transSize_eq]
  exact Nat.le_add_right _ _

theorem entryOffset_lt (hi : i < S.spanSize) : S.entryOffset i < S.nodeSize := entryOffset_lt_entryOffset hi

/-! ## What is accepted -/

/-- **Accepted bytes** hold the encoded node they are decoded to, and its node versions are one. -/
theorem Encoded.of_decode (h : decodeNodeVersions S raw out = some node) :
    S.Encoded node raw ∧ S.Uniform node (nodeVersion (node 0)) := by
  obtain ⟨hout, hmarks, hobjects⟩ := VersionManager.decodeNodeVersions_some h
  have hversion : ∀ p < S.nodeSize, objectOffset S p = p → nodeVersion (node p) = nodeVersion (node 0) := by
    intro p hp hobj
    have := hobjects p hp
    rwa [hobj, ← hout p hp, ← hout 0 nodeSize_pos] at this
  refine ⟨fun x hx => ?_, rfl, fun i hi => hversion _ (entryOffset_lt hi) ?_⟩
  · rw [transSize_eq] at hx
    rcases raw_cases blockSize_pos hx with ⟨p, hp, rfl⟩ | ⟨k, o, ho, hk, rfl⟩
    · rw [frame_pos blockSize_pos, hout p hp, unframe]
    · rw [frame_mark ho, hout _ (Nat.lt_of_le_of_lt VersionManager.objectOffset_le hk), hmarks k hk]
      congr 1
      rw [versionSize] at ho
      omega
  · rw [objectOffset_entry le_rfl, Nat.sub_self, Nat.zero_div, Nat.zero_mul, Nat.add_zero]

/-- The payload of an encoded node. -/
theorem Encoded.unframe (h : S.Encoded node raw) (hp : p < S.nodeSize) :
    Frame.unframe blockSize versionSize S.firstOffset raw p = node p := by
  rw [NodeSizes.Encoded, transSize_eq] at h
  rw [unframe_congr h hp, unframe_frame blockSize_pos]

/-- The marks of an encoded node. -/
theorem Encoded.mark (h : S.Encoded node raw) {k : Nat} (hk : boundary blockSize S.firstOffset k < S.nodeSize) :
    raw (markPos blockSize versionSize S.firstOffset k) =
      node (objectOffset S (boundary blockSize S.firstOffset k)) := by
  have hlt := markPos_lt_start (w := versionSize) (o := 0) blockSize_pos (by decide) hk
  have hmark := frame_mark (b := blockSize) (w := versionSize) (f := S.firstOffset) (k := k) (o := 0)
    (d := node) (c := fun p _ => node (objectOffset S p)) (by decide)
  rw [Nat.add_zero] at hlt hmark
  rw [h _ (by rwa [transSize_eq]), hmark]

/-- **An encoded node** with one node version is accepted and decoded to the node. -/
theorem Encoded.decodes (h : S.Encoded node raw) (hv : S.Uniform node v) (out : Nat → UInt8) :
    ∃ node', decodeNodeVersions S raw out = some node' ∧ ∀ p < S.nodeSize, node' p = node p := by
  have hlocal := local_mark (g := objectOffset S) (fun _ => VersionManager.objectOffset_le) raw
  have hdec := @decode_spec blockSize versionSize S.firstOffset S.nodeSize raw out _ blockSize_pos hlocal
  have hsome := hdec.2.2 fun k hk => by
    rw [h.unframe (Nat.lt_of_le_of_lt VersionManager.objectOffset_le hk), h.mark hk]
    exact beq_self_eq_true _
  obtain ⟨node', hnode'⟩ := Option.isSome_iff_exists.1 hsome
  have hsame : ∀ p < S.nodeSize, node' p = node p := fun p hp => (hdec.1 node' hnode' p hp).trans (h.unframe hp)
  refine ⟨node', Option.filter_eq_some_iff.2 ⟨hnode', ?_⟩, hsame⟩
  have hfirst : nodeVersion (node' (S.entryOffset 0)) = v := by
    rw [hsame _ (entryOffset_lt S.spanSize_pos), hv.entry 0 S.spanSize_pos]
  simp only [jointCheck, Bool.and_eq_true, beq_iff_eq, List.all_eq_true, List.mem_range]
  refine ⟨?_, fun i hi => ?_⟩
  · rw [hfirst, hsame 0 nodeSize_pos, hv.metadata]
  · rw [hfirst, hsame _ (entryOffset_lt hi), hv.entry i hi]

/-! ## Segments of an encoded node -/

/-- The buffer holds the raw slice of the entries from `s` on, as `get_offset_info` gives it. -/
def IsSlice (S : NodeSizes) (s n : Nat) (raw buffer : Nat → UInt8) : Prop :=
  ∀ x < (VersionManager.getOffsetInfo S s n).2.1, buffer x = raw ((VersionManager.getOffsetInfo S s n).1 + x)

/-- The bytes of a raw slice. -/
theorem IsSlice.start_add (h : S.IsSlice s n raw buffer)
    (hx : x < start blockSize versionSize (first blockSize S.firstOffset (S.entryOffset s) (S.entryOffset (s + n)))
      (n * S.entrySize)) : buffer x = raw (start blockSize versionSize S.firstOffset (S.entryOffset s) + x) := by
  have hle : S.entryOffset s ≤ S.entryOffset (s + n) := entryOffset_le (Nat.le_add_right s n)
  have hlen := slice_start (w := versionSize) (f := S.firstOffset) blockSize_pos hle le_rfl
  have hsub : S.entryOffset (s + n) - S.entryOffset s = n * S.entrySize := by
    rw [entryOffset_add, Nat.add_sub_cancel_left]
  rw [hsub] at hlen
  rw [IsSlice, getOffsetInfo_eq] at h
  exact h x (by simp only; omega)

/-- The decoder of a segment gives the bytes of the node, and passes. -/
theorem Encoded.decodeSegment_loop (h : S.Encoded node raw) (hbuf : S.IsSlice s n raw buffer) (hle : s + n ≤ S.spanSize)
    (out : Nat → UInt8) :
    ∃ segment, Frame.decode blockSize versionSize (first blockSize S.firstOffset (S.entryOffset s) (S.entryOffset (s + n)))
        (S.entrySize * n) (fun out j i => out (j / S.entrySize * S.entrySize) == buffer i) buffer out = some segment ∧
      ∀ x < n * S.entrySize, segment x = node (S.entryOffset s + x) := by
  have hse : S.entryOffset s ≤ S.entryOffset (s + n) := entryOffset_le (Nat.le_add_right s n)
  have hend : S.entryOffset (s + n) ≤ S.nodeSize := entryOffset_le hle
  have hsub : S.entryOffset (s + n) - S.entryOffset s = n * S.entrySize := by
    rw [entryOffset_add, Nat.add_sub_cancel_left]
  have hlocal := local_mark (g := fun j => j / S.entrySize * S.entrySize) (fun _ => Nat.div_mul_le_self _ _) buffer
  have hpayload : ∀ x < n * S.entrySize, Frame.unframe blockSize versionSize
      (first blockSize S.firstOffset (S.entryOffset s) (S.entryOffset (s + n))) buffer x = node
      (S.entryOffset s + x) := by
    intro x hx
    rw [unframe_slice blockSize_pos hse (r := raw) (fun y hy => hbuf.start_add (by rwa [hsub] at hy)) (by omega)]
    exact h.unframe (by rw [entryOffset_add] at hend; omega)
  have hdec := @decode_spec blockSize versionSize (first blockSize S.firstOffset (S.entryOffset s) (S.entryOffset (s + n)))
    (S.entrySize * n) buffer out _ blockSize_pos hlocal
  rw [Nat.mul_comm S.entrySize] at hdec ⊢
  have hsome := hdec.2.2 fun k hk => by
    obtain ⟨hbound, hmark⟩ :=
      slice_boundary_of (w := versionSize) (f := S.firstOffset) blockSize_pos hse (by rwa [hsub])
    have hlt := markPos_lt_start (w := versionSize) (o := 0) blockSize_pos (by decide) hk
    rw [Nat.add_zero] at hlt
    rw [hpayload _ (Nat.lt_of_le_of_lt (Nat.div_mul_le_self _ _) hk), hbuf.start_add hlt, hmark, h.mark (by omega),
      objectOffset_entry (s := s) (by omega), ← hbound, Nat.add_sub_cancel_left]
    exact beq_self_eq_true _
  obtain ⟨segment, hsegment⟩ := Option.isSome_iff_exists.1 hsome
  exact ⟨segment, hsegment, fun x hx => (hdec.1 segment hsegment x hx).trans (hpayload x hx)⟩

/-- **A segment** of an encoded node is accepted and decoded to its entries. -/
theorem Encoded.decodesSegment (h : S.Encoded node raw) (hv : S.Uniform node v) (hn : 0 < n) (hle : s + n ≤ S.spanSize)
    (hbuf : S.IsSlice s n raw buffer) (out : Nat → UInt8) :
    ∃ segment, decodeSegmentVersions S buffer out (VersionManager.getOffsetInfo S s n).2.2 n = some (segment, v) ∧
      ∀ x < n * S.entrySize, segment x = node (S.entryOffset s + x) := by
  obtain ⟨segment, hsegment, hbytes⟩ := h.decodeSegment_loop hbuf hle out
  have hversion : ∀ i < n, nodeVersion (segment (i * S.entrySize)) = v := by
    intro i hi
    rw [hbytes _ (Nat.mul_lt_mul_of_pos_right hi S.entrySize_pos), ← entryOffset_add]
    exact hv.entry _ (by omega)
  have hfirst : nodeVersion (segment 0) = v := by
    have := hversion 0 hn
    rwa [Nat.zero_mul] at this
  refine ⟨segment, ?_, hbytes⟩
  rw [getOffsetInfo_eq, decodeSegmentVersions, hsegment, Option.filter_some, if_pos, Option.map_some, hfirst]
  simp only [segmentJointCheck, List.all_eq_true, List.mem_range', beq_iff_eq]
  rintro i ⟨j, hj, rfl⟩
  rw [hfirst, hversion _ (by omega)]

/-- **The header** of an encoded node is accepted and decoded. -/
theorem Encoded.decodesHeader (h : S.Encoded node raw) (hv : S.Uniform node v)
    (hbuf : ∀ x < (VersionManager.getOffsetInfo S 0 n).1, buffer x = raw x) (out : Nat → UInt8) :
    ∃ header, decodeHeaderVersions S buffer out = some (header, v) ∧ ∀ x < S.headerSize, header x = node x := by
  have hzero : S.entryOffset 0 = S.headerSize := by
    rw [entryOffset, Nat.zero_mul, Nat.add_zero]
  rw [getOffsetInfo_eq, hzero] at hbuf
  have hpos : 0 < S.firstOffset := Nat.lt_min.2 ⟨by decide, nodeSize_pos⟩
  have hpayload : ∀ x < S.headerSize, Frame.unframe blockSize versionSize S.firstOffset buffer x = node x := by
    intro x hx
    rw [unframe_congr hbuf hx]
    exact h.unframe (Nat.lt_of_lt_of_le hx headerSize_le)
  have hversion : copy out 0 buffer 0 S.firstOffset 0 = node 0 := by
    rw [copy_apply (by omega), ← hpayload 0 S.headerSize_pos, Frame.unframe, pos_of_lt blockSize_pos hpos]
  have hdec := @decode_spec blockSize versionSize S.firstOffset S.headerSize buffer out (fun _ _ i => node 0 == buffer i)
    blockSize_pos fun _ _ _ _ _ => rfl
  have hsome := hdec.2.2 fun k hk => by
    have hlt := markPos_lt_start (w := versionSize) (o := 0) blockSize_pos (by decide) hk
    rw [Nat.add_zero] at hlt
    rw [hbuf _ hlt, h.mark (Nat.lt_of_lt_of_le hk headerSize_le), objectOffset, if_pos hk]
    exact beq_self_eq_true _
  obtain ⟨header, hheader⟩ := Option.isSome_iff_exists.1 hsome
  refine ⟨header, ?_, fun x hx => (hdec.1 header hheader x hx).trans (hpayload x hx)⟩
  simp only [decodeHeaderVersions, hversion, hheader, Option.map_some, hv.metadata]

/-! ## Segments written over an encoded node -/

/-- The node with the entries from `s` on replaced. -/
def replace (S : NodeSizes) (node : Nat → UInt8) (s n : Nat) (segment : Nat → UInt8) : Nat → UInt8 :=
  copy node (S.entryOffset s) segment 0 (n * S.entrySize)

/-- The raw bytes with the slice of the entries from `s` on overwritten. -/
def overwrite (S : NodeSizes) (raw : Nat → UInt8) (s n : Nat) (encoded : Nat → UInt8) : Nat → UInt8 :=
  copy raw (VersionManager.getOffsetInfo S s n).1 encoded 0 (VersionManager.getOffsetInfo S s n).2.1

theorem replace_add (hx : x < n * S.entrySize) : S.replace node s n segment (S.entryOffset s + x) = segment x := by
  rw [replace, copy_apply (by omega), Nat.zero_add, Nat.add_sub_cancel_left]

theorem replace_of_not (h : p < S.entryOffset s ∨ S.entryOffset (s + n) ≤ p) :
    S.replace node s n segment p = node p := by
  rw [entryOffset_add] at h
  exact copy_of_not (by omega)

/-- An object is in a segment if one of its bytes is. -/
theorem le_objectOffset (h : S.entryOffset s ≤ p) : S.entryOffset s ≤ objectOffset S p := by
  rw [objectOffset_entry h]
  exact Nat.le_add_right _ _

/-- The encoded segment over its raw slice. -/
theorem Encoded.patch (h : S.Encoded node raw) {encoded : Nat → UInt8} (hencoded : ∀ x < start blockSize versionSize
      (first blockSize S.firstOffset (S.entryOffset s) (S.entryOffset (s + n))) (n * S.entrySize),
      encoded x =
        frame blockSize versionSize (first blockSize S.firstOffset (S.entryOffset s) (S.entryOffset (s + n))) segment
        (fun p _ => segment (p / S.entrySize * S.entrySize)) x) :
    S.Encoded (S.replace node s n segment) (S.overwrite raw s n encoded) := by
  have hse : S.entryOffset s ≤ S.entryOffset (s + n) := entryOffset_le (Nat.le_add_right s n)
  have hsub : S.entryOffset (s + n) - S.entryOffset s = n * S.entrySize := by
    rw [entryOffset_add, Nat.add_sub_cancel_left]
  have hlen := slice_start (w := versionSize) (f := S.firstOffset) blockSize_pos hse le_rfl
  rw [hsub] at hlen
  intro x hx
  rw [overwrite, getOffsetInfo_eq]
  by_cases hin : start blockSize versionSize S.firstOffset (S.entryOffset s) ≤ x ∧
      x < start blockSize versionSize S.firstOffset (S.entryOffset (s + n))
  · -- in the slice
    obtain ⟨y, rfl⟩ := Nat.exists_eq_add_of_le hin.1
    have hy : y < start blockSize versionSize (first blockSize S.firstOffset (S.entryOffset s) (S.entryOffset (s + n)))
        (n * S.entrySize) := by omega
    rw [copy_apply (by simp only; omega), Nat.zero_add, Nat.add_sub_cancel_left, hencoded y hy,
      frame_slice blockSize_pos hse (by rwa [hsub])]
    refine frame_congr blockSize_pos (fun p hp => (replace_add hp).symm) (fun k hk _ _ => ?_) hy
    rw [objectOffset_entry (Nat.le_add_right _ _), Nat.add_sub_cancel_left]
    exact (replace_add (Nat.lt_of_le_of_lt (Nat.div_mul_le_self _ _) hk)).symm
  · rw [copy_of_not (by simp only; omega), h x hx]
    refine frame_congr_outside blockSize_pos (fun p hp => (replace_of_not hp).symm) (fun k hk _ _ => ?_)
      (by omega : x < start blockSize versionSize S.firstOffset (S.entryOffset s) ∨
        start blockSize versionSize S.firstOffset (S.entryOffset (s + n)) ≤ x)
    refine (replace_of_not (hk.imp (fun hlt => ?_) le_objectOffset)).symm
    exact Nat.lt_of_le_of_lt VersionManager.objectOffset_le hlt

/-- The versions of a node with replaced entries. -/
theorem Uniform.replace (hv : S.Uniform node v) (hsegment : ∀ i < n, nodeVersion (segment (i * S.entrySize)) = v) :
    S.Uniform (S.replace node s n segment) v := by
  have hpos : 0 < S.entryOffset s := Nat.lt_of_lt_of_le S.headerSize_pos (Nat.le_add_right _ _)
  refine ⟨by rw [replace_of_not (.inl hpos), hv.metadata], fun i hi => ?_⟩
  rcases Nat.lt_or_ge i s with his | his
  · rw [replace_of_not (.inl (entryOffset_lt_entryOffset his)), hv.entry i hi]
  · obtain ⟨j, rfl⟩ := Nat.exists_eq_add_of_le his
    rcases Nat.lt_or_ge j n with hj | hj
    · rw [entryOffset_add, replace_add (Nat.mul_lt_mul_of_pos_right hj S.entrySize_pos), hsegment j hj]
    · rw [replace_of_not (.inr (entryOffset_le (Nat.add_le_add_left hj s))), hv.entry _ hi]

/-- A node with replaced entries is accepted. -/
theorem Encoded.decodesPatch (h : S.Encoded node raw) (hv : S.Uniform node v)
    (hsegment : ∀ i < n, nodeVersion (segment (i * S.entrySize)) = v) {encoded : Nat → UInt8}
    (hencoded : ∀ x < start blockSize versionSize
      (first blockSize S.firstOffset (S.entryOffset s) (S.entryOffset (s + n))) (n * S.entrySize),
      encoded x =
        frame blockSize versionSize (first blockSize S.firstOffset (S.entryOffset s) (S.entryOffset (s + n))) segment
        (fun p _ => segment (p / S.entrySize * S.entrySize)) x) (out : Nat → UInt8) :
    ∃ node', decodeNodeVersions S (S.overwrite raw s n encoded) out = some node' ∧
      ∀ p < S.nodeSize, node' p = S.replace node s n segment p :=
  (h.patch hencoded).decodes (hv.replace hsegment) out

end NodeSizes

/-! ## The versions in a segment -/

namespace VersionManager

/-- The segment in `[l, r]` with the entry version of an entry incremented once for each of its places in the list. -/
structure Hopped (S : NodeSizes) (hopped : List Nat) (l r : Nat) (segment segment' : Nat → UInt8) : Prop where
  bytes : ∀ x, ¬ S.entrySize ∣ x → segment' x = segment x
  nodeVersion : ∀ x, nodeVersion (segment' x) = nodeVersion (segment x)
  entryVersion : ∀ i, l ≤ i → i ≤ r → entryVersion (segment' ((i - l) * S.entrySize)) =
    (entryVersion (segment ((i - l) * S.entrySize)) + hopped.count i) % 16

theorem Hopped.refl : Hopped S [] l r segment segment :=
  ⟨fun _ _ => rfl, fun _ => rfl, fun _ _ _ => (Nat.mod_eq_of_lt entryVersion_lt).symm⟩

/-- One more increment. -/
theorem Hopped.update {hopped : List Nat} {segment' : Nat → UInt8} {j : Nat} (hj : l ≤ j ∧ j ≤ r)
    (h : Hopped S hopped l r (Function.update segment ((j - l) * S.entrySize)
      (incrementEntryVersion (segment ((j - l) * S.entrySize)))) segment') :
    Hopped S (j :: hopped) l r segment segment' := by
  refine ⟨fun x hx => ?_, fun x => ?_, fun i hli hir => ?_⟩
  · have hne : x ≠ (j - l) * S.entrySize := fun he => hx (Dvd.intro_left _ he.symm)
    rw [h.bytes x hx, Function.update_of_ne hne]
  · rw [h.nodeVersion x]
    by_cases hx : x = (j - l) * S.entrySize
    · subst hx
      rw [Function.update_self, nodeVersion_incrementEntryVersion]
    · rw [Function.update_of_ne hx]
  · rw [h.entryVersion i hli hir]
    by_cases hij : i = j
    · subst hij
      rw [Function.update_self, entryVersion_incrementEntryVersion, List.count_cons_self]
      omega
    · have hne : (i - l) * S.entrySize ≠ (j - l) * S.entrySize := fun he => by
        have := Nat.eq_of_mul_eq_mul_right S.entrySize_pos he
        omega
      rw [Function.update_of_ne hne, List.count_cons_of_ne (Ne.symm hij)]

/-- An index that is not in the segment. -/
theorem Hopped.skip {hopped : List Nat} {segment' : Nat → UInt8} {j : Nat} (hj : ¬(l ≤ j ∧ j ≤ r))
    (h : Hopped S hopped l r segment segment') : Hopped S (j :: hopped) l r segment segment' := by
  refine ⟨h.bytes, h.nodeVersion, fun i hli hir => ?_⟩
  have hij : j ≠ i := fun he => hj (he ▸ ⟨hli, hir⟩)
  rw [h.entryVersion i hli hir, List.count_cons_of_ne hij]

theorem incrementEntryVersions_hopped {hopped : List Nat} :
    Hopped S hopped l r segment (incrementEntryVersions S hopped l r segment) := by
  induction hopped generalizing segment with
  | nil => exact .refl
  | cons j hopped ih =>
    rw [incrementEntryVersions, List.foldl_cons]
    split
    · rename_i hj
      exact Hopped.update hj ih
    · rename_i hj
      exact Hopped.skip hj ih

/-- `encode_entry_versions` encodes a segment of one entry. -/
theorem encodeEntryVersions_apply {entry : Nat → UInt8} {f : Nat}
    (hx : x < start blockSize versionSize f (1 * S.entrySize)) :
    encodeEntryVersions S entry out f x = frame blockSize versionSize f
      (Function.update entry 0 (incrementEntryVersion (entry 0)))
      (fun p _ => Function.update entry 0 (incrementEntryVersion (entry 0)) (p / S.entrySize * S.entrySize)) x := by
  rw [Nat.one_mul] at hx
  rw [encodeEntryVersions, encode_apply blockSize_pos hx]
  refine frame_congr blockSize_pos (fun _ _ => rfl) (fun k hk _ _ => ?_) hx
  rw [Nat.div_eq_of_lt hk, Nat.zero_mul]

/-- `encode_segment_versions` encodes the segment with its versions incremented. -/
theorem encodeSegmentVersions_apply {hopped : List Nat} {f : Nat}
    (hx : x < start blockSize versionSize f ((r - l + 1) * S.entrySize)) :
    encodeSegmentVersions S segment out f hopped l r x = frame blockSize versionSize f
      (incrementEntryVersions S hopped l r segment)
      (fun p _ => incrementEntryVersions S hopped l r segment (p / S.entrySize * S.entrySize)) x := by
  rw [Nat.mul_comm] at hx
  exact encode_apply blockSize_pos hx

/-- What `encode_node_versions` does to the versions. -/
theorem incrementNodeVersions_of_mem (h : p ∈ objects S) :
    nodeVersion (incrementNodeVersions S node p) = (nodeVersion (node (S.entryOffset 0)) + 1) % 16 ∧
      entryVersion (incrementNodeVersions S node p) = entryVersion (node p) := by
  rw [incrementNodeVersions, foldl_setNodeVersion, if_pos h]
  exact ⟨nodeVersion_setNodeVersion, entryVersion_setNodeVersion⟩

theorem incrementNodeVersions_of_not_mem (h : p ∉ objects S) : incrementNodeVersions S node p = node p := by
  rw [incrementNodeVersions, foldl_setNodeVersion, if_neg h]

theorem lt_of_mem_objects (h : p ∈ objects S) : p < S.nodeSize := by
  rcases List.mem_cons.1 h with rfl | h
  · exact nodeSize_pos
  · obtain ⟨i, hi, rfl⟩ := List.mem_map.1 h
    exact entryOffset_lt (List.mem_range.1 hi)

theorem nodeVersion_of_mem_objects (hv : S.Uniform node v) (h : p ∈ objects S) : nodeVersion (node p) = v := by
  rcases List.mem_cons.1 h with rfl | h
  · exact hv.metadata
  · obtain ⟨i, hi, rfl⟩ := List.mem_map.1 h
    exact hv.entry i (List.mem_range.1 hi)

end VersionManager

/-! ## The codec -/

/-- The node with the node version of every object one above that of the first entry, and so one above its own if the
node versions are one. -/
structure Incremented (S : NodeSizes) (node node' : Nat → UInt8) : Prop where
  bytes : ∀ p < S.nodeSize, p ∉ objects S → node' p = node p
  nodeVersion : ∀ p ∈ objects S, nodeVersion (node' p) = (nodeVersion (node (S.entryOffset 0)) + 1) % 16
  own : ∀ v, S.Uniform node v → ∀ p ∈ objects S, PackedVersion.nodeVersion (node' p) =
    (PackedVersion.nodeVersion (node p) + 1) % 16
  entryVersion : ∀ p ∈ objects S, entryVersion (node' p) = entryVersion (node p)

/-- **Encoding a node** and decoding it. -/
theorem decode_encodeNodeVersions (S : NodeSizes) (node out out' : Nat → UInt8) :
    ∃ node', decodeNodeVersions S (encodeNodeVersions S node out) out' = some node' ∧ Incremented S node node' := by
  have henc : S.Encoded (incrementNodeVersions S node) (encodeNodeVersions S node out) :=
    VersionManager.encodeNodeVersions_encoded fun _ _ => rfl
  obtain ⟨node', hdec, hnode'⟩ := henc.decodes VersionManager.incrementNodeVersions_uniform out'
  have hversion : ∀ p ∈ objects S, nodeVersion (node' p) = (nodeVersion (node (S.entryOffset 0)) + 1) % 16 := by
    intro p hmem
    rw [hnode' p (lt_of_mem_objects hmem), (incrementNodeVersions_of_mem hmem).1]
  refine ⟨node', hdec, fun p hp hmem => ?_, hversion, fun v hv p hmem => ?_, fun p hmem => ?_⟩
  · rw [hnode' p hp, incrementNodeVersions_of_not_mem hmem]
  · rw [hversion p hmem, nodeVersion_of_mem_objects hv hmem, hv.entry 0 S.spanSize_pos]
  · rw [hnode' p (lt_of_mem_objects hmem), (incrementNodeVersions_of_mem hmem).2]

/-- **The codec of a node**: a node that is encoded is accepted with its node versions incremented. Of the raw bytes of
an accepted node, the header and every segment are accepted, and with an entry or a segment written over them they are
accepted as the node with these entries replaced. -/
theorem version_manager_codec (S : NodeSizes) :
    (∀ node out out', ∃ node', decodeNodeVersions S (encodeNodeVersions S node out) out' = some node' ∧
      Incremented S node node') ∧
    ∀ raw out node, decodeNodeVersions S raw out = some node →
      (∀ s n buffer out, 0 < n → s + n ≤ S.spanSize → S.IsSlice s n raw buffer → ∃ segment,
        decodeSegmentVersions S buffer out (VersionManager.getOffsetInfo S s n).2.2 n =
          some (segment, nodeVersion (node 0)) ∧
          ∀ x < n * S.entrySize, segment x = node (S.entryOffset s + x)) ∧
      (∀ buffer out, (∀ x < (VersionManager.getOffsetInfo S 0 1).1, buffer x = raw x) → ∃ header,
        decodeHeaderVersions S buffer out = some (header, nodeVersion (node 0)) ∧
          ∀ x < S.headerSize, header x = node x) ∧
      (∀ i entry out out', i < S.spanSize → nodeVersion (entry 0) = nodeVersion (node 0) → ∃ node',
        decodeNodeVersions S (S.overwrite raw i 1
          (encodeEntryVersions S entry out (VersionManager.getOffsetInfo S i 1).2.2)) out' = some node' ∧
        ∀ p < S.nodeSize, node' p = S.replace node i 1 (Function.update entry 0 (incrementEntryVersion (entry 0))) p) ∧
      ∀ l r hopped segment out out', l ≤ r → r < S.spanSize →
        (∀ i < r - l + 1, nodeVersion (segment (i * S.entrySize)) = nodeVersion (node 0)) → ∃ segment' node',
        Hopped S hopped l r segment segment' ∧
        decodeNodeVersions S (S.overwrite raw l (r - l + 1) (encodeSegmentVersions S segment out
          (VersionManager.getOffsetInfo S l (r - l + 1)).2.2 hopped l r)) out' = some node' ∧
        ∀ p < S.nodeSize, node' p = S.replace node l (r - l + 1) segment' p := by
  refine ⟨decode_encodeNodeVersions S, fun raw out node hdec => ?_⟩
  obtain ⟨henc, hv⟩ := Encoded.of_decode hdec
  refine ⟨fun s n buffer out hn hle hbuf => henc.decodesSegment hv hn hle hbuf out,
    fun buffer out hbuf => henc.decodesHeader hv hbuf out, fun i entry out out' hi hentry => ?_,
    fun l r hopped segment out out' hlr hr hsegment => ?_⟩
  · refine henc.decodesPatch hv (fun j hj => ?_) (fun x hx => ?_) out'
    · obtain rfl : j = 0 := by omega
      rw [Nat.zero_mul, Function.update_self, nodeVersion_incrementEntryVersion, hentry]
    · rw [NodeSizes.getOffsetInfo_eq]
      exact encodeEntryVersions_apply hx
  · have hhopped : Hopped S hopped l r segment (incrementEntryVersions S hopped l r segment) :=
      incrementEntryVersions_hopped
    have hversion : ∀ i < r - l + 1, nodeVersion (incrementEntryVersions S hopped l r segment (i * S.entrySize)) =
        nodeVersion (node 0) := fun i hi => (hhopped.nodeVersion _).trans (hsegment i hi)
    obtain ⟨node', hdec', hnode'⟩ := henc.decodesPatch (s := l) hv hversion
      (fun x hx => @encodeSegmentVersions_apply S segment out x l r hopped _ hx) out'
    refine ⟨_, node', hhopped, ?_, hnode'⟩
    rw [NodeSizes.getOffsetInfo_eq]
    exact hdec'

/-- The sizes of an internal node of two entries. -/
def sampleNodeSizes : NodeSizes := ⟨43, 17, 2, Nat.succ_pos 42, Nat.succ_pos 16, Nat.zero_lt_two⟩

/-- A node with node version 5 and bytes of its own. -/
def sampleNode : Nat → UInt8 := fun p => if p = 0 ∨ p = 43 ∨ p = 60 then pack 5 p else .ofNat (p + 1)

/-- The node comes back with node version 6, and so does its second entry. An entry written over the first one is in
the node that is decoded then. -/
theorem version_manager_codec_sample : ∃ raw node segment node',
    raw = encodeNodeVersions sampleNodeSizes sampleNode 0 ∧
    decodeNodeVersions sampleNodeSizes raw 0 = some node ∧ nodeVersion (node 0) = 6 ∧
    decodeSegmentVersions sampleNodeSizes (view raw 60) 0 4 1 = some (segment, nodeVersion (node 0)) ∧
    (∀ x < 1 * 17, segment x = node (60 + x)) ∧
    decodeNodeVersions sampleNodeSizes (sampleNodeSizes.overwrite raw 0 1
      (encodeEntryVersions sampleNodeSizes (fun x => if x = 0 then pack 6 1 else 77) 0 17)) 0 = some node' ∧
    node' 44 = 77 ∧ node' 61 = node 61 := by
  obtain ⟨hround, hslices⟩ := version_manager_codec sampleNodeSizes
  obtain ⟨node, hdec, hinc⟩ := hround sampleNode 0 0
  have hversion : nodeVersion (node 0) = 6 := by
    rw [hinc.nodeVersion 0 (by decide)]
    decide
  obtain ⟨hsegment, -, hentry, -⟩ := hslices _ _ _ hdec
  obtain ⟨segment, hsegment, hbytes⟩ := hsegment 1 1 (view _ 60) 0 (by decide) (by decide) (by intro x _; rfl)
  obtain ⟨node', hdec', hnode'⟩ := hentry 0 (fun x => if x = 0 then pack 6 1 else 77) 0 0 (by decide)
    (by rw [hversion]; decide)
  exact ⟨_, node, segment, node', rfl, hdec, hversion, hsegment, hbytes, hdec', (hnode' 44 (by decide)).trans rfl,
    (hnode' 61 (by decide)).trans rfl⟩

end Chime

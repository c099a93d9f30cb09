import Chime.Lib.Snapshot
import Chime.NodeRoundTrip

/-!
# Reads of an internal node while it is written

An internal node is written as a whole under its lock: by a writer that has read it, and encodes it with the next node
version. The write arrives in blocks of 64 bytes, in any order, and a reader gets the blocks of the node in any order.
The node version has four bits. While a reader may get blocks of at most 16 images, what it accepts is one of the nodes
that were there during its read (`node_read_snapshot`). With 17 images it may accept a node that never was
(`node_read_wraps`).
-/

namespace Chime
namespace NodeSnapshot

open Frame Memory PackedVersion Snapshot VersionManager NodeSizes

/-- A write: the bytes of the node, and those of the buffer that it is encoded into. -/
structure Written where
  node : Nat → UInt8
  out : Nat → UInt8

variable (S : NodeSizes)

/-- The encoded node. -/
def Written.image (w : Written) : Nat → UInt8 := encodeNodeVersions S w.node w.out

/-- The node that it holds. -/
def Written.encoded (w : Written) : Nat → UInt8 := incrementNodeVersions S w.node

/-- The node version of its first entry. -/
def Written.version (w : Written) : Nat := nodeVersion (w.encoded S (S.entryOffset 0))

/-- The blocks of 64 bytes of a node. -/
def blocks : Nat := (S.transSize + (cachelineSize - 1)) / cachelineSize

/-- The memory at a node, its writers and a reader. -/
def machine (first : Written) : Machine (State Written) (Action Written) Empty :=
  Snapshot.machine (blocks S) cachelineSize (Written.image S) first

/-- A writer has locked the node and read it, and leaves the version of its first entry. -/
def Locked (s : State Written) : Action Written → Prop
  | .write w => nodeVersion (w.node (S.entryOffset 0)) = (s.nodes s.last).version S
  | _ => True

variable {S} {s s' : State Written} {first w : Written} {h h' : List Empty} {out decoded : Nat → UInt8} {x : Nat}

theorem div_lt_blocks (hx : x < S.transSize) : x / cachelineSize < blocks S := by
  rw [blocks, cachelineSize]
  omega

theorem Written.image_encoded : S.Encoded (w.encoded S) (w.image S) :=
  VersionManager.encodeNodeVersions_encoded fun _ _ => rfl

theorem Written.version_eq : w.version S = (nodeVersion (w.node (S.entryOffset 0)) + 1) % 16 :=
  VersionManager.incrementNodeVersions_uniform.entry 0 S.spanSize_pos

theorem Written.encoded_uniform : S.Uniform (w.encoded S) (w.version S) := by
  rw [Written.version_eq]
  exact VersionManager.incrementNodeVersions_uniform

/-- The versions count the writes. -/
theorem run_version (hrun : (machine S first).Run (Locked S) s h) :
    ∀ k ≤ s.last, (s.nodes k).version S = (first.version S + k) % 16 := by
  refine hrun.invariant (I := fun s _ => ∀ k ≤ s.last, (s.nodes k).version S = (first.version S + k) % 16) ?_ ?_
  · intro k hk
    obtain rfl := Nat.le_zero.1 hk
    exact (Nat.mod_eq_of_lt nodeVersion_lt).symm
  · intro s h a s' es _ hI hguard hs k hk
    obtain ⟨-, hnodes⟩ := step_nodes hs
    by_cases hle : k ≤ s.last
    · rw [hnodes k hle]
      exact hI k hle
    · cases a with
      | write w =>
        simp only [machine, Snapshot.machine, Snapshot.step] at hs
        split at hs
        · cases hs
          obtain rfl : k = s.last + 1 := Nat.le_antisymm hk (not_le.1 hle)
          simp only [Function.update_self]
          rw [Written.version_eq, show nodeVersion (w.node (S.entryOffset 0)) = _ from hguard, hI _ le_rfl]
          omega
        · cases hs
      | land b =>
        simp only [machine, Snapshot.machine, Snapshot.step] at hs
        split at hs
        · cases hs
          exact absurd hk hle
        · cases hs
      | read =>
        cases hs
        exact absurd hk hle
      | fetch b =>
        simp only [machine, Snapshot.machine, Snapshot.step] at hs
        split at hs
        · cases hs
          exact absurd hk hle
        · cases hs

/-- **Reads are snapshots**: in every run, a read that may have got blocks of at most 16 images, and is accepted, gives
a node that was in the memory at its beginning or was written during it. -/
theorem node_read_snapshot (hrun : (machine S first).Run (Locked S) s h) (hfresh : ∀ b, s.fetched b = false)
    (hsteps : (machine S first).Steps (Locked S) s h s' h') (hall : ∀ b < blocks S, s'.fetched b = true)
    (hfew : s'.last < s.oldest (blocks S) + 16) (hdec : decodeNodeVersions S s'.buffer out = some decoded) :
    ∃ k, s.oldest (blocks S) ≤ k ∧ k ≤ s'.last ∧ ∀ p < S.nodeSize, decoded p = (s'.nodes k).encoded S p := by
  obtain ⟨τ, hτ, hbuffer⟩ := reads_window (by decide) hrun hfresh hsteps hall
  have hversion := run_version (hrun.of_steps hsteps)
  obtain ⟨hout, hmarks, hobjects⟩ := VersionManager.decodeNodeVersions_some hdec
  have huniform : ∀ l, S.Uniform ((s'.nodes (τ l)).encoded S) ((s'.nodes (τ l)).version S) := fun l =>
    Written.encoded_uniform
  have hraw : ∀ x < start blockSize 1 S.firstOffset S.nodeSize, s'.buffer x = frame blockSize 1 S.firstOffset
      ((s'.nodes (τ (x / (blockSize + 1)))).encoded S)
      (fun p _ => (s'.nodes (τ (x / (blockSize + 1)))).encoded S (objectOffset S p)) x := by
    intro x hx
    have hx' : x < S.transSize := by
      rw [transSize_eq]
      exact hx
    exact (hbuffer x (div_lt_blocks hx')).trans (Written.image_encoded x hx')
  have hfirst : S.firstOffset = min (blockSize + 1) S.nodeSize := rfl
  have hchecked (k : Nat) (_ : 0 ≤ boundary blockSize S.firstOffset k)
      (hk : boundary blockSize S.firstOffset k < S.nodeSize) :
      (∀ l, nodeVersion ((s'.nodes (τ l)).encoded S (objectOffset S (boundary blockSize S.firstOffset k))) =
        (s'.nodes (τ l)).version S) ∧ nodeVersion (s'.buffer (markPos blockSize 1 S.firstOffset k)) =
          nodeVersion (unframe blockSize 1 S.firstOffset s'.buffer 0) := by
    have hobj := hobjects _ hk
    rw [hmarks k hk] at hobj
    exact ⟨fun l => (huniform l).object hk, hobj⟩
  obtain ⟨l₀, hl₀⟩ := block_of_checked (c := fun l p _ => (s'.nodes (τ l)).encoded S (objectOffset S p)) blockSize_pos
    nodeVersion hfirst le_rfl nodeSize_pos hraw (fun l => (huniform l).metadata) hchecked
  refine ⟨τ l₀, (hτ l₀).1, (hτ l₀).2, fun p hp => ?_⟩
  obtain ⟨l, hl, hp'⟩ := hl₀ p (Nat.zero_le p) hp
  -- images of one version are at most 16 apart, so they are the same
  have hsame : τ l = τ l₀ := by
    rw [hversion _ (hτ l).2, hversion _ (hτ l₀).2] at hl
    have := hτ l
    have := hτ l₀
    omega
  rw [hout p hp]
  exact hp'.trans (by rw [hsame])

/-! ## More images than versions -/

variable (S) in
/-- The `k`-th write: all but the first one set a byte of the header and the last byte of the node. -/
def numbered (k : Nat) : Written where
  node p := if p = S.entryOffset 0 then pack k 0 else if 0 < k ∧ (p = 1 ∨ p = S.nodeSize - 1) then 1 else 0
  out _ := 0

section Numbered

variable (hheader : 2 ≤ S.headerSize) (hentry : 2 ≤ S.entrySize) {k p : Nat}

include hheader in
theorem one_not_mem_objects : 1 ∉ objects S := by
  intro h
  rcases List.mem_cons.1 h with h | h
  · cases h
  · obtain ⟨i, -, hi⟩ := List.mem_map.1 h
    rw [entryOffset] at hi
    omega

include hentry in
theorem last_not_mem_objects : S.nodeSize - 1 ∉ objects S := by
  have hheader := S.headerSize_pos
  have hspan := Nat.mul_le_mul S.spanSize_pos hentry
  intro h
  rcases List.mem_cons.1 h with h | h
  · rw [nodeSize, entryOffset] at h
    omega
  · obtain ⟨i, hi, he⟩ := List.mem_map.1 h
    have hmul := Nat.mul_le_mul_right S.entrySize (Nat.succ_le_of_lt (List.mem_range.1 hi))
    rw [nodeSize, entryOffset, entryOffset] at he
    rw [Nat.succ_mul] at hmul
    omega

theorem numbered_version : (numbered S k).version S = (k + 1) % 16 := by
  rw [Written.version_eq, numbered]
  simp only [if_pos, nodeVersion_pack]
  omega

theorem numbered_locked (hs : s.nodes s.last = numbered S s.last) : Locked S s (.write (numbered S (s.last + 1))) := by
  rw [Locked, hs, numbered_version, numbered]
  simp only [if_pos, nodeVersion_pack]

include hheader hentry in
/-- The versions of the objects. -/
theorem numbered_object (hp : p ∈ objects S) :
    nodeVersion ((numbered S k).encoded S p) = (k + 1) % 16 ∧ entryVersion ((numbered S k).encoded S p) = 0 := by
  have h := @incrementNodeVersions_of_mem S (numbered S k).node p hp
  refine ⟨?_, ?_⟩
  · rw [← numbered_version (S := S), Written.version_eq]
    exact h.1
  · refine h.2.trans ?_
    have h1 : p ≠ 1 := fun he => one_not_mem_objects hheader (he ▸ hp)
    have hlast : p ≠ S.nodeSize - 1 := fun he => last_not_mem_objects hentry (he ▸ hp)
    simp only [numbered, h1, hlast, or_self, and_false, if_false]
    split
    · exact entryVersion_pack
    · decide

theorem numbered_byte (hp : p ∉ objects S) :
    (numbered S k).encoded S p = if 0 < k ∧ (p = 1 ∨ p = S.nodeSize - 1) then 1 else 0 := by
  have hne : p ≠ S.entryOffset 0 := by
    rintro rfl
    exact hp (List.mem_cons_of_mem _ (List.mem_map_of_mem (List.mem_range.2 S.spanSize_pos)))
  rw [Written.encoded, incrementNodeVersions_of_not_mem hp, numbered]
  exact if_neg hne

include hheader hentry in
/-- After 16 writes only the two bytes are others. -/
theorem numbered_sixteen (h1 : p ≠ 1) (hlast : p ≠ S.nodeSize - 1) :
    (numbered S 16).encoded S p = (numbered S 0).encoded S p := by
  by_cases hp : p ∈ objects S
  · have h := numbered_object hheader hentry (k := 16) hp
    have h' := numbered_object hheader hentry (k := 0) hp
    exact PackedVersion.eq_iff.2 ⟨h.1.trans h'.1.symm, h.2.trans h'.2.symm⟩
  · rw [numbered_byte hp, numbered_byte hp, if_neg (by omega), if_neg (by omega)]

variable (S) in
/-- The first block of the first node, and the other blocks of the 17th one. -/
def mixed : Nat → UInt8 := Function.update ((numbered S 16).encoded S) 1 0

include hheader in
theorem mixed_object (hp : p ∈ objects S) : mixed S p = (numbered S 16).encoded S p := by
  have h1 : p ≠ 1 := fun he => one_not_mem_objects hheader (he ▸ hp)
  exact Function.update_of_ne h1 _ _

include hheader hentry in
theorem mixed_uniform : S.Uniform (mixed S) 1 where
  metadata := by
    rw [mixed_object hheader List.mem_cons_self]
    exact (numbered_object hheader hentry List.mem_cons_self).1
  entry i hi := by
    have hmem : S.entryOffset i ∈ objects S := List.mem_cons_of_mem _ (List.mem_map_of_mem (List.mem_range.2 hi))
    rw [mixed_object hheader hmem]
    exact (numbered_object hheader hentry hmem).1

include hheader hentry in
/-- Its encoding has the blocks of the two encodings. -/
theorem mixed_encoded (hsize : cachelineSize < S.nodeSize) {raw : Nat → UInt8} (hraw : ∀ x < S.transSize,
    raw x = (if x / cachelineSize = 0 then numbered S 0 else numbered S 16).image S x) : S.Encoded (mixed S) raw := by
  have hfirst : S.firstOffset = min (blockSize + 1) S.nodeSize := rfl
  have hf : S.firstOffset = cachelineSize := Nat.min_eq_left hsize.le
  intro x hx
  rw [hraw x hx, Written.image_encoded x hx]
  rw [transSize_eq] at hx
  rcases raw_cases blockSize_pos hx with ⟨p, hp, rfl⟩ | ⟨k, o, ho, hk, rfl⟩
  · have hdiv : pos blockSize versionSize S.firstOffset p / cachelineSize = marks blockSize S.firstOffset (p + 1) :=
      pos_div blockSize_pos hfirst hp
    rw [frame_pos blockSize_pos, frame_pos blockSize_pos, hdiv]
    rcases Nat.lt_or_ge p cachelineSize with hlt | hge
    · -- the first block
      rw [if_pos (marks_of_le blockSize_pos (by omega))]
      rcases eq_or_ne p 1 with rfl | h1
      · rw [numbered_byte (one_not_mem_objects hheader), if_neg (by omega), mixed, Function.update_self]
      · rw [mixed, Function.update_of_ne h1, numbered_sixteen hheader hentry h1 (by omega)]
    · have hpos : boundary blockSize S.firstOffset 0 < p + 1 := by
        rw [boundary]
        omega
      have := (boundary_lt_iff blockSize_pos).1 hpos
      have h1 : p ≠ 1 := by
        rintro rfl
        exact absurd hge (by decide)
      rw [if_neg (by omega), mixed, Function.update_of_ne h1]
  · obtain rfl : o = 0 := Nat.lt_one_iff.1 ho
    have hdiv : (markPos blockSize versionSize S.firstOffset k + 0) / cachelineSize = k + 1 :=
      markPos_div hfirst hk Nat.one_pos
    have hmem : objectOffset S (boundary blockSize S.firstOffset k) ∈ objects S := by
      rcases VersionManager.object_cases hk with h | ⟨i, hi, h⟩
      · exact h ▸ List.mem_cons_self
      · exact h ▸ List.mem_cons_of_mem _ (List.mem_map_of_mem (List.mem_range.2 hi))
    rw [hdiv, if_neg (Nat.succ_ne_zero k), frame_mark ho, frame_mark ho]
    exact (mixed_object hheader hmem).symm

end Numbered

/-- **The node versions wrap around**: for every layout whose nodes have more than one block, there is a read that may
get blocks of 17 images, is accepted, and gives a node that was never written. -/
theorem node_read_wraps (hheader : 2 ≤ S.headerSize) (hentry : 2 ≤ S.entrySize) (hsize : cachelineSize < S.nodeSize)
    (out : Nat → UInt8) : ∃ first s decoded,
      (machine S first).Steps (Locked S) (machine S first).init [] s [] ∧ s.last = 16 ∧
      (∀ b < blocks S, s.fetched b = true) ∧ decodeNodeVersions S s.buffer out = some decoded ∧
      ∀ k ≤ s.last, ∃ p < S.nodeSize, decoded p ≠ (s.nodes k).encoded S p := by
  obtain ⟨s, hsteps, hlast, hall, hnodes, hbuffer⟩ := exists_read (Written.image S) (n := blocks S) (w := cachelineSize)
    (G := Locked S) (by decide) (fun _ _ => trivial) (fun _ _ => trivial)
    (fun _ => numbered_locked) (fun b => b == 0) 16
  have hencoded : S.Encoded (mixed S) s.buffer := by
    refine mixed_encoded hheader hentry hsize fun x hx => ?_
    rw [hbuffer x (div_lt_blocks hx)]
    simp only [beq_iff_eq]
  obtain ⟨decoded, hdec, hbytes⟩ := hencoded.decodes (mixed_uniform hheader hentry) out
  have hone : 1 < S.nodeSize := Nat.lt_trans (by decide) hsize
  refine ⟨_, s, decoded, hsteps, hlast, hall, hdec, fun k hk => ?_⟩
  rw [hlast] at hk
  rw [hnodes k hk]
  rcases Nat.eq_zero_or_pos k with rfl | hk0
  · -- the last byte is not that of the first node
    have hne : S.nodeSize - 1 ≠ 1 := by
      rw [cachelineSize] at hsize
      omega
    have hlast := last_not_mem_objects (S := S) hentry
    refine ⟨S.nodeSize - 1, by omega, ?_⟩
    rw [hbytes _ (by omega), mixed, Function.update_of_ne hne, numbered_byte hlast, numbered_byte hlast]
    simp
  · -- the byte of the header is not that of the others
    refine ⟨1, hone, ?_⟩
    rw [hbytes 1 hone, mixed, Function.update_self, numbered_byte (one_not_mem_objects hheader), if_pos ⟨hk0, .inl rfl⟩]
    decide

/-- A node of two blocks. -/
def twoBlocks : NodeSizes := ⟨10, 19, 6, by decide, by decide, by decide⟩

theorem node_read_wraps_twoBlocks : ∃ first s decoded,
    (machine twoBlocks first).Steps (Locked twoBlocks) (machine twoBlocks first).init [] s [] ∧ s.last = 16 ∧
      (∀ b < blocks twoBlocks, s.fetched b = true) ∧ decodeNodeVersions twoBlocks s.buffer 0 = some decoded ∧
      ∀ k ≤ s.last, ∃ p < twoBlocks.nodeSize, decoded p ≠ (s.nodes k).encoded twoBlocks p :=
  node_read_wraps (by decide) (by decide) (by decide) 0

/-- A reader that gets all its blocks after the second write. -/
theorem node_read_snapshot_twoBlocks : ∃ s decoded, (machine twoBlocks (numbered twoBlocks 0)).Steps (Locked twoBlocks)
    (machine twoBlocks (numbered twoBlocks 0)).init [] s [] ∧ s.last = 1 ∧
      decodeNodeVersions twoBlocks s.buffer 0 = some decoded ∧
      ∃ k, 0 ≤ k ∧ k ≤ s.last ∧ ∀ p < twoBlocks.nodeSize, decoded p = (s.nodes k).encoded twoBlocks p := by
  obtain ⟨s, hsteps, hlast, hall, -, hbuffer⟩ := exists_read (Written.image twoBlocks) (n := blocks twoBlocks)
    (w := cachelineSize) (G := Locked twoBlocks) (by decide) (fun _ _ => trivial) (fun _ _ => trivial)
    (fun _ => numbered_locked) (fun _ => false) 1
  have hencoded : twoBlocks.Encoded ((numbered twoBlocks 1).encoded twoBlocks) s.buffer := fun x hx => by
    rw [hbuffer x (div_lt_blocks hx)]
    exact Written.image_encoded x hx
  obtain ⟨decoded, hdec, -⟩ := hencoded.decodes Written.encoded_uniform 0
  exact ⟨s, decoded, hsteps, hlast, hdec, node_read_snapshot .init (fun _ => rfl) hsteps hall
    (by rw [hlast]; decide) hdec⟩

end NodeSnapshot
end Chime

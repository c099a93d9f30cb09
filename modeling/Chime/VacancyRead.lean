import Chime.LeafInsert

/-!
# The vacancy-limited insert against the full-read insert

`leaf_node_insert` reads the entries that `get_read_entry_num_from_bitmap` names, into a zeroed view. On a good leaf
with a true lock word it does with them what it would do with all entries: the checks before the insert look at the
same facts about the leaf (`leafNodeInsertReading_eq`), the probe meets the same empty slot
(`hopscotchInsertAndUnlock_all`), the write of a view of a segment is the write of the segment
(`segmentWriteAndUnlock_mask`), and a split reads the rest first.
-/

namespace Chime

open Cyclic (slot gap)
open Records

variable {L : Layout}

/-! ## The write of a view -/

section Views

variable {W : Finset (Fin L.leafSpanSize)} {b r : Records L}

/-- The largest hopped key is looked up in the hopped slots. -/
theorem hoppedMaxKeyIdx_mask {hoppedIdxes : List (Fin L.leafSpanSize)} (hW : ∀ i ∈ hoppedIdxes, i ∈ W)
    (lock : Valock L) :
    hoppedMaxKeyIdx (mask W b r) hoppedIdxes lock = hoppedMaxKeyIdx r hoppedIdxes lock := by
  have hfold : ∀ a : Nat × Nat, hoppedIdxes.foldl (fun (acc : Nat × Nat) idx =>
      if (mask W b r idx).key > acc.1 then ((mask W b r idx).key, idx.val) else acc) a =
      hoppedIdxes.foldl (fun (acc : Nat × Nat) idx => if (r idx).key > acc.1 then ((r idx).key, idx.val) else acc) a := by
    intro a
    apply List.foldl_ext
    intro acc i hi
    rw [mask_of_mem (hW i hi)]
  simp only [hoppedMaxKeyIdx, hfold]

theorem getEmptyIdxes_mask {l n : Nat} (hW : ∀ i : Nat, l ≤ i → i < n → slot _ (i : Int) ∈ W) :
    getEmptyIdxes (mask W b r) l n = getEmptyIdxes r l n := by
  unfold getEmptyIdxes
  apply List.filter_congr
  intro i hi
  obtain ⟨h1, h2⟩ := List.mem_range'_1.1 hi
  rw [getEntry_mask (hW i h1 (by omega))]

/-- The write of a segment looks at the slots of the segment and at the hopped ones. -/
theorem segmentWriteAndUnlock_mask {l last : Fin L.leafSpanSize} {hoppedIdxes : List (Fin L.leafSpanSize)}
    (hseg : ∀ s, inSegment l last s = true → s ∈ W) (hhop : ∀ i ∈ hoppedIdxes, i ∈ W) (lock : Valock L) :
    segmentWriteAndUnlock (mask W b r) l last hoppedIdxes lock =
      (segmentWriteAndUnlock r l last hoppedIdxes lock).map fun w => { w with records := mask W b w.records } := by
  have hslot : ∀ (i : Nat) (hi : i < L.leafSpanSize), slot L.leafSpanSize (i : Int) = ⟨i, hi⟩ :=
    fun i hi => Cyclic.slot_coe ⟨i, hi⟩
  have hlast := last.isLt
  have hempty : (if l ≤ last then getEmptyIdxes (mask W b r) l.val (last.val + 1)
      else getEmptyIdxes (mask W b r) 0 (last.val + 1) ++ getEmptyIdxes (mask W b r) l.val L.leafSpanSize) =
      if l ≤ last then getEmptyIdxes r l.val (last.val + 1)
      else getEmptyIdxes r 0 (last.val + 1) ++ getEmptyIdxes r l.val L.leafSpanSize := by
    split
    · rename_i hle
      apply getEmptyIdxes_mask
      intro i h1 h2
      rw [hslot i (by omega)]
      apply hseg
      rw [inSegment, if_pos hle]
      exact decide_eq_true ⟨Fin.le_def.2 h1, Fin.le_def.2 (by simp only; omega)⟩
    · rename_i hle
      rw [getEmptyIdxes_mask, getEmptyIdxes_mask]
      · intro i h1 h2
        rw [hslot i h2]
        apply hseg
        rw [inSegment, if_neg hle]
        exact decide_eq_true (.inr (Fin.le_def.2 h1))
      · intro i h1 h2
        rw [hslot i (by omega)]
        apply hseg
        rw [inSegment, if_neg hle]
        exact decide_eq_true (.inl (Fin.le_def.2 (by simp only; omega)))
  simp only [segmentWriteAndUnlock, hoppedMaxKeyIdx_mask hhop, hempty]
  cases (hoppedMaxKeyIdx r hoppedIdxes lock).updateVacancy l.val last.val _ <;> rfl

/-- A view of the segment puts the same records into the leaf. -/
theorem LeafWrite.apply_mask (remote : LeafNode L) {w : LeafWrite L} (hseg : ∀ s, inSegment w.l w.r s = true → s ∈ W) :
    LeafWrite.apply { w with records := mask W b w.records } remote = w.apply remote := by
  simp only [LeafWrite.apply]
  congr 1
  funext s
  split
  · rename_i hs
    exact mask_of_mem (hseg s hs)
  · rfl

end Views

/-! ## The insert of a key that is not stored -/

/-- The probe over a part of the leaf with an empty slot is the probe over the leaf. -/
theorem hopscotchInsertAndUnlock_all {r : Records L} {k n : Nat} (v : Nat)
    (hempty : n = L.leafSpanSize ∨ ∃ i < n, r.keys (slot _ ((L.getHashedLeafEntryIndex k).val + i : Nat)) = 0)
    (hn : n ≤ L.leafSpanSize) : hopscotchInsertAndUnlock r k v n = hopscotchInsertAndUnlock r k v L.leafSpanSize := by
  rcases hempty with rfl | ⟨i, hi, hi0⟩
  · rfl
  · cases hfe : r.firstEmpty (L.getHashedLeafEntryIndex k).val n with
    | none => exact absurd hi0 (firstEmpty_none hfe _ (by omega) (by omega))
    | some e => simp only [hopscotchInsertAndUnlock, hfe, firstEmpty_mono hfe hn]

/-- The insert of a key that is not stored, in terms of the leaf: its probe, and the write of the view of the new
table. -/
theorem insertIntoLeaf_absent {remote : LeafNode L} {k n : Nat} {W : Finset (Fin L.leafSpanSize)} (hk : k ≠ kkeyNull)
    (hno : ∀ s, (remote.records s).key ≠ k) (hn : n ≤ L.leafSpanSize) (hW : window (L.getHashedLeafEntryIndex k) n ⊆ W)
    (hempty : n = L.leafSpanSize ∨
      ∃ i < n, remote.records.keys (slot _ ((L.getHashedLeafEntryIndex k).val + i : Nat)) = 0)
    (lock : Valock L) (v : Nat) (newAddr : GlobalAddress) :
    insertIntoLeaf remote (firstView remote W) lock k v (L.getHashedLeafEntryIndex k) n newAddr =
      hopscotchInsertAndUnlock remote.records k v L.leafSpanSize >>= fun
        | some (rs, lastIdx, hoppedIdxes) =>
          (segmentWriteAndUnlock (mask W LeafNode.zeroed.records rs) (L.getHashedLeafEntryIndex k) lastIdx hoppedIdxes
            lock).map .write
        | none => (hopscotchSplitAndUnlock remote k v lock newAddr).map .split := by
  have hrest := readRest_eq remote (L.getHashedLeafEntryIndex k) hn hW
  have hall := hopscotchInsertAndUnlock_all v hempty hn
  set home := L.getHashedLeafEntryIndex k with hhome
  have hmem : ∀ i : Int, home.val ≤ i → i < home.val + n → slot _ i ∈ W := fun i h1 h2 => hW (slot_mem_window hn h1 h2)
  have hassert : n = L.leafSpanSize ∨ ((List.range n).any fun i =>
      decide (((firstView remote W).records.getEntry (home.val + i : Nat)).key = kkeyNull)) = true := by
    rcases hempty with he | ⟨i, hin, hi0⟩
    · exact .inl he
    · refine .inr (List.any_eq_true.2 ⟨i, List.mem_range.2 hin, decide_eq_true ?_⟩)
      rw [firstView, getEntry_mask (hmem _ (by omega) (by omega))]
      exact hi0
  -- no slot of the view holds the key: the slots not read hold the null key
  have hfind : ((List.finRange L.leafSpanSize).find? fun i => decide (((firstView remote W).records i).key = k)) =
      none := by
    rw [List.find?_eq_none]
    intro i _ hi
    have hi : ((firstView remote W).records i).key = k := of_decide_eq_true hi
    by_cases hiW : i ∈ W
    · rw [show (firstView remote W).records i = remote.records i from mask_of_mem hiW] at hi
      exact hno i hi
    · rw [show (firstView remote W).records i = LeafNode.zeroed.records i from mask_of_not_mem hiW] at hi
      exact hk hi.symm
  have hhop : hopscotchInsertAndUnlock (firstView remote W).records k v n =
      (hopscotchInsertAndUnlock remote.records k v L.leafSpanSize).map
        (Option.map fun y => (mask W LeafNode.zeroed.records y.1, y.2)) := by
    rw [← hall]
    exact hopscotchInsertAndUnlock_mask hmem
  simp only [insertIntoLeaf, Checked.assert_of hassert, Checked.ok_bind, Checked.pure_eq_ok, hfind, hhop]
  rcases hopscotchInsertAndUnlock remote.records k v L.leafSpanSize with a | x
  · rfl
  rcases x with - | ⟨rs, lastIdx, hoppedIdxes⟩
  · simp only [Except.map, Option.map, Checked.ok_bind]
    split
    · rename_i hlt
      rw [hrest.1 hlt]
      rfl
    · rename_i hlt
      rw [hrest.2 hlt]
      rfl
  · rfl

/-- Two ends of an insert on one leaf that cannot be told apart: they take the same branch, and what they write leaves
the same leaf and the same lock word. The only assertion that can fail is the one on a turn to the right without a
sibling. -/
inductive SameInsert (remote : LeafNode L) : Checked (LeafInsert L) → Checked (LeafInsert L) → Prop
  | invalid : SameInsert remote (.ok .invalid) (.ok .invalid)
  | turnRight : SameInsert remote (.ok (.turnRight remote.metadata.siblingPtr))
    (.ok (.turnRight remote.metadata.siblingPtr))
  | siblingNull : remote.metadata.siblingPtr = .null → SameInsert remote (.error .siblingNull) (.error .siblingNull)
  | write (w w' : LeafWrite L) : w.apply remote = w'.apply remote → w.lock = w'.lock →
      SameInsert remote (.ok (.write w)) (.ok (.write w'))
  | split (x : LeafSplit L) : SameInsert remote (.ok (.split x)) (.ok (.split x))

/-- The write of a hop insertion passes the assertions of `update_vacancy`. -/
theorem segmentWrite_ok {remote : LeafNode L} {k v n : Nat} {e : Int} {hs : List Int} {r' : Records L}
    (h : InsertedAt remote.records k v n e hs r') (hk : k ≠ 0) (lock : Valock L) :
    ∃ w, segmentWriteAndUnlock r' (L.getHashedLeafEntryIndex k) (slot _ e) ((e :: hs).map (slot _)) lock = .ok w ∧
      w.l = L.getHashedLeafEntryIndex k ∧ w.r = slot _ e := by
  have hnil := segment_full (b := r') h hk fun i _ _ => Finset.mem_univ (slot _ i)
  rw [mask_univ] at hnil
  obtain ⟨lock', hlock, -⟩ := (hoppedMaxKeyIdx r' ((e :: hs).map (slot _)) lock).updateVacancy_spec
    (L.getHashedLeafEntryIndex k).val (slot L.leafSpanSize e).val [] (by simp)
  refine ⟨⟨L.getHashedLeafEntryIndex k, slot _ e, r', lock'⟩, ?_, rfl, rfl⟩
  simp only [segmentWriteAndUnlock]
  rw [hnil, hlock]
  rfl

/-- The insert of a key that is not stored does the same with a part of the leaf that has an empty slot as with all of
it. -/
theorem insertIntoLeaf_same {remote : LeafNode L} (hg : Good remote.records) {k n : Nat}
    {W : Finset (Fin L.leafSpanSize)}
    (hk : k ≠ kkeyNull) (hno : ∀ s, (remote.records s).key ≠ k) (hn : n ≤ L.leafSpanSize)
    (hW : window (L.getHashedLeafEntryIndex k) n ⊆ W)
    (hempty : n = L.leafSpanSize ∨
      ∃ i < n, remote.records.keys (slot _ ((L.getHashedLeafEntryIndex k).val + i : Nat)) = 0)
    (lock : Valock L) (v : Nat) (newAddr : GlobalAddress) :
    SameInsert remote (insertIntoLeaf remote (firstView remote W) lock k v (L.getHashedLeafEntryIndex k) n newAddr)
      (insertIntoLeaf remote (firstView remote Finset.univ) lock k v (L.getHashedLeafEntryIndex k) L.leafSpanSize
        newAddr) := by
  obtain ⟨hp, hd⟩ := (good_iff _).1 hg
  rw [insertIntoLeaf_absent hk hno hn hW hempty,
    insertIntoLeaf_absent hk hno le_rfl (Finset.subset_univ _) (.inl rfl)]
  rcases insertion_spec hp v hk L.leafSpanSize with ⟨e, hs, r', hins, he⟩ | ⟨hst, he⟩
  · obtain ⟨h1, -, -, h4⟩ := firstEmpty_some hins.firstEmpty
    have h2 := firstEmpty_lt hins.firstEmpty
    -- the first empty slot is among those read, hence so is the segment
    have hen : e < (L.getHashedLeafEntryIndex k).val + n := by
      rcases hempty with rfl | ⟨i, hi, hi0⟩
      · exact h2
      · by_contra hge
        exact h4 ((L.getHashedLeafEntryIndex k).val + i : Nat) (by omega) (by omega) hi0
    have hmem : ∀ i : Int, (L.getHashedLeafEntryIndex k).val ≤ i → i ≤ e → slot _ i ∈ W :=
      fun i h5 h6 => hW (slot_mem_window hn h5 (by omega))
    have hseg : ∀ s, inSegment (L.getHashedLeafEntryIndex k) (slot _ e) s = true → s ∈ W := by
      intro s hs
      obtain ⟨i, h5, h6, rfl⟩ := (mem_segment h1 h2).1 hs
      exact hmem i h5 h6
    have hhop : ∀ s ∈ (e :: hs).map (slot _), s ∈ W := by
      intro s hs'
      obtain ⟨i, h5, h6, rfl⟩ := hins.mem_path hs'
      exact hmem i h5 h6
    obtain ⟨w, hw, hl, hr⟩ := segmentWrite_ok hins hk lock
    simp only [he, Checked.ok_bind, segmentWriteAndUnlock_mask hseg hhop, mask_univ, hw, Except.map]
    refine .write _ w (LeafWrite.apply_mask remote fun s hs' => ?_) rfl
    rw [hl, hr] at hs'
    exact hseg s hs'
  · simp only [he, Checked.ok_bind]
    rcases splitAndUnlock_spec remote hp v hk hst lock newAddr with ⟨x, hx, -⟩ | ⟨hdup | ⟨-, s, hs⟩, -⟩
    · rw [hx]
      exact .split x
    · exact absurd hd hdup
    · exact absurd hs (hno s)

/-- **The vacancy-limited insert agrees with the full-read insert**: on a good leaf with a true lock word, an insert of
a key that is not stored takes the same branch, and leaves the same leaf and the same lock word, as with a read of the
whole leaf. The stored keys lie below the highest fence of the tree. -/
theorem vacancy_read_agrees {remote : LeafNode L} {lock : Valock L} (hg : Good remote.records)
    (ht : LockTells lock remote.records) (hbound : ∀ s, (remote.records s).key < L.keyFull) {k : Nat}
    (hk : k ≠ kkeyNull) (hno : ∀ s, (remote.records s).key ≠ k) (v : Nat) (siblingAddr newAddr : GlobalAddress)
    (fromCache : Bool) :
    SameInsert remote (leafNodeInsert remote lock siblingAddr k v fromCache newAddr)
      (leafNodeInsertReading remote lock siblingAddr k v fromCache newAddr L.leafSpanSize) := by
  have hrange := lock.inRange_exact (L.getHashedLeafEntryIndex k).val
  obtain ⟨h0, hn, -, -⟩ := insertReadNum_spec lock (L.getHashedLeafEntryIndex k) hrange
  have hall : insertRead remote (L.getHashedLeafEntryIndex k) L.leafSpanSize =
      .ok (firstView remote (window (L.getHashedLeafEntryIndex k) L.leafSpanSize)) := by
    rw [insertRead, if_neg (lt_irrefl _), window_all, firstView, mask_univ]
  have huniv : readSlots remote lock siblingAddr k L.leafSpanSize = Finset.univ := by
    have hsub := window_subset_readSlots remote lock siblingAddr k L.leafSpanSize
    rw [window_all] at hsub
    exact Finset.univ_subset_iff.1 hsub
  rw [leafNodeInsert, leafNodeInsertReading_eq ht hbound v h0 hn (insertRead_eq remote hrange),
    leafNodeInsertReading_eq ht hbound v L.leafSpanSize_pos le_rfl hall, huniv]
  split
  · exact .invalid
  split
  · split
    · exact .turnRight
    · rename_i hnull
      exact .siblingNull (not_not.1 hnull)
  · exact insertIntoLeaf_same hg hk hno hn (window_subset_readSlots remote lock siblingAddr k _)
      (hasEmpty_of_reads ht hrange) lock v newAddr

/-- A lock word of `Records.sample`: the largest key is in slot 1, and only the last bucket has an empty slot. -/
def Valock.sample : Valock .small := ⟨7, 1⟩

theorem tells_sample : LockTells Valock.sample Records.sample :=
  ⟨⟨1, by decide +kernel, by decide +kernel, by decide +kernel⟩, by decide +kernel⟩

/-- The key 5 is inserted after a read of three of the four slots, with a hop from slot 2 to the last slot. -/
theorem vacancy_read_agrees_sample : insertReadNum Valock.sample 1 = 3 ∧
    SameInsert ⟨⟨true, .at 7⟩, Records.sample⟩
      (leafNodeInsert ⟨⟨true, .at 7⟩, Records.sample⟩ Valock.sample .null 5 50 false (.at 9))
      (leafNodeInsertReading ⟨⟨true, .at 7⟩, Records.sample⟩ Valock.sample .null 5 50 false (.at 9) 4) :=
  ⟨by decide +kernel,
    vacancy_read_agrees good_sample tells_sample (by decide +kernel) (by decide) (by decide +kernel) 50
    .null (.at 9) false⟩

end Chime

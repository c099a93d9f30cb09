import Chime.LeafWrites

/-!
# `leaf_node_insert` on one leaf

On an unlocked leaf whose lock word tells the truth (`LeafInv`), `leaf_node_insert` sees the slots `insertReads`: the
first read, which contains an empty slot or is the whole leaf (`hasEmpty_of_reads`), and the slot of the largest key if
the turn-right check needed it (`insertSplitKey_eq`). It then gives up on a stale cache entry, turns right exactly from
a leaf all of whose keys are below `k` (`leafNodeInsert_eq`), or does one of the four things of `InsertResult`
(`insertIntoLeaf_spec`).
-/

namespace Chime

open Cyclic (slot gap)
open Records

variable {L : Layout}

variable [Arithmetic]

/-- What holds of an unlocked leaf and its lock word. -/
structure LeafInv (lf : LeafNode L) (lock : Valock L) : Prop where
  placed : lf.records.IsPlaced
  valid : lf.metadata.valid = true
  tells : LockTells lock lf.records
  bound : ∀ s, lf.records.keys s ≤ L.ghostKey

/-- The slots that `leaf_node_insert` has read when it looks for the key. -/
def insertReads (remote : LeafNode L) (lock : Valock L) (siblingAddr : GlobalAddress) (k : Nat) :
    Finset (Fin L.leafSpanSize) :=
  let home := L.getHashedLeafEntryIndex k
  let W := window home (insertReadNum lock home.val)
  if siblingAddr ≠ remote.siblingPtr ∧ remote.isRoot = false ∧ ¬∃ s ∈ W, k ≤ (remote.records s).key
  then insert (slot _ lock.getMaxKeyIdx) W else W

theorem window_subset_insertReads (remote : LeafNode L) (lock : Valock L) (siblingAddr : GlobalAddress) (k : Nat) :
    window (L.getHashedLeafEntryIndex k) (insertReadNum lock (L.getHashedLeafEntryIndex k).val) ⊆
      insertReads remote lock siblingAddr k := by
  simp only [insertReads]
  split
  · exact Finset.subset_insert _ _
  · exact Finset.Subset.refl _

/-! ## The turn-right check -/

omit [Arithmetic] in
/-- `check_larger_key` over the first read. -/
theorem checkLargerKey_iff {rs : Records L} {k l r : Nat} (hr : r ≤ L.leafSpanSize) :
    checkLargerKey rs k l r = true ↔ ∃ s : Fin L.leafSpanSize, l ≤ s.val ∧ s.val < r ∧ k ≤ rs.keys s := by
  rw [checkLargerKey, List.any_eq_true]
  constructor
  · rintro ⟨i, hi, hk⟩
    obtain ⟨h1, h2⟩ := List.mem_range'_1.1 hi
    have hlt : i < L.leafSpanSize := by omega
    refine ⟨⟨i, hlt⟩, h1, by simp only; omega, ?_⟩
    have hsl : slot L.leafSpanSize (i : Int) = ⟨i, hlt⟩ := Cyclic.slot_coe ⟨i, hlt⟩
    have := of_decide_eq_true hk
    rwa [getEntry, hsl] at this
  · rintro ⟨s, h1, h2, hk⟩
    refine ⟨s.val, List.mem_range'_1.2 ⟨h1, by omega⟩, decide_eq_true ?_⟩
    rw [getEntry, Cyclic.slot_coe]
    exact hk

omit [Arithmetic] in
/-- The bounds of the two loops of the turn-right check cover the first read. -/
theorem mem_window_iff (home : Fin L.leafSpanSize) {s : Fin L.leafSpanSize} {n : Nat} (h0 : 0 < n)
    (hn : n ≤ L.leafSpanSize) :
    s ∈ window home n ↔ if home.val < (home.val + n) % L.leafSpanSize
      then home.val ≤ s.val ∧ s.val < (home.val + n) % L.leafSpanSize
      else s.val < (home.val + n) % L.leafSpanSize ∨ home.val ≤ s.val := by
  have h := home.isLt
  have hs := s.isLt
  rw [mem_window, Cyclic.gap_eq_ite]
  by_cases hw : home.val + n < L.leafSpanSize
  · rw [Nat.mod_eq_of_lt hw]
    split_ifs <;> omega
  · have hmod : (home.val + n) % L.leafSpanSize = home.val + n - L.leafSpanSize := by
      rw [Nat.mod_eq_sub_mod (by omega)]
      exact Nat.mod_eq_of_lt (by omega)
    rw [hmod]
    split_ifs <;> omega

omit [Arithmetic] in
theorem hasLargeKey_iff (rs : Records L) (k : Nat) {n : Nat} (home : Fin L.leafSpanSize) (h0 : 0 < n)
    (hn : n ≤ L.leafSpanSize) :
    (if home.val < (home.val + n) % L.leafSpanSize then checkLargerKey rs k home.val ((home.val + n) % L.leafSpanSize)
      else checkLargerKey rs k 0 ((home.val + n) % L.leafSpanSize) || checkLargerKey rs k home.val L.leafSpanSize) = true ↔
    ∃ s ∈ window home n, k ≤ rs.keys s := by
  have hlt := Nat.mod_lt (home.val + n) L.leafSpanSize_pos
  simp only [mem_window_iff home h0 hn]
  split_ifs with hc
  · rw [checkLargerKey_iff (by omega)]
    simp only [and_assoc]
  · rw [Bool.or_eq_true, checkLargerKey_iff (by omega), checkLargerKey_iff le_rfl]
    constructor
    · rintro (⟨s, h1, h2, h3⟩ | ⟨s, h1, h2, h3⟩)
      · exact ⟨s, .inl h2, h3⟩
      · exact ⟨s, .inr h1, h3⟩
    · rintro ⟨s, h1 | h1, h3⟩
      · exact .inl ⟨s, Nat.zero_le _, h1, h3⟩
      · exact .inr ⟨s, h1, s.isLt, h3⟩

/-- The view after the first read. -/
def firstView (remote : LeafNode L) (W : Finset (Fin L.leafSpanSize)) : LeafNode L :=
  ⟨remote.metadata, mask W LeafNode.zeroed.records remote.records⟩

/-- The turn-right check on the first view. -/
theorem insertSplitKey_eq {remote : LeafNode L} {lock : Valock L} (hi : LockTells lock remote.records) {k n : Nat}
    {home : Fin L.leafSpanSize} (h0 : 0 < n) (hn : n ≤ L.leafSpanSize) :
    insertSplitKey remote (firstView remote (window home n)) lock k home.val ((home.val + n) % L.leafSpanSize) =
      if remote.isRoot then (firstView remote (window home n), L.keyFull)
      else if ∃ s ∈ window home n, k ≤ remote.records.keys s then (firstView remote (window home n), L.keySucc k)
      else (firstView remote (insert (slot _ lock.getMaxKeyIdx) (window home n)),
        L.keySucc (remote.records.getEntry lock.getMaxKeyIdx).key) := by
  obtain ⟨m, hm, -⟩ := hi.maxKeyIdx
  have hroot : (firstView remote (window home n)).isRoot = remote.isRoot := rfl
  have hkeys : ∀ s ∈ window home n, (firstView remote (window home n)).records.keys s = remote.records.keys s :=
    fun s hs => congrArg LeafEntry.key (mask_of_mem hs)
  have hlarge := hasLargeKey_iff (firstView remote (window home n)).records k home h0 hn
  simp only [insertSplitKey, hroot]
  split
  · rfl
  by_cases hex : ∃ s ∈ window home n, k ≤ remote.records.keys s
  · have hex' : ∃ s ∈ window home n, k ≤ (firstView remote (window home n)).records.keys s := by
      obtain ⟨s, hs, hks⟩ := hex
      exact ⟨s, hs, (hkeys s hs).symm ▸ hks⟩
    rw [if_pos (hlarge.2 hex'), if_pos hex]
  · have hex' : ¬∃ s ∈ window home n, k ≤ (firstView remote (window home n)).records.keys s := by
      rintro ⟨s, hs, hks⟩
      exact hex ⟨s, hs, hkeys s hs ▸ hks⟩
    rw [if_neg (mt hlarge.1 hex'), if_neg hex]
    -- the slot of the largest key is read unless it has been
    have hview : (if home.val < (home.val + n) % L.leafSpanSize ∧
        (lock.getMaxKeyIdx < home.val ∨ lock.getMaxKeyIdx ≥ (home.val + n) % L.leafSpanSize) ∨
        home.val ≥ (home.val + n) % L.leafSpanSize ∧ lock.getMaxKeyIdx ≥ (home.val + n) % L.leafSpanSize ∧
          lock.getMaxKeyIdx < home.val
        then leafEntryRead remote (slot L.leafSpanSize lock.getMaxKeyIdx) (firstView remote (window home n))
        else firstView remote (window home n)) =
        firstView remote (insert (slot _ lock.getMaxKeyIdx) (window home n)) := by
      split
      · exact leafEntryRead_eq _ _ _ _ _ rfl
      · rename_i hc
        rw [firstView, firstView, Finset.insert_eq_of_mem]
        rw [hm, Cyclic.slot_coe, mem_window_iff _ h0 hn]
        rw [hm] at hc
        split_ifs <;> omega
    have hent : (firstView remote (insert (slot _ lock.getMaxKeyIdx) (window home n))).records.getEntry lock.getMaxKeyIdx =
        remote.records.getEntry lock.getMaxKeyIdx := mask_of_mem (Finset.mem_insert_self _ _)
    rw [hview, hent]

/-! ## The insert proper -/

/-- The first read shows an empty slot, or the whole leaf. -/
theorem hasEmpty_of_reads {lock : Valock L} {r : Records L} (ht : LockTells lock r) {home : Fin L.leafSpanSize}
    (hr : lock.InRange home.val) : insertReadNum lock home.val = L.leafSpanSize ∨
      ∃ i < insertReadNum lock home.val, r.keys (slot _ (home.val + i : Nat)) = 0 := by
  obtain ⟨-, -, h | ⟨b, hb, hbit, hall⟩, -⟩ := insertReadNum_spec lock home hr
  · exact .inl h
  · obtain ⟨s, hs, hs0⟩ := ht.vacancy b hb hbit
    obtain ⟨h1, h2⟩ := hall s.val s.isLt hs
    refine .inr ⟨s.val - home.val, by omega, ?_⟩
    rw [show home.val + (s.val - home.val) = s.val by omega, Cyclic.slot_coe]
    exact hs0

/-- How an insert of a routed key into a leaf ends; `W` are the slots read. -/
inductive InsertResult (remote : LeafNode L) (lock : Valock L) (W : Finset (Fin L.leafSpanSize)) (k v n : Nat)
    (newAddr : GlobalAddress) : Checked (LeafInsert L) → Prop
  /-- the key was read, its value is overwritten -/
  | update (i : Fin L.leafSpanSize) (w : LeafWrite L) : i ∈ W → remote.records.keys i = k →
      w.apply remote = { remote with records := remote.records.update i.val k v } → w.lock = lock →
      InsertResult remote lock W k v n newAddr (.ok (.write w))
  /-- the key was not read, and is inserted -/
  | insert (e : Int) (hs : List Int) (r' : Records L) (w : LeafWrite L) : (∀ i ∈ W, remote.records.keys i ≠ k) →
      InsertedAt remote.records k v n e hs r' → w.apply remote = { remote with records := r' } → LockTells w.lock r' →
      InsertResult remote lock W k v n newAddr (.ok (.write w))
  /-- the key was not read and does not fit -/
  | split (x : LeafSplit L) : (∀ i ∈ W, remote.records.keys i ≠ k) → Stuck remote.records k L.leafSpanSize →
      SplitOf remote k v newAddr x → InsertResult remote lock W k v n newAddr (.ok (.split x))
  /-- the key was not read, does not fit, and does not fit its half either -/
  | stuck (a : Assertion) : (∀ i ∈ W, remote.records.keys i ≠ k) → Stuck remote.records k L.leafSpanSize →
      ¬remote.records.Distinct ∨ remote.records.HasKey k → a = .noEmpty ∨ a = .hopFails →
      InsertResult remote lock W k v n newAddr (.error a)

omit [Arithmetic] in
/-- The two reads of an insert cover the leaf. -/
theorem window_union (home : Fin L.leafSpanSize) {n : Nat} (hn : n ≤ L.leafSpanSize) {W : Finset (Fin L.leafSpanSize)}
    (hW : window home n ⊆ W) :
    window (slot _ (home.val + n : Nat)) (L.leafSpanSize - n) ∪ W = Finset.univ := by
  refine Finset.eq_univ_of_forall fun s => Finset.mem_union.2 ?_
  by_cases hs : gap home s < n
  · exact .inr (hW (mem_window.2 hs))
  · refine .inl (mem_window.2 ?_)
    have hg := Cyclic.gap_lt home s
    have := Cyclic.gap_eq_of_slot (i := ((home.val + n : Nat) : Int)) (d := gap home s - n) (t := s) (by omega) (by
      rw [show (((home.val + n : Nat) : Int) + (gap home s - n : Nat)) = home.val + gap home s by push_cast; omega]
      exact Cyclic.slot_add_gap home s)
    rw [this]
    omega

omit [Arithmetic] in
/-- The second read shows the whole leaf. -/
theorem readRest_eq (remote : LeafNode L) (home : Fin L.leafSpanSize) {n : Nat} (hn : n ≤ L.leafSpanSize)
    {W : Finset (Fin L.leafSpanSize)} (hW : window home n ⊆ W) :
    (n < L.leafSpanSize → hopscotchSearch remote (slot L.leafSpanSize (home.val + n : Nat)) (L.leafSpanSize - n)
      (firstView remote W) = .ok remote) ∧ (¬n < L.leafSpanSize → firstView remote W = remote) := by
  refine ⟨fun h => ?_, fun h => ?_⟩
  · obtain ⟨md, hs, -, hmd⟩ := hopscotchSearch_eq remote (firstView remote W) (slot _ (home.val + n : Nat))
      (n := L.leafSpanSize - n) (by omega)
    have hmd' : md = remote.metadata := hmd.elim id id
    rw [hs, hmd', firstView, mask_mask, window_union home hn hW, mask_univ]
  · obtain rfl : n = L.leafSpanSize := by omega
    rw [window_all] at hW
    rw [firstView, Finset.univ_subset_iff.1 hW, mask_univ]

/-- **The insert proper**: the assertion on empty slots holds, as do those of `update_vacancy`. -/
theorem insertIntoLeaf_spec {remote : LeafNode L} {lock : Valock L} (hi : LeafInv remote lock) {k : Nat}
    (hr : lock.InRange (L.getHashedLeafEntryIndex k).val) (v : Nat) (hk : k ≠ 0) (hle : ∃ s, k ≤ remote.records.keys s)
    {W : Finset (Fin L.leafSpanSize)}
    (hW : window (L.getHashedLeafEntryIndex k) (insertReadNum lock (L.getHashedLeafEntryIndex k).val) ⊆ W)
    (newAddr : GlobalAddress) :
    InsertResult remote lock W k v (insertReadNum lock (L.getHashedLeafEntryIndex k).val) newAddr
      (insertIntoLeaf remote (firstView remote W) lock k v (L.getHashedLeafEntryIndex k)
        (insertReadNum lock (L.getHashedLeafEntryIndex k).val) newAddr) := by
  obtain ⟨h0, hn, -, -⟩ := insertReadNum_spec lock (L.getHashedLeafEntryIndex k) hr
  have hempty := hasEmpty_of_reads hi.tells hr
  have hrest := readRest_eq remote (L.getHashedLeafEntryIndex k) hn hW
  set home := L.getHashedLeafEntryIndex k with hhome
  set n := insertReadNum lock home.val with hndef
  have hmem : ∀ i : Int, home.val ≤ i → i < home.val + n → slot _ i ∈ W :=
    fun i h1 h2 => hW (slot_mem_window hn h1 h2)
  have hassert : n = L.leafSpanSize ∨ ((List.range n).any fun i =>
      decide (((firstView remote W).records.getEntry (home.val + i : Nat)).key = kkeyNull)) = true := by
    refine hempty.imp_right fun ⟨i, hin, hi0⟩ => ?_
    refine List.any_eq_true.2 ⟨i, List.mem_range.2 hin, decide_eq_true ?_⟩
    rw [firstView, getEntry_mask (hmem _ (by omega) (by omega))]
    exact hi0
  simp only [insertIntoLeaf, Checked.assert_of hassert, Checked.ok_bind, Checked.pure_eq_ok]
  cases hfind : (List.finRange L.leafSpanSize).find? fun i => decide (((firstView remote W).records i).key = k) with
  | some i =>
    have hkey : ((firstView remote W).records i).key = k := by
      simpa only [decide_eq_true_eq] using List.find?_some hfind
    have hiW : i ∈ W := by
      by_contra hiW
      rw [show (firstView remote W).records i = LeafNode.zeroed.records i from mask_of_not_mem hiW] at hkey
      exact hk hkey.symm
    have hview : (firstView remote W).records i = remote.records i := mask_of_mem hiW
    rw [hview] at hkey
    obtain ⟨hw, hl⟩ := entryWrite_spec remote lock (k := k) (v := v) hview
    exact .update i _ hiW hkey hw hl
  | none =>
    have hnot : ∀ i ∈ W, remote.records.keys i ≠ k := by
      intro i hiW hki
      have := List.find?_eq_none.1 hfind i (List.mem_finRange i)
      rw [show (firstView remote W).records i = remote.records i from mask_of_mem hiW] at this
      exact this (decide_eq_true hki)
    have hhop : hopscotchInsertAndUnlock (firstView remote W).records k v n =
        (hopscotchInsertAndUnlock remote.records k v n).map
          (Option.map fun y => (mask W LeafNode.zeroed.records y.1, y.2)) := hopscotchInsertAndUnlock_mask hmem
    rcases insertion_spec hi.placed v hk n with ⟨e, hs, r', hins, he⟩ | ⟨hst, he⟩
    · have h2 := (firstEmpty_some hins.firstEmpty).2.1
      obtain ⟨w, hw, happ, htells⟩ := segmentWrite_spec (b := LeafNode.zeroed.records) remote hins hk hle
        (fun i h3 h4 => hmem i h3 (by omega)) hi.tells
      rw [← hhome] at hw
      rw [hhop, he]
      simp only [Except.map, Option.map, Checked.ok_bind, hw]
      exact .insert e hs r' w hnot hins happ htells
    · have hall : Stuck remote.records k L.leafSpanSize := by
        refine hst.all (hempty.imp_right fun ⟨i, hin, hi0⟩ => ?_)
        cases hfe : remote.records.firstEmpty (L.getHashedLeafEntryIndex k).val n with
        | some e => exact ⟨e, rfl⟩
        | none => exact absurd hi0 (firstEmpty_none hfe _ (by omega) (by omega))
      rw [hhop, he]
      simp only [Except.map, Option.map, Checked.ok_bind]
      have hsplit : ∀ y, y = hopscotchSplitAndUnlock remote k v lock newAddr →
          InsertResult remote lock W k v n newAddr (y >>= fun x => .ok (.split x)) := ?_
      · split_ifs with hlt
        · rw [hrest.1 hlt]
          exact hsplit _ rfl
        · rw [hrest.2 hlt]
          exact hsplit _ rfl
      rintro y rfl
      rcases splitAndUnlock_spec _ hi.placed v hk hall lock newAddr with ⟨x, hx, hsp⟩ | ⟨hd, hx⟩
      · rw [hx]
        exact .split x hnot hall hsp
      · rcases hx with hx | hx
        · rw [hx]
          exact .stuck _ hnot hall hd (.inl rfl)
        · rw [hx]
          exact .stuck _ hnot hall hd (.inr rfl)

/-! ## The whole operation -/

/-- The first read. -/
theorem insertRead_eq (remote : LeafNode L) {lock : Valock L} {home : Fin L.leafSpanSize}
    (hr : lock.InRange home.val) : insertRead remote home (insertReadNum lock home.val) =
      .ok (firstView remote (window home (insertReadNum lock home.val))) := by
  obtain ⟨h0, hn, -, hmd⟩ := insertReadNum_spec lock home hr
  unfold insertRead
  split_ifs with h
  · obtain ⟨md, hs, hmd', -⟩ := hopscotchSearch_eq remote LeafNode.zeroed home hn
    rw [hs, hmd' hmd]
    rfl
  · have he : insertReadNum lock home.val = L.leafSpanSize := by omega
    rw [he, window_all, firstView, mask_univ]

/-- The slots that an insert with a first read of `n` slots has read when it looks for the key. -/
def readSlots (remote : LeafNode L) (lock : Valock L) (siblingAddr : GlobalAddress) (k n : Nat) :
    Finset (Fin L.leafSpanSize) :=
  let W := window (L.getHashedLeafEntryIndex k) n
  if siblingAddr ≠ remote.siblingPtr ∧ remote.isRoot = false ∧ ¬∃ s ∈ W, k ≤ (remote.records s).key
  then insert (slot _ lock.getMaxKeyIdx) W else W

omit [Arithmetic] in
theorem window_subset_readSlots (remote : LeafNode L) (lock : Valock L) (siblingAddr : GlobalAddress) (k n : Nat) :
    window (L.getHashedLeafEntryIndex k) n ⊆ readSlots remote lock siblingAddr k n := by
  simp only [readSlots]
  split
  · exact Finset.subset_insert _ _
  · exact Finset.Subset.refl _

/-- The key lies right of the leaf: not below the highest fence for a root, above all keys for another leaf. -/
def RightOf (remote : LeafNode L) (k : Nat) : Prop :=
  if remote.isRoot then L.keyFull ≤ k else ∀ s, (remote.records s).key < k

instance (remote : LeafNode L) (k : Nat) : Decidable (RightOf remote k) :=
  inferInstanceAs (Decidable (if remote.isRoot = true then L.keyFull ≤ k else ∀ s, (remote.records s).key < k))

/-- **The insert with a given first read**: it gives up on a stale cache entry, turns right from a leaf that the key
lies right of, and inserts otherwise. -/
theorem leafNodeInsertReading_eq {remote : LeafNode L} {lock : Valock L} (ht : LockTells lock remote.records)
    (hbound : ∀ s, remote.records.keys s < L.keyFull) {k n : Nat} (v : Nat) (h0 : 0 < n) (hn : n ≤ L.leafSpanSize)
    (hread : insertRead remote (L.getHashedLeafEntryIndex k) n =
      .ok (firstView remote (window (L.getHashedLeafEntryIndex k) n)))
    (siblingAddr newAddr : GlobalAddress) (fromCache : Bool) :
    leafNodeInsertReading remote lock siblingAddr k v fromCache newAddr n =
      if ¬remote.metadata.valid = true ∨ (fromCache = true ∧ siblingAddr ≠ remote.siblingPtr) then .ok .invalid
      else if siblingAddr ≠ remote.siblingPtr ∧ RightOf remote k then
        if remote.metadata.siblingPtr ≠ .null then .ok (.turnRight remote.metadata.siblingPtr) else .error .siblingNull
      else insertIntoLeaf remote (firstView remote (readSlots remote lock siblingAddr k n)) lock k v
        (L.getHashedLeafEntryIndex k) n newAddr := by
  obtain ⟨m, hm, -, hmax⟩ := ht.maxKeyIdx
  have hmk : (remote.records.getEntry lock.getMaxKeyIdx).key = remote.records.keys m := by
    rw [getEntry_key, hm, Cyclic.slot_coe]
  have hroot : ∀ W, (firstView remote W).metadata = remote.metadata := fun _ => rfl
  have hsib : ∀ W, (firstView remote W).siblingPtr = remote.siblingPtr := fun _ => rfl
  simp only [leafNodeInsertReading, hread, Checked.ok_bind, hroot, hsib, insertSplitKey_eq ht h0 hn, hmk]
  split
  · rfl
  by_cases hs : siblingAddr ≠ remote.siblingPtr
  swap
  · simp only [hs, false_and, if_false, readSlots]
  simp only [hs, true_and, if_true, readSlots, RightOf, ne_eq, not_false_eq_true]
  have hturn : ∀ W,
    (Checked.assert Assertion.siblingNull (¬(firstView remote W).metadata.siblingPtr = .null) >>= fun _ =>
      pure (LeafInsert.turnRight (firstView remote W).metadata.siblingPtr : LeafInsert L)) =
      if ¬remote.metadata.siblingPtr =
        .null then .ok (.turnRight remote.metadata.siblingPtr) else .error .siblingNull := by
    intro W
    by_cases hnull : remote.metadata.siblingPtr = .null
    · simp only [hroot, hnull, not_true, if_false]
      rfl
    · simp only [hroot, hnull, not_false_eq_true, if_true, Checked.assert_of, Checked.ok_bind, Checked.pure_eq_ok]
  cases hr : remote.isRoot with
  | true =>
    simp only [if_true, reduceCtorEq, false_and, if_false]
    split
    · exact hturn _
    · rfl
  | false =>
    simp only [Bool.false_eq_true, if_false, true_and]
    by_cases hex : ∃ s ∈ window (L.getHashedLeafEntryIndex k) n, k ≤ remote.records.keys s
    · obtain ⟨s, hsW, hks⟩ := hex
      have hno : ¬∀ s, (remote.records s).key < k := fun h => absurd (h s) (Nat.not_lt.2 hks)
      have hex : ∃ s ∈ window (L.getHashedLeafEntryIndex k) n, k ≤ remote.records.keys s := ⟨s, hsW, hks⟩
      have hex' : ¬¬∃ s ∈ window (L.getHashedLeafEntryIndex k) n, k ≤ (remote.records s).key := not_not.2 hex
      rw [if_neg hno, if_neg hex']
      simp only [if_pos hex]
      rw [if_neg (by rw [L.keySucc_of_lt (hks.trans_lt (hbound s))]; omega)]
    · have hex' : ¬∃ s ∈ window (L.getHashedLeafEntryIndex k) n, k ≤ (remote.records s).key := hex
      simp only [if_neg hex, hex', not_false_eq_true, if_true]
      rw [L.keySucc_of_lt (hbound m)]
      by_cases hall : ∀ s, (remote.records s).key < k
      · rw [if_pos (show k ≥ remote.records.keys m + 1 from hall m), if_pos hall]
        exact hturn _
      · rw [if_neg hall, if_neg]
        intro hge
        refine hall fun s => ?_
        have : (remote.records s).key ≤ remote.records.keys m := hmax s
        omega

/-- **`leaf_node_insert`**: it gives up on a stale cache entry, turns right from a leaf whose keys are all smaller, and
inserts otherwise. -/
theorem leafNodeInsert_eq {remote : LeafNode L} {lock : Valock L} (hi : LeafInv remote lock) {k : Nat}
    (hr : lock.InRange (L.getHashedLeafEntryIndex k).val) (v : Nat) (hk : k < L.keyFull)
    (siblingAddr newAddr : GlobalAddress) (fromCache : Bool) :
    leafNodeInsert remote lock siblingAddr k v fromCache newAddr =
      if fromCache = true ∧ siblingAddr ≠ remote.siblingPtr then .ok .invalid
      else if siblingAddr ≠ remote.siblingPtr ∧ remote.isRoot = false ∧ ∀ s, remote.records.keys s < k then
        if remote.metadata.siblingPtr ≠ .null then .ok (.turnRight remote.metadata.siblingPtr) else .error .siblingNull
      else insertIntoLeaf remote (firstView remote (insertReads remote lock siblingAddr k)) lock k v
        (L.getHashedLeafEntryIndex k) (insertReadNum lock (L.getHashedLeafEntryIndex k).val) newAddr := by
  obtain ⟨h0, hn, -, -⟩ := insertReadNum_spec lock (L.getHashedLeafEntryIndex k) hr
  have hghost : L.ghostKey < L.keyFull := by
    have := L.keySpace_ge
    simp only [Layout.ghostKey, Layout.keyFull]
    omega
  have hright : RightOf remote k ↔ remote.isRoot = false ∧ ∀ s, remote.records.keys s < k := by
    unfold RightOf
    cases remote.isRoot with
    | true => simp only [if_true, reduceCtorEq, false_and, iff_false]; omega
    | false => simp only [Bool.false_eq_true, if_false, true_and]; exact Iff.rfl
  rw [leafNodeInsert, leafNodeInsertReading_eq hi.tells (fun s => (hi.bound s).trans_lt hghost) v h0 hn
    (insertRead_eq remote hr)]
  simp only [hi.valid, not_true, false_or, hright]
  rfl

end Chime

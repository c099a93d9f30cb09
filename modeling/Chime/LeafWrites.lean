import Chime.Split
import Chime.View

/-!
# The writes of a leaf and its lock word

`LockTells w r`: `max_key_idx` names a slot with the largest key, and every bucket whose bit is clear has an empty slot.
A hop insertion of a key not above the largest one keeps this (`segmentWrite_spec`), an update of an entry does
(`entryWrite_spec`), and a split establishes it for both halves (`splitAndUnlock_spec`).
-/

namespace Chime

open Cyclic (slot gap)
open HopChain (Chain)
open Records

variable {L : Layout}

/-! ## The largest element of a list -/

/-- A fold that keeps the first largest element. -/
theorem foldMax_spec {α β : Type} (f : α → Nat) (g : α → β) (xs : List α) (m : Nat) (b : β) :
    m ≤ (xs.foldl (fun (acc : Nat × β) x => if f x > acc.1 then (f x, g x) else acc) (m, b)).1 ∧
    (∀ x ∈ xs, f x ≤ (xs.foldl (fun (acc : Nat × β) x => if f x > acc.1 then (f x, g x) else acc) (m, b)).1) ∧
    (xs.foldl (fun (acc : Nat × β) x => if f x > acc.1 then (f x, g x) else acc) (m, b) = (m, b) ∨
      ∃ x ∈ xs, xs.foldl (fun (acc : Nat × β) x => if f x > acc.1 then (f x, g x) else acc) (m, b) = (f x, g x)) := by
  induction xs generalizing m b with
  | nil => simp
  | cons x xs ih =>
    rw [List.foldl_cons]
    by_cases hx : f x > m
    · simp only [if_pos hx]
      obtain ⟨h1, h2, h3⟩ := ih (f x) (g x)
      refine ⟨by omega, fun y hy => ?_, .inr ?_⟩
      · rcases List.mem_cons.1 hy with rfl | hy
        · exact h1
        · exact h2 y hy
      · rcases h3 with h3 | ⟨y, hy, h3⟩
        · exact ⟨x, List.mem_cons_self, h3⟩
        · exact ⟨y, List.mem_cons_of_mem _ hy, h3⟩
    · simp only [if_neg hx]
      obtain ⟨h1, h2, h3⟩ := ih m b
      refine ⟨h1, fun y hy => ?_, ?_⟩
      · rcases List.mem_cons.1 hy with rfl | hy
        · omega
        · exact h2 y hy
      · rcases h3 with h3 | ⟨y, hy, h3⟩
        · exact .inl h3
        · exact .inr ⟨y, List.mem_cons_of_mem _ hy, h3⟩

/-- The slot `s` holds a largest key. -/
def IsMax (r : Records L) (s : Fin L.leafSpanSize) : Prop := r.keys s ≠ 0 ∧ ∀ t, r.keys t ≤ r.keys s

/-- `get_max_key_idx` finds a largest key of a leaf that is not empty. -/
theorem isMax_getMaxKeyIdx {r : Records L} (h : ∃ s, r.keys s ≠ 0) : IsMax r r.getMaxKeyIdx := by
  obtain ⟨s, hs⟩ := h
  obtain ⟨-, h2, h3⟩ := foldMax_spec (fun i => (r i).key) id (List.finRange L.leafSpanSize) kkeyNull 0
  have hpos := h2 s (List.mem_finRange s)
  rcases h3 with h3 | ⟨x, -, h3⟩
  · rw [h3] at hpos
    exact absurd (Nat.le_zero.1 hpos) hs
  · have hx : r.getMaxKeyIdx = x := congrArg Prod.snd h3
    rw [h3] at h2 hpos
    refine ⟨fun h0 => hs ?_, fun t => hx ▸ h2 t (List.mem_finRange t)⟩
    rw [hx] at h0
    exact Nat.le_zero.1 (h0 ▸ hpos)

/-! ## Segments -/

theorem gap_of_window {home : Fin L.leafSpanSize} {i : Int} (h1 : (home.val : Int) ≤ i)
    (h2 : i < home.val + L.leafSpanSize) : gap home (slot _ i) = (i - home.val).toNat := by
  have := Cyclic.gap_eq_of_slot (i := (home.val : Int)) (d := (i - home.val).toNat) (t := slot L.leafSpanSize i)
    (by omega)
    (congrArg _ (by omega))
  rwa [Cyclic.slot_coe] at this

/-- The slots of a segment by their distance from its start. -/
theorem inSegment_iff (l r s : Fin L.leafSpanSize) : inSegment l r s = true ↔ gap l s ≤ gap l r := by
  have hl := l.isLt
  have hr := r.isLt
  have hs := s.isLt
  rw [Cyclic.gap_eq_ite, Cyclic.gap_eq_ite]
  simp only [inSegment, Fin.le_def]
  split_ifs <;> simp only [decide_eq_true_eq] <;> omega

theorem mem_segment {home s : Fin L.leafSpanSize} {e : Int} (h1 : (home.val : Int) ≤ e)
    (h2 : e < home.val + L.leafSpanSize) :
    inSegment home (slot _ e) s = true ↔ ∃ i : Int, home.val ≤ i ∧ i ≤ e ∧ s = slot _ i := by
  rw [inSegment_iff, gap_of_window h1 h2]
  constructor
  · intro h
    exact ⟨home.val + gap home s, by omega, by omega, (Cyclic.slot_add_gap home s).symm⟩
  · rintro ⟨i, h3, h4, rfl⟩
    rw [gap_of_window h3 (by omega)]
    omega

/-- `get_empty_idxes` finds nothing where all slots hold items. -/
theorem getEmptyIdxes_eq_nil {rs : Records L} {l r : Nat}
    (h : ∀ i, l ≤ i → i < r → (rs.getEntry (i : Nat)).key ≠ 0) : getEmptyIdxes rs l r = [] := by
  refine List.filter_eq_nil_iff.2 fun i hi => ?_
  obtain ⟨h1, h2⟩ := List.mem_range'_1.1 hi
  exact fun hk => h i h1 (by omega) (of_decide_eq_true hk)

theorem mem_getEmptyIdxes {rs : Records L} {i : Nat} :
    i ∈ getEmptyIdxes rs 0 L.leafSpanSize ↔ ∃ s : Fin L.leafSpanSize, s.val = i ∧ rs.keys s = 0 := by
  rw [getEmptyIdxes, List.mem_filter, List.mem_range'_1, decide_eq_true_eq]
  constructor
  · rintro ⟨⟨-, h⟩, hk⟩
    refine ⟨⟨i, by omega⟩, rfl, ?_⟩
    rw [getEntry] at hk
    rwa [← Cyclic.slot_coe (⟨i, by omega⟩ : Fin L.leafSpanSize)]
  · rintro ⟨s, rfl, hs⟩
    refine ⟨⟨Nat.zero_le _, by have := s.isLt; omega⟩, ?_⟩
    rw [getEntry, Cyclic.slot_coe]
    exact hs

/-! ## The lock word tells the truth -/

theorem getMaxKeyIdx_ofNat (s : Fin L.leafSpanSize) : (BitVec.ofNat L.maxKeyIdxBit s.val).toNat = s.val := by
  rw [BitVec.toNat_ofNat]
  exact Nat.mod_eq_of_lt (Nat.lt_of_lt_of_le s.isLt L.leafSpanSize_le_maxKeyIdx)

@[simp] theorem getMaxKeyIdx_update (w : Valock L) (s : Fin L.leafSpanSize) :
    (w.updateMaxKeyIdx s.val).getMaxKeyIdx = s.val := getMaxKeyIdx_ofNat s

variable [Arithmetic]

/-- The lock word of a leaf: a slot with the largest key, and only clear bits for buckets with an empty slot. -/
structure LockTells (w : Valock L) (r : Records L) : Prop where
  maxKeyIdx : ∃ s : Fin L.leafSpanSize, w.getMaxKeyIdx = s.val ∧ IsMax r s
  vacancy : ∀ b < L.vacancyMapBit, w.vacancyBitmap.getLsbD b = false →
    ∃ s : Fin L.leafSpanSize, Valock.bucketOf L s.val = b ∧ r.keys s = 0

/-- The lock word says as much about a leaf with the same keys. -/
theorem LockTells.congr {w : Valock L} {r r' : Records L} (h : LockTells w r) (hk : r'.keys = r.keys) :
    LockTells w r' := by
  obtain ⟨⟨s, hs, hm⟩, hv⟩ := h
  exact ⟨⟨s, hs, by rw [IsMax, hk]; exact hm⟩, by rw [hk]; exact hv⟩

/-! ## The write of a hop insertion -/

section Segment

variable {r r' : Records L} {k v n : Nat} {e : Int} {hs : List Int} {lock : Valock L} {W : Finset (Fin L.leafSpanSize)}
  {b : Records L}

/-- The largest key after a hop insertion of a key not above it. -/
theorem isMax_hopped (h : InsertedAt r k v n e hs r') (hle : ∃ s, k ≤ r.keys s)
    (hW : ∀ s ∈ slot L.leafSpanSize e :: hs.map (slot _), s ∈ W) (ht : LockTells lock r) :
    (∃ s : Fin L.leafSpanSize, (hoppedMaxKeyIdx (mask W b r') ((e :: hs).map (slot _)) lock).getMaxKeyIdx = s.val ∧
      IsMax r' s) ∧
    (hoppedMaxKeyIdx (mask W b r') ((e :: hs).map (slot _)) lock).vacancyBitmap = lock.vacancyBitmap := by
  obtain ⟨m, hm, hm0, hmax⟩ := ht.maxKeyIdx
  have hkm : k ≤ r.keys m := by
    obtain ⟨s, hs⟩ := hle
    exact hs.trans (hmax s)
  have he0 : r.keys (slot _ e) = 0 := (firstEmpty_some h.firstEmpty).2.2.1
  have hval : lock.getMaxKeyIdx ∈ ((e :: hs).map (slot L.leafSpanSize)).map (·.val) ↔
      m ∈ (e :: hs).map (slot L.leafSpanSize) := by
    rw [hm, List.mem_map]
    constructor
    · rintro ⟨s, hs, hv⟩
      exact Fin.ext hv ▸ hs
    · exact fun hmem => ⟨m, hmem, rfl⟩
  -- every key is bounded by the old largest key
  have hbound : ∀ t, r'.keys t ≤ r.keys m := by
    intro t
    by_cases ht : t ∈ slot L.leafSpanSize e :: hs.map (slot _)
    · rcases h.items_on ht with he | ⟨u, -, he⟩
      · exact (show r'.keys t = k from congrArg Prod.fst he) ▸ hkm
      · rw [keys_of_items he]
        exact hmax u
    · rw [keys_of_items (h.items_off ht)]
      exact hmax t
  unfold hoppedMaxKeyIdx
  by_cases hmem : m ∈ (e :: hs).map (slot L.leafSpanSize)
  · rw [if_pos (hval.2 hmem)]
    have hmem' : m ∈ hs.map (slot L.leafSpanSize) :=
      (List.mem_cons.1 hmem).resolve_left fun heq => hm0 (heq ▸ he0)
    obtain ⟨p, hp, hpe⟩ := h.items_moved hmem'
    have hpk := keys_of_items hpe
    obtain ⟨-, h2, h3⟩ := foldMax_spec (fun i => (mask W b r' i).key) (fun i : Fin L.leafSpanSize => i.val)
      ((e :: hs).map (slot _)) kkeyNull lock.getMaxKeyIdx
    have hvis : ∀ i ∈ (e :: hs).map (slot L.leafSpanSize), (mask W b r' i).key = r'.keys i :=
      fun i hi => by rw [mask_of_mem (hW i hi)]; rfl
    have hpos := h2 p hp
    rw [hvis p hp, hpk] at hpos
    rcases h3 with h3 | ⟨x, hx, h3⟩
    · rw [h3] at hpos
      exact absurd (Nat.le_zero.1 hpos) hm0
    · rw [h3, hvis x hx] at hpos
      simp only [h3]
      exact ⟨⟨x, getMaxKeyIdx_update _ x, fun h0 => hm0 (Nat.le_zero.1 (h0 ▸ hpos)), fun t => (hbound t).trans hpos⟩, rfl⟩
  · rw [if_neg (mt hval.1 hmem)]
    have hmk := keys_of_items (h.items_off hmem)
    exact ⟨⟨m, hm, hmk ▸ hm0, fun t => hmk ▸ hbound t⟩, rfl⟩

omit [Arithmetic] in
/-- No slot of the segment of a hop insertion is empty any more. -/
theorem segment_full {remote : LeafNode L} (h : InsertedAt remote.records k v n e hs r') (hk : k ≠ 0)
    (hW : ∀ i : Int, (L.getHashedLeafEntryIndex k).val ≤ i → i ≤ e → slot _ i ∈ W) :
    (if L.getHashedLeafEntryIndex k ≤ slot _ e
      then getEmptyIdxes (mask W b r') (L.getHashedLeafEntryIndex k).val ((slot L.leafSpanSize e).val + 1)
      else getEmptyIdxes (mask W b r') 0 ((slot L.leafSpanSize e).val + 1) ++
        getEmptyIdxes (mask W b r') (L.getHashedLeafEntryIndex k).val L.leafSpanSize) = [] := by
  obtain ⟨h1, -, h3, h4⟩ := firstEmpty_some h.firstEmpty
  have h2 := firstEmpty_lt h.firstEmpty
  set home := L.getHashedLeafEntryIndex k with hhome
  have hfull : ∀ s, inSegment home (slot _ e) s = true → (mask W b r' s).key ≠ 0 := by
    intro s hs h0
    obtain ⟨i, h5, h6, rfl⟩ := (mem_segment h1 h2).1 hs
    rw [mask_of_mem (hW i h5 h6)] at h0
    obtain ⟨h7, h8⟩ := (h.keys_eq_zero hk).1 h0
    by_cases hie : i = e
    · exact h8 (by rw [hie])
    · exact h4 i h5 (by omega) h7
  have hseg : ∀ (i : Nat) (hi : i < L.leafSpanSize), inSegment home (slot _ e) ⟨i, hi⟩ = true →
      ((mask W b r').getEntry (i : Nat)).key ≠ 0 := by
    intro i hi hs
    have hsl : slot L.leafSpanSize (i : Int) = ⟨i, hi⟩ := Cyclic.slot_coe ⟨i, hi⟩
    rw [getEntry, hsl]
    exact hfull _ hs
  have hel := (slot L.leafSpanSize e).isLt
  split_ifs with hc
  · refine getEmptyIdxes_eq_nil fun i h5 h6 => hseg i (by omega) ?_
    rw [inSegment, if_pos hc]
    exact decide_eq_true ⟨Fin.le_def.2 h5, Fin.le_def.2 (by simp only; omega)⟩
  · rw [getEmptyIdxes_eq_nil fun i h5 h6 => hseg i (by omega) ?_, getEmptyIdxes_eq_nil fun i h5 h6 => hseg i h6 ?_]
    · rfl
    · rw [inSegment, if_neg hc]
      exact decide_eq_true (.inr (Fin.le_def.2 h5))
    · rw [inSegment, if_neg hc]
      exact decide_eq_true (.inl (Fin.le_def.2 (by simp only; omega)))

/-- **The write of a hop insertion**: it puts the new table into the leaf, passes the assertions of `update_vacancy`,
and the lock word tells the truth about the new table. -/
theorem segmentWrite_spec (remote : LeafNode L) (h : InsertedAt remote.records k v n e hs r') (hk : k ≠ 0)
    (hle : ∃ s, k ≤ remote.records.keys s)
    (hW : ∀ i : Int, (L.getHashedLeafEntryIndex k).val ≤ i → i ≤ e → slot _ i ∈ W)
    (ht : LockTells lock remote.records) :
    ∃ w, segmentWriteAndUnlock (mask W b r') (L.getHashedLeafEntryIndex k) (slot _ e) ((e :: hs).map (slot _)) lock =
      .ok w ∧
      w.apply remote = { remote with records := r' } ∧ LockTells w.lock r' := by
  have h1 := (firstEmpty_some h.firstEmpty).1
  have h2 := firstEmpty_lt h.firstEmpty
  have hnil := segment_full (b := b) h hk hW
  set home := L.getHashedLeafEntryIndex k with hhome
  have hWpath : ∀ s ∈ slot L.leafSpanSize e :: hs.map (slot _), s ∈ W := by
    intro s hs
    obtain ⟨i, h5, h6, rfl⟩ := h.mem_path hs
    exact hW i h5 h6
  obtain ⟨hmax, hvac⟩ := isMax_hopped (b := b) h hle hWpath ht
  obtain ⟨w', hw', hidx, hbits⟩ := (hoppedMaxKeyIdx (mask W b r') ((e :: hs).map (slot _)) lock).updateVacancy_spec
    home.val (slot L.leafSpanSize e).val [] (by simp)
  refine ⟨⟨home, slot _ e, mask W b r', w'⟩, ?_, ?_, ?_, ?_⟩
  · simp only [segmentWriteAndUnlock]
    rw [hnil, hw']
    rfl
  · simp only [LeafWrite.apply]
    congr 1
    funext s
    by_cases hs : inSegment home (slot _ e) s = true
    · obtain ⟨i, h5, h6, rfl⟩ := (mem_segment h1 h2).1 hs
      rw [if_pos hs, mask_of_mem (hW i h5 h6)]
    · rw [if_neg hs]
      exact (h.off fun i h5 h6 he => hs ((mem_segment h1 h2).2 ⟨i, h5, h6, he⟩)).symm
  · obtain ⟨s, hs, hm⟩ := hmax
    exact ⟨s, by rw [hidx]; exact hs, hm⟩
  · intro c hc hbit
    rcases (hbits c hc).1 hbit with ⟨x, hx, -⟩ | ⟨hcov, hold⟩
    · simp at hx
    · rw [hvac] at hold
      obtain ⟨s, hs, hs0⟩ := ht.vacancy c hc hold
      refine ⟨s, hs, (h.keys_eq_zero hk).2 ⟨hs0, ?_⟩⟩
      -- the bucket of the filled slot is covered
      rintro rfl
      refine hcov ?_
      rw [Valock.Covered, hs]
      split_ifs with hle
      · exact ⟨hle, le_rfl⟩
      · exact .inl le_rfl

end Segment

/-! ## The write of an update -/

omit [Arithmetic] in
/-- An update of a stored key writes the value into its slot. -/
theorem entryWrite_spec (remote : LeafNode L) (lock : Valock L) {k v : Nat} {view : Records L} {i : Fin L.leafSpanSize}
    (hi : view i = remote.records i) :
    (entryWriteAndUnlock view i k v lock).apply remote = { remote with records := remote.records.update i.val k v } ∧
    (entryWriteAndUnlock view i k v lock).lock = lock := by
  refine ⟨?_, rfl⟩
  simp only [entryWriteAndUnlock, LeafWrite.apply]
  congr 1
  funext s
  have hseg : inSegment i i s = true ↔ s = i := by
    rw [inSegment, if_pos le_rfl, decide_eq_true_eq]
    exact ⟨fun h => le_antisymm h.2 h.1, fun h => h ▸ ⟨le_rfl, le_rfl⟩⟩
  simp only [hseg, update, getEntry, Cyclic.slot_coe, hi]
  by_cases hs : s = i
  · rw [if_pos hs, hs, Function.update_self, Function.update_self]
  · rw [if_neg hs, Function.update_of_ne hs]

/-! ## The writes of a split -/

/-- The whole leaf covers every bucket. -/
theorem covered_all {c : Nat} (hc : c < L.vacancyMapBit) :
    Valock.Covered (Valock.bucketOf L 0) (Valock.bucketOf L (L.leafSpanSize - 1)) c := by
  rw [Valock.Covered, Valock.bucketOf_zero, Valock.bucketOf_last, if_pos (Nat.zero_le _)]
  omega

/-- `update_vacancy_bitmap` of a split: exactly the buckets with an empty slot have clear bits. -/
theorem updateVacancyBitmap_spec {rs : Records L} (lock : Valock L) {m : Fin L.leafSpanSize}
    (hm : lock.getMaxKeyIdx = m.val) (hmax : IsMax rs m) :
    ∃ w, updateVacancyBitmap rs lock = .ok w ∧ LockTells w rs := by
  obtain ⟨w, hw, hidx, hbits⟩ := lock.updateVacancy_spec 0 (L.leafSpanSize - 1)
    (getEmptyIdxes rs 0 L.leafSpanSize) fun x _ => covered_all (Valock.bucketOf_lt x)
  refine ⟨w, hw, ⟨m, hidx.trans hm, hmax⟩, fun c hc hbit => ?_⟩
  rcases (hbits c hc).1 hbit with ⟨x, hx, hxc⟩ | ⟨hno, -⟩
  · obtain ⟨s, rfl, hs⟩ := mem_getEmptyIdxes.1 hx
    exact ⟨s, hxc, hs⟩
  · exact absurd (covered_all hc) hno

/-- What a split makes of a leaf. -/
structure SplitOf (leaf : LeafNode L) (k v : Nat) (siblingAddr : GlobalAddress) (x : LeafSplit L) : Prop where
  /-- the items are separated at a key, and the new item goes to its side -/
  halves : ∃ m l s, Halves leaf.records m l s ∧
    (k < m ∧ (∃ e hs, InsertedAt l k v L.leafSpanSize e hs x.left.records) ∧ x.right.records = s ∨
      m ≤ k ∧ x.left.records = l ∧ ∃ e hs, InsertedAt s k v L.leafSpanSize e hs x.right.records)
  isRoot : x.isRoot = leaf.isRoot
  left_metadata : x.left.metadata = ⟨true, siblingAddr⟩
  right_metadata : x.right.metadata = ⟨true, leaf.siblingPtr⟩
  /-- the separator is the successor of the left leaf's largest key -/
  splitKey : ∃ s, IsMax x.left.records s ∧ x.splitKey = L.keySucc (x.left.records.keys s)
  left_tells : LockTells x.leftLock x.left.records
  right_tells : LockTells x.rightLock x.right.records

omit [Arithmetic] in
theorem firstEmpty_congr {r t : Records L} (h : t.keys = r.keys) (base : Int) (n : Nat) :
    t.firstEmpty base n = r.firstEmpty base n := by
  unfold Records.firstEmpty
  congr 1
  funext i
  rw [getEntry_key, getEntry_key, h]

omit [Arithmetic] in
theorem Stuck.congr {r t : Records L} {k n : Nat} (h : Stuck r k n) (hk : t.keys = r.keys) : Stuck t k n := by
  intro e he hs
  rw [firstEmpty_congr hk] at he
  rw [hk]
  exact h e he hs

omit [Arithmetic] in
theorem Records.InsertedAt.exists_ne {r r' : Records L} {k v n : Nat} {e : Int} {hs : List Int}
    (h : InsertedAt r k v n e hs r') (hk : k ≠ 0) : ∃ s, r'.keys s ≠ 0 := by
  obtain ⟨-, s, hs⟩ := (h.adds.hasKey hk).2 (.inr rfl)
  exact ⟨s, hs ▸ hk⟩

omit [Arithmetic] in
/-- Where everything moved, the key that did not fit does not fit the right half. -/
theorem Halves.stuck_right {r l s : Records L} {k m n : Nat} (h : Halves r m l s) (hst : Stuck r k n)
    (hl : ∀ i, l.keys i = 0) : Stuck s k n := by
  refine hst.congr (funext fun i => ?_)
  by_cases hm : Moves m (r.items i)
  · exact keys_of_items ((h.right i).trans (if_pos hm))
  · have h1 : l.keys i = r.keys i := keys_of_items ((h.left i).trans (if_neg hm))
    have h2 : s.keys i = 0 := congrArg Prod.fst ((h.right i).trans (if_neg hm))
    rw [h2, ← h1, hl i]

/-- The part of a split after the new item is in. -/
theorem splitWrites_spec {leaf : LeafNode L} {k v : Nat} (siblingAddr : GlobalAddress) (lock : Valock L)
    {rs ss : Records L} (hr : ∃ s, rs.keys s ≠ 0) (hs : ∃ s, ss.keys s ≠ 0)
    (hh : ∃ m l s, Halves leaf.records m l s ∧ (k < m ∧ (∃ e hs, InsertedAt l k v L.leafSpanSize e hs rs) ∧ ss = s ∨
      m ≤ k ∧ rs = l ∧ ∃ e hs, InsertedAt s k v L.leafSpanSize e hs ss)) :
    ∃ wl wr, updateVacancyBitmap rs (lock.updateMaxKeyIdx rs.getMaxKeyIdx.val) = .ok wl ∧
      updateVacancyBitmap ss (Valock.mk' 0 ss.getMaxKeyIdx.val) = .ok wr ∧
      SplitOf leaf k v siblingAddr ⟨leaf.isRoot, L.keySucc (rs rs.getMaxKeyIdx).key, ⟨⟨true, siblingAddr⟩, rs⟩, wl,
        ⟨⟨true, leaf.siblingPtr⟩, ss⟩, wr⟩ := by
  obtain ⟨wl, hwl, htl⟩ := updateVacancyBitmap_spec _ (getMaxKeyIdx_update lock rs.getMaxKeyIdx) (isMax_getMaxKeyIdx hr)
  obtain ⟨wr, hwr, htr⟩ := updateVacancyBitmap_spec (Valock.mk' 0 ss.getMaxKeyIdx.val) (getMaxKeyIdx_ofNat _)
    (isMax_getMaxKeyIdx hs)
  exact ⟨wl, wr, hwl, hwr, hh, rfl, rfl, rfl, ⟨_, isMax_getMaxKeyIdx hr, rfl⟩, htl, htr⟩

/-- **A split** of a leaf into which the key did not fit: it yields two leaves with true lock words, or it stops since
the key fits neither half, which distinct keys exclude. -/
theorem splitAndUnlock_spec (leaf : LeafNode L) (hp : leaf.records.IsPlaced) {k : Nat} (v : Nat) (hk : k ≠ 0)
    (hst : Stuck leaf.records k L.leafSpanSize) (lock : Valock L) (siblingAddr : GlobalAddress) :
    (∃ x, hopscotchSplitAndUnlock leaf k v lock siblingAddr = .ok x ∧ SplitOf leaf k v siblingAddr x) ∨
    ((¬leaf.records.Distinct ∨ leaf.records.HasKey k) ∧
      (hopscotchSplitAndUnlock leaf k v lock siblingAddr = .error .noEmpty ∨
        hopscotchSplitAndUnlock leaf k v lock siblingAddr = .error .hopFails)) := by
  obtain ⟨m, hm, hm0, hlt, hge⟩ := getSplitKey_spec hp hk hst
  obtain ⟨l, s, hmove, hh⟩ := moveData_spec hp m
  simp only [hopscotchSplitAndUnlock, hm, hmove, Checked.ok_bind, Checked.pure_eq_ok]
  by_cases hkm : k < m
  · simp only [if_pos hkm]
    have hroom := hh.room hlt fun h => absurd h (by omega)
    rw [if_pos hkm] at hroom
    rcases insertLocally_spec hh.left_placed v hk with ⟨e, hs, l', hins, he⟩ | ⟨hst', -⟩
    swap
    · exact absurd hst' hroom
    have hne : ∃ i, s.keys i ≠ 0 := by
      obtain ⟨i, hi, hmi⟩ := hlt hkm
      have hfull := hi.full _ hi.le le_rfl
      have hmv : Moves m (leaf.records.items (slot _ i)) := ⟨hfull, hmi⟩
      exact ⟨slot _ i, (keys_of_items ((hh.right _).trans (if_pos hmv))).symm ▸ hfull⟩
    obtain ⟨wl, wr, hwl, hwr, hx⟩ := splitWrites_spec siblingAddr lock (hins.exists_ne hk) hne
      ⟨m, l, s, hh, .inl ⟨hkm, ⟨e, hs, hins⟩, rfl⟩⟩
    refine .inl ⟨_, ?_, hx⟩
    simp only [he, Checked.ok_bind, hwl, hwr]
  · simp only [if_neg hkm]
    rcases insertLocally_spec hh.right_placed v hk with ⟨e, hs, s', hins, he⟩ | ⟨hst', he⟩
    · have hne : ∃ i, l.keys i ≠ 0 := by
        by_contra hno
        have hall : ∀ i, l.keys i = 0 := fun i => not_not.1 (not_exists.1 hno i)
        exact hh.stuck_right hst hall e hins.firstEmpty hs hins.chain
      obtain ⟨wl, wr, hwl, hwr, hx⟩ := splitWrites_spec siblingAddr lock hne (hins.exists_ne hk)
        ⟨m, l, s, hh, .inr ⟨by omega, rfl, e, hs, hins⟩⟩
      refine .inl ⟨_, ?_, hx⟩
      simp only [he, Checked.ok_bind, hwl, hwr]
    · refine .inr ⟨?_, ?_⟩
      · by_contra hno
        rw [not_or, not_not] at hno
        have hroom := hh.room (fun h => absurd h hkm) fun h => hge hno.1 hno.2 h
        rw [if_neg hkm] at hroom
        exact hroom hst'
      · rcases he with he | he
        · exact .inl (by rw [he]; rfl)
        · exact .inr (by rw [he]; rfl)

end Chime

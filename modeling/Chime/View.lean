import Chime.Insertion
import Chime.LeafOps
import Chime.LockWord
import Mathlib.Data.List.Find

/-!
# Partial views of a leaf

An insertion works on a view that shows only the slots it has read. `mask W b r` shows the slots of `W` as they are in
`r`, and what the buffer `b` held before elsewhere. The hop insertion commutes with a mask that shows the probed window
(`hopscotchInsertAndUnlock_mask`), so it does to the view what it would do to the leaf. The reads of a leaf produce
masked views (`hopscotchSearch_eq`, `leafEntryRead_eq`).
-/

namespace Chime

open Cyclic (slot gap)

variable {L : Layout}

/-- The view that shows the slots of `W`. -/
def mask (W : Finset (Fin L.leafSpanSize)) (b r : Records L) : Records L := fun s => if s ∈ W then r s else b s

namespace Records

variable {W : Finset (Fin L.leafSpanSize)} {b r r' : Records L} {base j h i : Int}

theorem mask_of_mem {s : Fin L.leafSpanSize} (h : s ∈ W) : mask W b r s = r s := if_pos h

theorem mask_of_not_mem {s : Fin L.leafSpanSize} (h : s ∉ W) : mask W b r s = b s := if_neg h

theorem getEntry_mask (h : slot _ i ∈ W) : (mask W b r).getEntry i = r.getEntry i := mask_of_mem h

/-! ## The primitive operations commute with a mask -/

theorem mask_update (h : slot _ i ∈ W) (e : LeafEntry L.neighborSize) :
    Function.update (mask W b r) (slot _ i) e = mask W b (Function.update r (slot _ i) e) := by
  funext s
  by_cases hs : s = slot _ i
  · rw [hs, Function.update_self, mask_of_mem h, Function.update_self]
  · rw [Function.update_of_ne hs]
    by_cases hW : s ∈ W
    · rw [mask_of_mem hW, mask_of_mem hW, Function.update_of_ne hs]
    · rw [mask_of_not_mem hW, mask_of_not_mem hW]

theorem update_mask (h : slot _ i ∈ W) (k v : Nat) : (mask W b r).update i k v = mask W b (r.update i k v) := by
  rw [update, getEntry_mask h, mask_update h, update]

theorem setHopBit_mask (h : slot _ i ∈ W) (idx : Int) :
    (mask W b r).setHopBit i idx = (r.setHopBit i idx).map (mask W b) := by
  rw [setHopBit, getEntry_mask h, setHopBit]
  cases (r.getEntry i).setHopBit idx with
  | error a => rfl
  | ok e => exact congrArg Except.ok (mask_update h e)

theorem unsetHopBit_mask (h : slot _ i ∈ W) (idx : Int) :
    (mask W b r).unsetHopBit i idx = (r.unsetHopBit i idx).map (mask W b) := by
  rw [unsetHopBit, getEntry_mask h, unsetHopBit]
  cases (r.getEntry i).unsetHopBit idx with
  | error a => rfl
  | ok e => exact congrArg Except.ok (mask_update h e)

/-! ## The hop loop commutes with a mask -/

/-- A victim's home reaches over the hole, and is not right of the victim. -/
theorem victimHome_bounds {x : Int} : ∀ {n : Nat}, r.victimHome j h n = .ok (some x) → j < x + L.neighborSize ∧ x ≤ h
  | 0, hx => by simp [victimHome] at hx
  | n + 1, hx => by
    rw [victimHome] at hx
    obtain ⟨_, ha, hx⟩ := Checked.bind_eq_ok.1 hx
    have hle := Checked.assert_eq_ok.1 ha
    split at hx
    · rename_i hc
      obtain rfl := Option.some.inj (Except.ok.inj hx)
      exact ⟨hc.1, hle⟩
    · exact victimHome_bounds hx

theorem victim_bounds {o : Nat} {x : Int} : ∀ {n : Nat}, r.victim j n = .ok (some (o, x)) →
    o < n ∧ j < x + L.neighborSize ∧ x ≤ j - (o + 1 : Nat)
  | 0, hx => by simp [victim] at hx
  | n + 1, hx => by
    rw [victim] at hx
    obtain ⟨y, hy, hx⟩ := Checked.bind_eq_ok.1 hx
    cases y with
    | none =>
      have := victim_bounds (n := n) hx
      exact ⟨by omega, this.2⟩
    | some y =>
      have he := Option.some.inj (Except.ok.inj hx)
      obtain ⟨rfl, rfl⟩ := Prod.mk.inj he
      exact ⟨Nat.lt_succ_self _, victimHome_bounds hy⟩

/-- The search for a home looks only at slots between the neighborhood's start and the hole. -/
theorem victimHome_mask (hW : ∀ i, base < i → i ≤ j → slot _ i ∈ W) (hb : base + L.neighborSize ≤ j) (h0 : 0 ≤ h)
    (h1 : h < 2 * L.leafSpanSize) (hhj : h ≤ j) : ∀ n ≤ L.neighborSize,
      (mask W b r).victimHome j h n = r.victimHome j h n
  | 0, _ => rfl
  | n + 1, hn => by
    have ha := homeAt_eq h0 h1 (Int.natCast_nonneg n) (by omega : (n : Int) < L.neighborSize)
    simp only [victimHome, ha, victimHome_mask hW hb h0 h1 hhj n (by omega)]
    by_cases hr : h - n + L.neighborSize > j
    · rw [getEntry_mask (hW _ (by omega) (by omega))]
    · simp only [hr, false_and, if_false]

theorem victim_mask (hW : ∀ i, base < i → i ≤ j → slot _ i ∈ W) (hb : base + L.neighborSize ≤ j) (hb0 : 0 ≤ base)
    (h1 : j < 2 * L.leafSpanSize) : ∀ n < L.neighborSize, (mask W b r).victim j n = r.victim j n
  | 0, _ => rfl
  | n + 1, hn => by
    simp only [victim, victimHome_mask hW hb (h := j - (n + 1 : Nat)) (by omega) (by omega) (by omega) _ le_rfl,
      victim_mask hW hb hb0 h1 n (by omega)]

theorem hop_mask {x : Int} (hj : slot _ j ∈ W) (hh : slot _ h ∈ W) (hx : slot _ x ∈ W) :
    (mask W b r).hop j h x = (r.hop j h x).map (mask W b) := by
  simp only [hop, getEntry_mask hh, update_mask hj, unsetHopBit_mask hx]
  cases (r.update j (r.getEntry h).key (r.getEntry h).value).unsetHopBit x (h - x) with
  | error a => rfl
  | ok r' => exact setHopBit_mask hx _

/-- Apply a function to the table in the result of the hop loop. -/
def mapLoop (f : Records L → Records L) (x : Option (Records L × Int × List (Fin L.leafSpanSize))) :
    Option (Records L × Int × List (Fin L.leafSpanSize)) := x.map fun y => (f y.1, y.2)

theorem hopLoop_mask (r : Records L) {j : Int} (hb0 : 0 ≤ base) (hb1 : base < L.leafSpanSize)
    (hj : j < base + L.leafSpanSize)
    (hW : ∀ i, base < i → i ≤ j → slot _ i ∈ W) (acc : List (Fin L.leafSpanSize)) :
    (mask W b r).hopLoop base j acc = (r.hopLoop base j acc).map (mapLoop (mask W b)) := by
  rw [hopLoop, hopLoop.eq_def r]
  by_cases hlt : j < base + L.neighborSize
  · simp only [if_pos hlt]
    rfl
  simp only [if_neg hlt]
  have hH := L.neighborSize_pos
  rw [victim_mask hW (by omega) hb0 (by omega) _ (by omega)]
  cases hv : r.victim j (L.neighborSize - 1) with
  | error a => rfl
  | ok y =>
    cases y with
    | none => rfl
    | some y =>
      obtain ⟨o, x⟩ := y
      obtain ⟨ho, hx1, hx2⟩ := victim_bounds hv
      simp only [hop_mask (b := b) (r := r) (hW j (by omega) le_rfl) (hW (j - (o + 1 : Nat)) (by omega) (by omega))
        (hW x (by omega) (by omega))]
      cases r.hop j (j - (o + 1 : Nat)) x with
      | error a => rfl
      | ok r' =>
        exact hopLoop_mask r' hb0 hb1 (by omega) (fun i h1 h2 => hW i h1 (by omega)) _
termination_by (j - base - L.neighborSize + 1).toNat
decreasing_by omega

/-- The hole ends between the home and where it started. -/
theorem hopLoop_bounds {r : Records L} {j : Int} {acc path : List (Fin L.leafSpanSize)} {e : Int} (hj : base ≤ j)
    (h : r.hopLoop base j acc = .ok (some (r', e, path))) : base ≤ e ∧ e ≤ j := by
  rw [hopLoop] at h
  split at h
  · obtain ⟨-, rfl, -⟩ := h
    exact ⟨hj, le_rfl⟩
  rename_i hlt
  split at h
  · cases h
  · cases h
  rename_i o x hv
  have ho := (victim_bounds hv).1
  split at h
  · cases h
  · have := hopLoop_bounds (by omega) h
    omega
termination_by (j - base - L.neighborSize + 1).toNat
decreasing_by omega

theorem firstEmpty_mask {n : Nat} (hW : ∀ i, base ≤ i → i < base + n → slot _ i ∈ W) :
    (mask W b r).firstEmpty base n = r.firstEmpty base n := by
  unfold firstEmpty
  rw [List.find?_map, List.find?_map]
  congr 1
  apply List.find?_congr
  intro m hm
  have := List.mem_range.1 hm
  simp only [Function.comp_apply, getEntry_mask (hW (base + m) (by omega) (by omega))]

end Records

open Records

/-- **Views**: the hop insertion into a view of the probed window is the hop insertion into the leaf. -/
theorem hopscotchInsertAndUnlock_mask {W : Finset (Fin L.leafSpanSize)} {b r : Records L} {k v n : Nat}
    (hW : ∀ i : Int, (L.getHashedLeafEntryIndex k).val ≤ i → i < (L.getHashedLeafEntryIndex k).val + n → slot _ i ∈ W) :
    hopscotchInsertAndUnlock (mask W b r) k v n =
      (hopscotchInsertAndUnlock r k v n).map (Option.map fun y => (mask W b y.1, y.2)) := by
  have hb := (L.getHashedLeafEntryIndex k).isLt
  simp only [hopscotchInsertAndUnlock, firstEmpty_mask hW]
  cases hfe : r.firstEmpty (L.getHashedLeafEntryIndex k).val n with
  | none => rfl
  | some e =>
    obtain ⟨h1, h2, -, -⟩ := firstEmpty_some hfe
    simp only [hopLoop_mask (b := b) r (Int.natCast_nonneg _) (Int.ofNat_lt.2 hb) (firstEmpty_lt hfe)
      (fun i h3 h4 => hW i (by omega) (by omega)) []]
    cases hl : r.hopLoop (L.getHashedLeafEntryIndex k).val e [] with
    | error a => rfl
    | ok y =>
      cases y with
      | none => rfl
      | some y =>
        obtain ⟨r₁, j, path⟩ := y
        obtain ⟨h3, h4⟩ := hopLoop_bounds h1 hl
        have hj : slot _ j ∈ W := hW j h3 (by omega)
        have hs : (mask W b r₁).settle (L.getHashedLeafEntryIndex k).val j k v =
            (r₁.settle (L.getHashedLeafEntryIndex k).val j k v).map (mask W b) := by
          rw [settle, update_mask hj, setHopBit_mask (hW _ le_rfl (by omega)), settle]
        change (mask W b r₁).settle (L.getHashedLeafEntryIndex k).val j k v >>= _ = _
        rw [hs]
        change _ = Except.map _ (r₁.settle (L.getHashedLeafEntryIndex k).val j k v >>= _)
        cases r₁.settle (L.getHashedLeafEntryIndex k).val j k v <;> rfl

/-! ## Reads -/

/-- The `n` slots from `start` on, wrapping around. -/
def window (start : Fin L.leafSpanSize) (n : Nat) : Finset (Fin L.leafSpanSize) :=
  Finset.univ.filter fun s => gap start s < n

theorem mem_window {start s : Fin L.leafSpanSize} {n : Nat} : s ∈ window start n ↔ gap start s < n := by
  simp [window]

theorem slot_mem_window {start : Fin L.leafSpanSize} {n : Nat} (_ : n ≤ L.leafSpanSize) {i : Int}
    (h1 : (start.val : Int) ≤ i) (h2 : i < start.val + n) : slot _ i ∈ window start n := by
  have hg := Cyclic.gap_eq_of_slot (i := (start.val : Int)) (d := (i - start.val).toNat) (t := slot L.leafSpanSize i)
    (by omega) (congrArg _ (by omega))
  rw [Cyclic.slot_coe] at hg
  rw [mem_window, hg]
  omega

theorem window_all (start : Fin L.leafSpanSize) : window start L.leafSpanSize = Finset.univ := by
  ext s
  simp [mem_window, Cyclic.gap_lt]

theorem mask_univ (b r : Records L) : mask Finset.univ b r = r := funext fun s => mask_of_mem (Finset.mem_univ s)

/-- Reading more slots extends the view. -/
theorem mask_mask (W W' : Finset (Fin L.leafSpanSize)) (b r : Records L) :
    mask W' (mask W b r) r = mask (W' ∪ W) b r := by
  funext s
  by_cases h' : s ∈ W' <;> by_cases h : s ∈ W <;> simp [mask, h, h']

theorem mask_insert (W : Finset (Fin L.leafSpanSize)) (b r : Records L) (i : Fin L.leafSpanSize) :
    Function.update (mask W b r) i (r i) = mask (insert i W) b r := by
  funext s
  by_cases hs : s = i
  · simp [hs, mask]
  · by_cases h : s ∈ W <;> simp [mask, hs, h]

/-- A replica of the metadata is among the slots. -/
def ReadsMetadata (start : Fin L.leafSpanSize) (n : Nat) : Prop :=
  L.leafSpanSize < start.val + n ∨ segmentHasMetadata L start.val n = true

/-- `hopscotch_search` passes its assertions, and shows the slots it reads. -/
theorem hopscotchSearch_eq (remote leaf : LeafNode L) (start : Fin L.leafSpanSize) {n : Nat} (_ : n ≤ L.leafSpanSize) :
    ∃ md, hopscotchSearch remote start n leaf = .ok ⟨md, mask (window start n) leaf.records remote.records⟩ ∧
      (ReadsMetadata start n → md = remote.metadata) ∧ (md = remote.metadata ∨ md = leaf.metadata) := by
  have hs := start.isLt
  have hH := L.neighborSize_pos
  have hrec : ∀ sizeR sizeL : Nat, sizeR = min n (L.leafSpanSize - start.val) →
      sizeL = (if n ≤ L.leafSpanSize - start.val then 0 else n - (L.leafSpanSize - start.val)) →
      (fun s : Fin L.leafSpanSize => if s.val < sizeL ∨ (start.val ≤ s.val ∧ s.val < start.val + sizeR)
        then remote.records s else leaf.records s) = mask (window start n) leaf.records remote.records := by
    intro sizeR sizeL hR hL
    funext s
    have hiff : (s.val < sizeL ∨ (start.val ≤ s.val ∧ s.val < start.val + sizeR)) ↔ s ∈ window start n := by
      have := s.isLt
      rw [mem_window, Cyclic.gap_eq_ite, hR, hL]
      split_ifs <;> omega
    simp only [hiff, mask]
  simp only [hopscotchSearch]
  rw [hrec _ _ rfl rfl]
  by_cases hw : n ≤ L.leafSpanSize - start.val
  · rw [if_pos hw, if_neg (lt_irrefl 0), Nat.min_eq_left hw]
    have hmd : n ≥ L.neighborSize → segmentHasMetadata L start.val n = true := by
      intro h
      have := Nat.mod_lt (L.neighborSize - start.val % L.neighborSize) hH
      exact decide_eq_true (by omega)
    rw [Checked.assert_of hmd]
    refine ⟨_, rfl, fun h => ?_, ?_⟩
    · rcases h with h | h
      · omega
      · exact if_pos h
    · split_ifs
      · exact .inl rfl
      · exact .inr rfl
  · have hmd : segmentHasMetadata L 0 (n - (L.leafSpanSize - start.val)) = true := by
      refine decide_eq_true ?_
      rw [Nat.zero_mod, Nat.sub_zero, Nat.mod_self]
      omega
    rw [if_neg hw, if_pos (by omega), Checked.assert_of hmd]
    exact ⟨_, rfl, fun _ => rfl, .inl rfl⟩

/-- `leaf_entry_read` shows one more slot. -/
theorem leafEntryRead_eq (remote : LeafNode L) (md : LeafMetadata) (W : Finset (Fin L.leafSpanSize)) (b : Records L)
    (i : Fin L.leafSpanSize) (h : md = remote.metadata) :
    leafEntryRead remote i ⟨md, mask W b remote.records⟩ = ⟨md, mask (insert i W) b remote.records⟩ := by
  simp only [leafEntryRead, mask_insert, h, ite_self]

/-- A neighborhood contains a replica of the metadata. -/
theorem readsMetadata_of_le {start : Fin L.leafSpanSize} {n : Nat} (h : L.neighborSize ≤ n) :
    ReadsMetadata start n := by
  have := Nat.mod_lt (L.neighborSize - start.val % L.neighborSize) L.neighborSize_pos
  exact .inr (decide_eq_true (by omega))

/-- **The first read of an insert**: the slots it reads are the whole leaf, or they reach past a bucket with a clear
bit; a replica of the metadata is among them. -/
theorem insertReadNum_spec [Arithmetic] (lock : Valock L) (start : Fin L.leafSpanSize) (hr : lock.InRange start.val) :
    0 < insertReadNum lock start.val ∧ insertReadNum lock start.val ≤ L.leafSpanSize ∧
      (insertReadNum lock start.val = L.leafSpanSize ∨ lock.ReadsBucket start.val (insertReadNum lock start.val)) ∧
      ReadsMetadata start (insertReadNum lock start.val) := by
  have hs := start.isLt
  have hH := L.neighborSize_pos
  have hN := L.neighborSize_le
  have hread := lock.readEntryNum_spec hs hr
  simp only [insertReadNum]
  generalize lock.getReadEntryNumFromBitmap start.val = n at hread ⊢
  have hdm := Nat.div_add_mod start.val L.neighborSize
  have hml := Nat.mod_lt start.val hH
  by_cases hext : n < L.neighborSize ∧ start.val % L.neighborSize ≠ 0 ∧
      start.val / L.neighborSize = (start.val + n - 1) / L.neighborSize
  · obtain ⟨hn, hmod, hdiv⟩ := hext
    obtain ⟨hpos, hle, b, hb, hbit, hall⟩ := hread.resolve_left (by omega)
    have hq : (start.val + n - 1 + L.neighborSize) / L.neighborSize = start.val / L.neighborSize + 1 := by
      rw [Nat.add_div_right _ hH, hdiv]
    have hdm' := Nat.div_add_mod (start.val + n - 1) L.neighborSize
    have hml' := Nat.mod_lt (start.val + n - 1) hH
    rw [← hdiv] at hdm'
    rw [if_pos ⟨hn, hmod, hdiv⟩, hq, Nat.add_mul, Nat.one_mul, Nat.mul_comm]
    refine ⟨by omega, by omega, .inr ⟨b, hb, hbit, fun x hx he => ?_⟩, ?_⟩
    · have := hall x hx he
      omega
    · refine .inr (decide_eq_true ?_)
      rw [Nat.mod_eq_of_lt (by omega)]
      omega
  · rw [if_neg hext]
    rcases hread with hall | ⟨hpos, hle, hb⟩
    · subst hall
      exact ⟨by omega, le_rfl, .inl rfl, readsMetadata_of_le hN⟩
    refine ⟨hpos, by omega, .inr hb, ?_⟩
    by_cases hn : L.neighborSize ≤ n
    · exact readsMetadata_of_le hn
    refine .inr (decide_eq_true ?_)
    by_cases hmod : start.val % L.neighborSize = 0
    · rw [hmod, Nat.sub_zero, Nat.mod_self]
      exact hpos
    · rw [Nat.mod_eq_of_lt (by omega)]
      -- the last slot read lies past the next replica
      by_contra hge
      refine hext ⟨by omega, hmod, ?_⟩
      have he : start.val + n - 1 =
          L.neighborSize * (start.val / L.neighborSize) + (start.val % L.neighborSize + n - 1) := by omega
      rw [he, Nat.mul_add_div hH, Nat.div_eq_of_lt (a := start.val % L.neighborSize + n - 1) (by omega), Nat.add_zero]

end Chime

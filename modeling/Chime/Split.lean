import Chime.Insertion

/-!
# Splitting the records of a leaf

`moveData` takes the items from the split key on out of the table, with the bits of their homes, and puts them into the
same slots of the empty table (`moveData_spec`). One step moves one item (`moveEntry_spec`); the loop is an induction
on the slots still to be visited.
-/

namespace Chime

open Cyclic (slot gap)
open HopChain (Chain Fits IsVictim)
open Records

variable {L : Layout}

/-- The item is moved by a split. -/
def Moves (splitKey : Nat) (i : Nat × Nat) : Prop := i.1 ≠ 0 ∧ splitKey ≤ i.1

instance (splitKey : Nat) (i : Nat × Nat) : Decidable (Moves splitKey i) := inferInstanceAs (Decidable (_ ∧ _))

/-- One round of the loop that moves data. -/
theorem moveEntry_spec {r s : Records L} (hr : r.IsPlaced) (hs : s.IsPlaced) (splitKey : Nat) {i : Fin L.leafSpanSize}
    (hi : s.keys i = 0) : ∃ r' s', moveEntry splitKey (r, s) i = .ok (r', s') ∧ r'.IsPlaced ∧ s'.IsPlaced ∧
      r'.items = (if Moves splitKey (r.items i) then Function.update r.items i (0, 0) else r.items) ∧
      s'.items = (if Moves splitKey (r.items i) then Function.update s.items i (r.items i) else s.items) := by
  by_cases hm : Moves splitKey (r.items i)
  swap
  · refine ⟨r, s, ?_, hr, hs, by rw [if_neg hm], by rw [if_neg hm]⟩
    have hm' : ¬((r i).key ≠ kkeyNull ∧ (r i).key ≥ splitKey) := hm
    simp only [moveEntry, if_neg hm']
    rfl
  have hm' : (r i).key ≠ kkeyNull ∧ (r i).key ≥ splitKey := hm
  have hk0 : (r i).key ≠ 0 := hm'.1
  set home := L.getHashedLeafEntryIndex (r i).key with hhome
  have hoff : (if i.val ≥ home.val then i.val - home.val else i.val + L.leafSpanSize - home.val) = gap home i :=
    (Cyclic.gap_eq_ite home i).symm
  have hd : gap home i < L.neighborSize := hr.homed i hk0
  have hput := hs.put hi hk0 hd
  have htake := hr.take rfl hk0
  obtain ⟨s₁, hs₁, hsi, hsh⟩ := setHopBit_ok (s.update i.val (r i).key (r i).value) home.val (gap home i)
    (by omega) (by omega) (by rw [hops_update, Cyclic.slot_coe]; exact hs.bit_empty hi hd)
  obtain ⟨r₁, hr₁, hri, hrh⟩ := unsetHopBit_ok (r.update i.val kkeyNull kValueNull) home.val (gap home i)
    (by omega) (by omega) (by rw [hops_update, Cyclic.slot_coe]; exact hr.bit rfl hk0)
  rw [items_update, Cyclic.slot_coe] at hsi hri
  rw [hops_update, Cyclic.slot_coe] at hsh hrh
  refine ⟨r₁, s₁, ?_, ?_, ?_, ?_, ?_⟩
  · simp only [moveEntry, if_pos hm', ← hhome, hoff, hs₁, hr₁, Checked.ok_bind]
    rfl
  · have hkeys : r₁.keys = Function.update r.keys i 0 := by
      rw [keys_eq, hri, keys_eq]
      exact (Function.comp_update Prod.fst r.items i (0, 0))
    rw [IsPlaced, hkeys, hrh]
    exact htake
  · have hkeys : s₁.keys = Function.update s.keys i (r i).key := by
      rw [keys_eq, hsi, keys_eq]
      exact (Function.comp_update Prod.fst s.items i _)
    rw [IsPlaced, hkeys, hsh]
    exact hput
  · rw [hri, if_pos hm]
    rfl
  · rw [hsi, if_pos hm]
    rfl

/-- The loop that moves data, on the slots `is`. -/
theorem moveFold_spec (splitKey : Nat) {is : List (Fin L.leafSpanSize)} (hn : is.Nodup) {r s : Records L}
    (hr : r.IsPlaced) (hs : s.IsPlaced) (hi : ∀ i ∈ is, s.keys i = 0) :
    ∃ r' s', is.foldlM (moveEntry splitKey) (r, s) = .ok (r', s') ∧ r'.IsPlaced ∧ s'.IsPlaced ∧
      (∀ i, r'.items i = if i ∈ is ∧ Moves splitKey (r.items i) then (0, 0) else r.items i) ∧
      (∀ i, s'.items i = if i ∈ is ∧ Moves splitKey (r.items i) then r.items i else s.items i) := by
  induction is generalizing r s with
  | nil => exact ⟨r, s, rfl, hr, hs, by simp, by simp⟩
  | cons j is ih =>
    have hn' := List.nodup_cons.1 hn
    obtain ⟨r₁, s₁, h₁, hr₁, hs₁, hri₁, hsi₁⟩ := moveEntry_spec hr hs splitKey (hi j List.mem_cons_self)
    have hoff : ∀ i ≠ j, r₁.items i = r.items i ∧ s₁.items i = s.items i := by
      intro i hij
      constructor
      · rw [hri₁]
        split <;> simp [hij]
      · rw [hsi₁]
        split <;> simp [hij]
    have hi₁ : ∀ i ∈ is, s₁.keys i = 0 := by
      intro i him
      have hij : i ≠ j := fun h => hn'.1 (h ▸ him)
      rw [keys_of_items (hoff i hij).2]
      exact hi i (List.mem_cons_of_mem _ him)
    obtain ⟨r', s', h', hr', hs', hri', hsi'⟩ := ih hn'.2 hr₁ hs₁ hi₁
    refine ⟨r', s', ?_, hr', hs', fun i => ?_, fun i => ?_⟩
    · rw [List.foldlM_cons, h₁, Checked.ok_bind, h']
    · rw [hri']
      rcases eq_or_ne i j with rfl | hij
      · rw [if_neg (fun h => hn'.1 h.1), hri₁]
        by_cases hm : Moves splitKey (r.items i) <;> simp [hm]
      · rw [(hoff i hij).1]
        simp [hij]
    · rw [hsi']
      rcases eq_or_ne i j with rfl | hij
      · rw [if_neg (fun h => hn'.1 h.1), hsi₁]
        by_cases hm : Moves splitKey (r.items i) <;> simp [hm]
      · rw [(hoff i hij).1, (hoff i hij).2]
        simp [hij]

/-- The items below and from the split key on. -/
structure Halves (r : Records L) (splitKey : Nat) (l s : Records L) : Prop where
  left : ∀ i, l.items i = if Moves splitKey (r.items i) then (0, 0) else r.items i
  right : ∀ i, s.items i = if Moves splitKey (r.items i) then r.items i else (0, 0)
  left_placed : l.IsPlaced
  right_placed : s.IsPlaced

/-- **Moving data** passes every assertion and separates the items at the split key. -/
theorem moveData_spec {r : Records L} (hr : r.IsPlaced) (splitKey : Nat) :
    ∃ l s, moveData splitKey r LeafNode.empty.records = .ok (l, s) ∧ Halves r splitKey l s := by
  obtain ⟨l, s, h, hl, hs, hli, hsi⟩ := moveFold_spec splitKey (List.nodup_finRange L.leafSpanSize) hr
    (s := LeafNode.empty.records) Placed.empty (fun _ _ => rfl)
  refine ⟨l, s, h, ⟨fun i => ?_, fun i => ?_, hl, hs⟩⟩
  · rw [hli]
    simp
  · rw [hsi]
    simp
    rfl

namespace Halves

variable {r l s : Records L} {splitKey : Nat}

theorem stored_left (h : Halves r splitKey l s) {k v : Nat} : l.Stored k v ↔ r.Stored k v ∧ k < splitKey := by
  constructor
  · rintro ⟨h0, i, hi⟩
    rw [h.left] at hi
    split at hi
    · exact absurd (congrArg Prod.fst hi).symm h0
    · rename_i hm
      have : r.keys i = k := congrArg Prod.fst hi
      refine ⟨⟨h0, i, hi⟩, ?_⟩
      by_contra hge
      exact hm (by rw [hi]; exact ⟨h0, by omega⟩)
  · rintro ⟨⟨h0, i, hi⟩, hlt⟩
    refine ⟨h0, i, ?_⟩
    rw [h.left, if_neg, hi]
    rw [hi]
    exact fun hm => by have := hm.2; omega

theorem stored_right (h : Halves r splitKey l s) {k v : Nat} : s.Stored k v ↔ r.Stored k v ∧ splitKey ≤ k := by
  constructor
  · rintro ⟨h0, i, hi⟩
    rw [h.right] at hi
    split at hi
    · rename_i hm
      exact ⟨⟨h0, i, hi⟩, by have := hm.2; rwa [hi] at this⟩
    · exact absurd (congrArg Prod.fst hi).symm h0
  · rintro ⟨⟨h0, i, hi⟩, hle⟩
    refine ⟨h0, i, ?_⟩
    rw [h.right, if_pos, hi]
    rw [hi]
    exact ⟨h0, hle⟩

theorem hasKey_left (h : Halves r splitKey l s) {k : Nat} : l.HasKey k ↔ r.HasKey k ∧ k < splitKey := by
  simp only [hasKey_iff, h.stored_left, exists_and_right]

theorem hasKey_right (h : Halves r splitKey l s) {k : Nat} : s.HasKey k ↔ r.HasKey k ∧ splitKey ≤ k := by
  simp only [hasKey_iff, h.stored_right, exists_and_right]

/-- A slot of a half is empty or as before. -/
theorem keys_left (h : Halves r splitKey l s) (i : Fin L.leafSpanSize) : l.keys i = 0 ∨ l.keys i = r.keys i := by
  by_cases hm : Moves splitKey (r.items i)
  · exact .inl (congrArg Prod.fst ((h.left i).trans (if_pos hm)))
  · exact .inr (keys_of_items ((h.left i).trans (if_neg hm)))

theorem keys_right (h : Halves r splitKey l s) (i : Fin L.leafSpanSize) : s.keys i = 0 ∨ s.keys i = r.keys i := by
  by_cases hm : Moves splitKey (r.items i)
  · exact .inr (keys_of_items ((h.right i).trans (if_pos hm)))
  · exact .inl (congrArg Prod.fst ((h.right i).trans (if_neg hm)))

end Halves

/-- A table whose slots are empty or as in one that has the key once. -/
theorem Records.Once.of_keys {r r' : Records L} {k : Nat} (ho : r.Once k) (hk : k ≠ 0)
    (h : ∀ i, r'.keys i = 0 ∨ r'.keys i = r.keys i) : r'.Once k := by
  intro s t hs ht
  have hs' := (h s).resolve_left (hs ▸ hk)
  have ht' := (h t).resolve_left (ht ▸ hk)
  exact ho s t (hs'.symm.trans hs) (ht'.symm.trans ht)

/-- A table whose slots are empty or as in one with distinct keys has distinct keys. -/
theorem Records.Distinct.of_keys {r r' : Records L} (hd : r.Distinct) (h : ∀ i, r'.keys i = 0 ∨ r'.keys i = r.keys i) :
    r'.Distinct := Records.distinct_iff.2 fun k hk => (Records.distinct_iff.1 hd k hk).of_keys hk h

/-! ## The split key -/

namespace Records

variable {r : Records L} {base j h : Int}

/-- Where the source wraps the home of a stored key, it is the origin of its slot. -/
theorem wrapHome_eq (hp : r.IsPlaced) (h0 : 0 ≤ h) (h1 : h < 2 * L.leafSpanSize) (hk : r.keys (slot _ h) ≠ 0) :
    wrapHome L h (L.getHashedLeafEntryIndex (r.getEntry h).key).val = origin r.keys h := by
  have he := homeAt_eq h0 h1 (Int.natCast_nonneg _) (Int.ofNat_lt.2 (hp.homed _ hk))
  rw [homeAt, Int.add_emod_right, ← Cyclic.slot_val_int, Cyclic.slot_sub_gap rfl] at he
  rw [origin, if_neg hk]
  exact he

/-- The search for a victim by the hash finds the leftmost item that fits, where all slots hold items. -/
theorem victimByHash_spec (hp : r.IsPlaced) (h0 : (L.neighborSize : Int) ≤ j) (h1 : j < 2 * L.leafSpanSize)
    (hfull : ∀ h', j - L.neighborSize < h' → h' < j → r.keys (slot _ h') ≠ 0) : ∀ n, n < L.neighborSize →
      (∀ h', Fits (origin r.keys) L.neighborSize j h' → j - n ≤ h') →
      (∃ o : Nat, IsVictim (origin r.keys) L.neighborSize j (j - (o + 1 : Nat)) ∧ r.victimByHash j n = some o) ∨
      ((∀ h', ¬Fits (origin r.keys) L.neighborSize j h') ∧ r.victimByHash j n = none)
  | 0, _, hno => .inr ⟨fun h' hf => by have := hno h' hf; have := hf.2.1; omega, rfl⟩
  | n + 1, hn, hno => by
    have hw := wrapHome_eq hp (h := j - (n + 1 : Nat)) (by omega) (by omega) (hfull _ (by omega) (by omega))
    simp only [victimByHash, hw]
    by_cases hf : Fits (origin r.keys) L.neighborSize j (j - (n + 1 : Nat))
    · exact .inl ⟨n, ⟨hf, hno⟩, if_pos hf.2.2⟩
    · rw [if_neg fun hc => hf ⟨by omega, by omega, hc⟩]
      refine victimByHash_spec hp h0 h1 hfull n (by omega) fun h' hf' => ?_
      have hle := hno h' hf'
      by_contra hlt
      exact hf ((by omega : h' = j - (n + 1 : Nat)) ▸ hf')

/-- "Try hopping" decides whether there is a chain. -/
theorem tryHop_iff (hp : r.IsPlaced) (hb : 0 ≤ base) (hb1 : base < L.leafSpanSize) {j : Int}
    (hj : j < base + L.leafSpanSize) (hfull : ∀ i, base < i → i < j → r.keys (slot _ i) ≠ 0) :
    r.tryHop base j = true ↔ ∃ hs, Chain (origin r.keys) L.neighborSize base j hs := by
  have hH := L.neighborSize_pos
  rw [tryHop]
  by_cases hlt : j < base + L.neighborSize
  · rw [if_pos hlt]
    exact ⟨fun _ => ⟨[], .done hlt⟩, fun _ => rfl⟩
  rw [if_neg hlt]
  rcases victimByHash_spec hp (by omega) (by omega) (fun h' h1 h2 => hfull h' (by omega) h2) (L.neighborSize - 1)
    (by omega) (fun h' hf => by have := hf.1; omega) with ⟨o, hv, he⟩ | ⟨hno, he⟩
  · have h2 := hv.1.2.1
    rw [he]
    simp only
    rw [tryHop_iff hp hb hb1 (by omega) fun i h3 h4 => hfull i h3 (by omega)]
    constructor
    · rintro ⟨hs, hc⟩
      exact ⟨_, .hop (by omega) hv hc⟩
    · rintro ⟨hs, hc⟩
      cases hc with
      | done h => omega
      | hop _ hv' hc' =>
        obtain rfl := hv.unique hv'
        exact ⟨_, hc'⟩
  · rw [he]
    refine ⟨fun h => absurd h Bool.false_ne_true, ?_⟩
    rintro ⟨hs, hc⟩
    cases hc with
    | done h => omega
    | hop _ hv' _ => exact absurd hv'.1 (hno _)
termination_by (j - base - L.neighborSize + 1).toNat
decreasing_by omega

/-- A slot whose emptying would let the key of the home `base` in. -/
structure Critical (r : Records L) (base e : Int) : Prop where
  le : base ≤ e
  lt : e < base + L.leafSpanSize
  full : ∀ i, base ≤ i → i ≤ e → r.keys (slot _ i) ≠ 0
  chain : ∃ hs, Chain (origin r.keys) L.neighborSize base e hs

/-- The critical keys, from the `m`th slot on. -/
theorem mem_criticalKeys (hp : r.IsPlaced) (hb : 0 ≤ base) (hb1 : base < L.leafSpanSize) {x : Nat} : ∀ n m,
    m + n = L.leafSpanSize → (∀ i, base ≤ i → i < base + m → r.keys (slot _ i) ≠ 0) →
    (x ∈ criticalKeys r base ((List.range' m n).map fun i : Nat => base + i) ↔
      ∃ e, base + m ≤ e ∧ r.Critical base e ∧ r.keys (slot _ e) = x)
  | 0, m, hmn, _ => by
    refine ⟨fun h => by simp [criticalKeys] at h, ?_⟩
    rintro ⟨e, h1, h2, -⟩
    have := h2.lt
    omega
  | n + 1, m, hmn, hfull => by
    rw [List.range'_succ, List.map_cons, criticalKeys]
    by_cases hem : r.keys (slot _ (base + m)) = 0
    · rw [if_pos (show (r.getEntry (base + m)).key = kkeyNull from hem)]
      refine ⟨fun h => by simp at h, ?_⟩
      rintro ⟨e, h1, h2, -⟩
      exact absurd hem (h2.full _ (by omega) h1)
    have hfull' : ∀ i, base ≤ i → i < base + (m + 1 : Nat) → r.keys (slot _ i) ≠ 0 := by
      intro i h1 h2
      by_cases him : i = base + m
      · exact him ▸ hem
      · exact hfull i h1 (by omega)
    have ih := mem_criticalKeys hp hb hb1 (x := x) n (m + 1) (by omega) hfull'
    have htry := tryHop_iff hp hb hb1 (j := base + m) (by omega) fun i h1 h2 => hfull i (by omega) h2
    rw [if_neg (show ¬(r.getEntry (base + m)).key = kkeyNull from hem)]
    have hcrit : r.tryHop base (base + m) = true ↔ r.Critical base (base + m) :=
      ⟨fun h => ⟨by omega, by omega, fun i h1 h2 => hfull' i h1 (by omega), htry.1 h⟩, fun h => htry.2 h.chain⟩
    split
    · rename_i ht
      rw [List.mem_cons, ih]
      constructor
      · rintro (rfl | ⟨e, h1, h2⟩)
        · exact ⟨_, le_rfl, hcrit.1 ht, rfl⟩
        · exact ⟨e, by omega, h2⟩
      · rintro ⟨e, h1, h2, h3⟩
        by_cases he : e = base + m
        · exact .inl (by rw [← h3, he]; rfl)
        · exact .inr ⟨e, by omega, h2, h3⟩
    · rename_i ht
      rw [ih]
      constructor
      · rintro ⟨e, h1, h2⟩
        exact ⟨e, by omega, h2⟩
      · rintro ⟨e, h1, h2, h3⟩
        refine ⟨e, ?_, h2, h3⟩
        by_contra hlt
        have he : e = base + m := by omega
        exact ht (hcrit.2 (he ▸ h2))

/-- Distinct keys give distinct critical keys. -/
theorem nodup_criticalKeys (hd : r.Distinct) {is : List Int} (hn : (is.map (slot L.leafSpanSize)).Nodup) :
    (criticalKeys r base is).Nodup ∧ ∀ x ∈ criticalKeys r base is, ∃ i ∈ is, r.keys (slot _ i) = x ∧ x ≠ 0 := by
  induction is with
  | nil => simp [criticalKeys]
  | cons e is ih =>
    rw [List.map_cons, List.nodup_cons] at hn
    obtain ⟨ih1, ih2⟩ := ih hn.2
    rw [criticalKeys]
    split
    · simp
    rename_i hk
    have ih2' : ∀ x ∈ criticalKeys r base is, ∃ i ∈ e :: is, r.keys (slot _ i) = x ∧ x ≠ 0 := fun x hx =>
      let ⟨i, hi, h⟩ := ih2 x hx
      ⟨i, List.mem_cons_of_mem _ hi, h⟩
    split
    · refine ⟨List.nodup_cons.2 ⟨fun hmem => ?_, ih1⟩, fun x hx => ?_⟩
      · obtain ⟨i, hi, hx, h0⟩ := ih2 _ hmem
        exact hn.1 (List.mem_map.2 ⟨i, hi, hd _ _ hx (hx ▸ h0)⟩)
      · rcases List.mem_cons.1 hx with rfl | hx
        · exact ⟨e, List.mem_cons_self, rfl, hk⟩
        · exact ih2' x hx
    · exact ⟨ih1, ih2'⟩

end Records

/-- The indices that `hopscotch_get_split_key` visits name every slot once. -/
theorem nodup_window (base : Int) :
    (((List.range L.leafSpanSize).map fun i : Nat => base + i).map (slot L.leafSpanSize)).Nodup := by
  rw [List.map_map]
  refine List.Nodup.map_on (fun i hi j hj h => ?_) List.nodup_range
  have hi := List.mem_range.1 hi
  have hj := List.mem_range.1 hj
  have := Cyclic.slot_inj (a := base) (i := base + i) (j := base + j) (by omega) (by omega) h
  omega

/-- The median of a list with at least two elements: it is an element, and has an element not above it. -/
theorem median_spec (xs : List Nat) (h : 2 ≤ xs.length) (d : Nat) :
    (xs.insertionSort (· ≤ ·)).getD ((xs.insertionSort (· ≤ ·)).length / 2) d ∈ xs ∧
    (xs.Nodup → ∃ x ∈ xs, x < (xs.insertionSort (· ≤ ·)).getD ((xs.insertionSort (· ≤ ·)).length / 2) d) := by
  have hmem : ∀ x, x ∈ xs.insertionSort (· ≤ ·) ↔ x ∈ xs := fun x => List.mem_insertionSort _
  have hnd : xs.Nodup → (xs.insertionSort (· ≤ ·)).Nodup := (List.perm_insertionSort _ xs).nodup_iff.2
  have hs : (xs.insertionSort (· ≤ ·)).Pairwise (· ≤ ·) := List.pairwise_insertionSort _ xs
  have hlen : (xs.insertionSort (· ≤ ·)).length = xs.length := List.length_insertionSort _ xs
  generalize xs.insertionSort (· ≤ ·) = ys at hmem hnd hs hlen ⊢
  have hlt : ys.length / 2 < ys.length := by omega
  have h0 : 0 < ys.length := by omega
  rw [List.getD_eq_getElem?_getD, List.getElem?_eq_getElem hlt, Option.getD_some]
  refine ⟨(hmem _).1 (List.getElem_mem hlt), fun hn => ⟨ys[0], (hmem _).1 (List.getElem_mem h0), ?_⟩⟩
  have hle := List.pairwise_iff_getElem.1 hs 0 (ys.length / 2) h0 hlt (by omega)
  have hne : ys[0] ≠ ys[ys.length / 2] := fun he => by
    have := (List.Nodup.getElem_inj_iff (hnd hn)).1 he
    omega
  omega

/-- In a stuck table the neighborhood is full. -/
theorem Stuck.critical {r : Records L} {k : Nat} (h : Stuck r k L.leafSpanSize) :
    r.Critical (L.getHashedLeafEntryIndex k).val (L.getHashedLeafEntryIndex k).val := by
  have hH := L.neighborSize_pos
  have hN := L.leafSpanSize_pos
  refine ⟨le_rfl, by omega, fun i h1 h2 hi => ?_, [], .done (by omega)⟩
  obtain rfl : i = (L.getHashedLeafEntryIndex k).val := by omega
  cases hfe : r.firstEmpty (L.getHashedLeafEntryIndex k).val L.leafSpanSize with
  | none => exact firstEmpty_none hfe _ le_rfl (by omega) hi
  | some e =>
    obtain ⟨h1', -, -, h4⟩ := firstEmpty_some hfe
    have he : e = (L.getHashedLeafEntryIndex k).val := by
      by_contra hne
      exact h4 _ le_rfl (by omega) hi
    exact h e hfe [] (.done (by omega))

/-- **The split key**: it exists, is `k` or a critical key, and with distinct keys one of the critical keys goes to the
half that `k` does not go to. -/
theorem getSplitKey_spec {r : Records L} (hp : r.IsPlaced) {k : Nat} (hk0 : k ≠ 0) (hst : Stuck r k L.leafSpanSize) :
    ∃ m, hopscotchGetSplitKey r k = .ok m ∧ m ≠ 0 ∧
      (k < m → ∃ e, r.Critical (L.getHashedLeafEntryIndex k).val e ∧ m ≤ r.keys (slot _ e)) ∧
      (r.Distinct → ¬r.HasKey k → m ≤ k →
        ∃ e, r.Critical (L.getHashedLeafEntryIndex k).val e ∧ r.keys (slot _ e) < m) := by
  set base : Int := ((L.getHashedLeafEntryIndex k).val : Int) with hbase
  have hb : 0 ≤ base ∧ base < L.leafSpanSize := by have := (L.getHashedLeafEntryIndex k).isLt; omega
  set crit := criticalKeys r base ((List.range L.leafSpanSize).map fun i : Nat => base + i) with hcrit
  have hmem : ∀ x, x ∈ crit ↔ ∃ e, r.Critical base e ∧ r.keys (slot _ e) = x := by
    intro x
    rw [hcrit, List.range_eq_range', mem_criticalKeys hp hb.1 hb.2 (x := x) _ 0 (by omega) (by omega)]
    constructor
    · rintro ⟨e, -, h⟩
      exact ⟨e, h⟩
    · rintro ⟨e, h, he⟩
      exact ⟨e, by have := h.le; omega, h, he⟩
  have hne : crit ≠ [] := List.ne_nil_of_mem ((hmem _).2 ⟨_, hst.critical, rfl⟩)
  have hpos : 0 < crit.length := List.length_pos_iff.2 hne
  obtain ⟨hm, hlt⟩ := median_spec (crit ++ [k]) (by simp; omega) kkeyNull
  have hsk : hopscotchGetSplitKey r k =
      .ok (((crit ++ [k]).insertionSort (· ≤ ·)).getD (((crit ++ [k]).insertionSort (· ≤ ·)).length / 2) kkeyNull) := by
    simp only [hopscotchGetSplitKey, ← hbase, ← hcrit, Checked.assert_of hne, Checked.ok_bind, Checked.pure_eq_ok]
  generalize ((crit ++ [k]).insertionSort (· ≤ ·)).getD (((crit ++ [k]).insertionSort (· ≤ ·)).length / 2) kkeyNull = m
    at hsk hm hlt
  have hcase := hm
  rw [List.mem_append, List.mem_singleton] at hcase
  refine ⟨m, hsk, ?_, fun hkm => ?_, fun hd hk hmk => ?_⟩
  · rcases hcase with h | h
    · obtain ⟨e, he, hx⟩ := (hmem _).1 h
      exact hx ▸ he.full _ he.le le_rfl
    · rwa [h]
  · rcases hcase with h | h
    · obtain ⟨e, he, hx⟩ := (hmem _).1 h
      exact ⟨e, he, hx.ge⟩
    · omega
  · have hnk : k ∉ crit := by
      intro h
      obtain ⟨e, -, hx⟩ := (hmem _).1 h
      exact hk ⟨hk0, _, hx⟩
    have hnd : (crit ++ [k]).Nodup := by
      rw [List.nodup_append]
      exact ⟨(nodup_criticalKeys hd (nodup_window base)).1, List.nodup_singleton _,
        fun a ha b hb => by rw [List.mem_singleton.1 hb]; exact fun h => hnk (h ▸ ha)⟩
    obtain ⟨x, hx, hxm⟩ := hlt hnd
    rcases List.mem_append.1 hx with h | h
    · obtain ⟨e, he, hx⟩ := (hmem _).1 h
      exact ⟨e, he, by omega⟩
    · rw [List.mem_singleton] at h
      omega

/-- Emptying a critical slot makes room: the other slots may be emptied as well. -/
theorem Records.Critical.chain_of_empty {r t : Records L} {k : Nat} {e : Int}
    (h : r.Critical (L.getHashedLeafEntryIndex k).val e) (hk : ∀ i, t.keys i = 0 ∨ t.keys i = r.keys i)
    (he : t.keys (slot _ e) = 0) : ¬Stuck t k L.leafSpanSize := by
  intro hst
  obtain ⟨hs, hc⟩ := h.chain
  cases hfe : t.firstEmpty (L.getHashedLeafEntryIndex k).val L.leafSpanSize with
  | none => exact firstEmpty_none hfe e h.le h.lt he
  | some e' =>
    obtain ⟨h1, -, -, h4⟩ := firstEmpty_some hfe
    have hle : e' ≤ e := by
      by_contra hlt
      exact h4 e h.le (by omega) he
    obtain ⟨hs', hc'⟩ := hc.of_le e' hle
    refine hst e' hfe hs' (hc'.congr fun i h5 h6 => ?_)
    exact origin_congr ((hk _).resolve_left (h4 i (by omega) h6)).symm

/-- **A split makes room** for the key that did not fit. -/
theorem Halves.room {r l s : Records L} {k m : Nat} (h : Halves r m l s)
    (h1 : k < m → ∃ e, r.Critical (L.getHashedLeafEntryIndex k).val e ∧ m ≤ r.keys (slot _ e))
    (h2 : m ≤ k → ∃ e, r.Critical (L.getHashedLeafEntryIndex k).val e ∧ r.keys (slot _ e) < m) :
    ¬Stuck (if k < m then l else s) k L.leafSpanSize := by
  by_cases hkm : k < m
  · obtain ⟨e, he, hm⟩ := h1 hkm
    rw [if_pos hkm]
    refine he.chain_of_empty h.keys_left ?_
    exact congrArg Prod.fst ((h.left _).trans (if_pos ⟨he.full _ he.le le_rfl, hm⟩))
  · obtain ⟨e, he, hm⟩ := h2 (by omega)
    rw [if_neg hkm]
    refine he.chain_of_empty h.keys_right ?_
    exact congrArg Prod.fst ((h.right _).trans (if_neg fun h => by have := h.2; exact absurd this (Nat.not_le.2 hm)))

end Chime

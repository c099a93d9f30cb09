import Chime.HopSpec

/-!
# One insertion into a leaf

`firstEmpty` finds the first empty slot of the probe sequence, the hop loop brings the hole into the neighborhood and
`settle` fills it. `insertion_spec` puts the three together: either the new item is in, along a chain that starts at
the first empty slot (`Inserted`), or there is no such chain.
-/

namespace Chime

open Cyclic (slot gap)
open HopChain (Chain)
open Shift (shift)

variable {L : Layout}

namespace Records

variable {r r' : Records L} {base j : Int} {k v : Nat} {hs : List Int}

/-! ## The probe for an empty slot -/

theorem firstEmpty_some {n : Nat} {e : Int} (h : r.firstEmpty base n = some e) :
    base ≤ e ∧ e < base + n ∧ r.keys (slot _ e) = 0 ∧ ∀ i, base ≤ i → i < e → r.keys (slot _ i) ≠ 0 := by
  unfold firstEmpty at h
  rw [List.find?_map, Option.map_eq_some_iff] at h
  obtain ⟨m, hm, rfl⟩ := h
  have hlt := List.mem_range.1 (List.mem_of_find?_eq_some hm)
  have hem := List.find?_some hm
  rw [Function.comp_apply, decide_eq_true_eq] at hem
  refine ⟨by omega, by omega, hem, fun i h1 h2 => ?_⟩
  obtain ⟨d, rfl⟩ : ∃ d : Nat, i = base + d := ⟨(i - base).toNat, by omega⟩
  have hd := List.find?_range_eq_some.1 hm |>.2.2 d (by omega)
  rw [Bool.not_eq_eq_eq_not, Bool.not_true] at hd
  exact of_decide_eq_false hd

theorem firstEmpty_none {n : Nat} (h : r.firstEmpty base n = none) :
    ∀ i, base ≤ i → i < base + n → r.keys (slot _ i) ≠ 0 := by
  intro i h1 h2
  unfold firstEmpty at h
  rw [List.find?_map, Option.map_eq_none_iff, List.find?_eq_none] at h
  obtain ⟨d, rfl⟩ : ∃ d : Nat, i = base + d := ⟨(i - base).toNat, by omega⟩
  have hd := h d (List.mem_range.2 (by omega))
  exact fun hk => hd (decide_eq_true hk)

/-- The first empty slot is met within one round. -/
theorem firstEmpty_lt {n : Nat} {e : Int} (h : r.firstEmpty base n = some e) : e < base + L.leafSpanSize := by
  obtain ⟨h1, -, h2, h3⟩ := firstEmpty_some h
  by_contra hge
  refine h3 (e - L.leafSpanSize) (by omega) (by have := L.leafSpanSize_pos; omega) ?_
  rw [← Cyclic.slot_add_self, Int.sub_add_cancel]
  exact h2

/-- If the probe meets an empty slot, a longer one meets the same. -/
theorem firstEmpty_mono {n m : Nat} {e : Int} (h : r.firstEmpty base n = some e) (hnm : n ≤ m) :
    r.firstEmpty base m = some e := by
  obtain ⟨h1, h2, h3, h4⟩ := firstEmpty_some h
  cases hm : r.firstEmpty base m with
  | none => exact absurd h3 (firstEmpty_none hm e h1 (by omega))
  | some e' =>
    obtain ⟨h1', h2', h3', h4'⟩ := firstEmpty_some hm
    rcases lt_trichotomy e e' with hlt | rfl | hlt
    · exact absurd h3 (h4' e h1 hlt)
    · rfl
    · exact absurd h3' (h4 e' h1' hlt)

/-! ## The new item -/

/-- The table after the items moved along the chain `e :: hs` and the last hole was filled. -/
structure Inserted (r : Records L) (k v : Nat) (e : Int) (hs : List Int) (r' : Records L) : Prop where
  items : r'.items = Function.update (shift r.items (slot _ e) (hs.map (slot _)))
    (slot _ ((e :: hs).getLast (List.cons_ne_nil _ _))) (k, v)
  placed : r'.IsPlaced
  hops : ∀ s, r'.hops s ≠ r.hops s → ∃ i, ((L.getHashedLeafEntryIndex k).val : Int) ≤ i ∧ i ≤ e ∧ s = slot _ i

/-- The last hole of a chain is in the neighborhood. -/
theorem last_bounds {keys : Fin L.leafSpanSize → Nat} (hc : Chain (origin keys) L.neighborSize base j hs)
    (hj : base ≤ j) : base ≤ (j :: hs).getLast (List.cons_ne_nil _ _) ∧
      (j :: hs).getLast (List.cons_ne_nil _ _) < base + L.neighborSize := by
  refine ⟨?_, hc.last_lt⟩
  rcases List.mem_cons.1 (List.getLast_mem (List.cons_ne_nil j hs)) with h | h
  · omega
  · exact Int.le_of_lt (hc.bounds _ h).1

/-- Filling the last hole. -/
theorem settle_spec {r₁ : Records L} (hk : k ≠ 0) {e : Int} (hj : ((L.getHashedLeafEntryIndex k).val : Int) ≤ e)
    (hc : Chain (origin r.keys) L.neighborSize (L.getHashedLeafEntryIndex k).val e hs)
    (ho : Hopped r (L.getHashedLeafEntryIndex k).val e hs r₁) :
    ∃ r', r₁.settle (L.getHashedLeafEntryIndex k).val ((e :: hs).getLast (List.cons_ne_nil _ _)) k v = .ok r' ∧
      Inserted r k v e hs r' := by
  have hb := last_bounds hc hj
  have hN := L.neighborSize_le
  set home := L.getHashedLeafEntryIndex k with hhome
  set j := (e :: hs).getLast (List.cons_ne_nil _ _) with hjdef
  obtain ⟨h1, h2⟩ := hb
  have hlt : (j - home.val).toNat < L.leafSpanSize := by omega
  have hg : gap home (slot _ j) = (j - home.val).toNat := by
    have := Cyclic.gap_eq_of_slot (i := (home.val : Int)) (d := (j - home.val).toNat) (t := slot _ j) hlt
      (congrArg _ (by omega))
    rwa [Cyclic.slot_coe] at this
  have hvac : vacate r₁.keys j (slot _ j) = 0 := Function.update_self _ _ _
  have hput := ho.placed.put (t := slot _ j) hvac hk (by rw [← hhome, hg]; omega)
  have hbit := ho.placed.bit_empty hvac (s := home) (by rw [hg]; omega)
  rw [← hhome, hg] at hput
  rw [hg] at hbit
  obtain ⟨r₂, hr₂, hi₂, hh₂⟩ := setHopBit_ok (r₁.update j k v) home.val (j - home.val) (by omega) (by omega)
    (by rw [hops_update, Cyclic.slot_coe]; exact hbit)
  rw [hops_update, Cyclic.slot_coe] at hh₂
  refine ⟨r₂, hr₂, ⟨?_, ?_, ?_⟩⟩
  · rw [hi₂, items_update, ho.items]
  · have hkeys : r₂.keys = Function.update (vacate r₁.keys j) (slot _ j) k := by
      rw [keys_eq, hi₂, ← keys_eq, keys_update, vacate, Function.update_idem]
    rw [IsPlaced, hkeys, hh₂]
    exact hput
  · intro s hs
    by_cases hsh : s = home
    · exact ⟨home.val, le_rfl, hj, by rw [hsh, Cyclic.slot_coe]⟩
    · rw [hh₂, Function.update_of_ne hsh] at hs
      obtain ⟨i, h3, h4, h5⟩ := ho.hops s hs
      exact ⟨i, by omega, by omega, h5⟩

/-- An empty slot needs no vacating. -/
theorem vacate_eq {keys : Fin L.leafSpanSize → Nat} (h : keys (slot _ j) = 0) : vacate keys j = keys := by
  rw [vacate, ← h, Function.update_eq_self]

/-- The hop loop and the filling of the last hole, from an empty slot on. -/
theorem hopAndSettle_spec (hp : r.IsPlaced) (hk : k ≠ 0) {e : Int} (acc : List (Fin L.leafSpanSize))
    (h1 : ((L.getHashedLeafEntryIndex k).val : Int) ≤ e) (h2 : e < (L.getHashedLeafEntryIndex k).val + L.leafSpanSize)
    (he : r.keys (slot _ e) = 0) :
    (∃ hs r₁ r', Chain (origin r.keys) L.neighborSize (L.getHashedLeafEntryIndex k).val e hs ∧
      Hopped r (L.getHashedLeafEntryIndex k).val e hs r₁ ∧ Inserted r k v e hs r' ∧
      r.hopLoop (L.getHashedLeafEntryIndex k).val e acc =
        .ok (some (r₁, (e :: hs).getLast (List.cons_ne_nil _ _), acc ++ (e :: hs).map (slot _))) ∧
      r₁.settle (L.getHashedLeafEntryIndex k).val ((e :: hs).getLast (List.cons_ne_nil _ _)) k v = .ok r') ∨
    ((∀ hs, ¬Chain (origin r.keys) L.neighborSize (L.getHashedLeafEntryIndex k).val e hs) ∧
      r.hopLoop (L.getHashedLeafEntryIndex k).val e acc = .ok none) := by
  have hb := (L.getHashedLeafEntryIndex k).isLt
  have hp' : Placed L (vacate r.keys e) r.hops := by rw [vacate_eq he]; exact hp
  rcases hopLoop_spec r acc (by omega) (by omega) h2 hp' with ⟨hs, r₁, hc, ho, hl⟩ | hno
  · obtain ⟨r', hr', hins⟩ := settle_spec (v := v) hk h1 hc ho
    exact .inl ⟨hs, r₁, r', hc, ho, hins, hl, hr'⟩
  · exact .inr hno

end Records

open Records

/-! ## What an insertion does to the items -/

namespace Records

/-- The pair is in the table. -/
def Stored (r : Records L) (k v : Nat) : Prop := k ≠ 0 ∧ ∃ s, r.items s = (k, v)

/-- The key is in the table. -/
def HasKey (r : Records L) (k : Nat) : Prop := k ≠ 0 ∧ ∃ s, r.keys s = k

/-- `r'` is `r` with a new item in an empty slot, up to a permutation of the slots. -/
def Adds (r : Records L) (k v : Nat) (r' : Records L) : Prop :=
  ∃ (t : Fin L.leafSpanSize) (σ : Equiv.Perm (Fin L.leafSpanSize)), r.keys t = 0 ∧
    ∀ s, r'.items s = Function.update r.items t (k, v) (σ s)

variable {r r' : Records L} {k v e : Nat}

theorem hasKey_iff {k : Nat} : r.HasKey k ↔ ∃ v, r.Stored k v :=
  ⟨fun ⟨h0, s, hs⟩ => ⟨(r s).value, h0, s, Prod.ext hs rfl⟩, fun ⟨_, h0, s, hs⟩ => ⟨h0, s, congrArg Prod.fst hs⟩⟩

/-- The pairs after an insertion are the old ones and the new one. -/
theorem Adds.stored (h : Adds r k v r') (hk : k ≠ 0) {k' v' : Nat} :
    r'.Stored k' v' ↔ r.Stored k' v' ∨ (k' = k ∧ v' = v) := by
  obtain ⟨t, σ, ht, hσ⟩ := h
  constructor
  · rintro ⟨h0, s, hs⟩
    rw [hσ s] at hs
    by_cases hst : σ s = t
    · rw [hst, Function.update_self, Prod.mk.injEq] at hs
      exact .inr ⟨hs.1.symm, hs.2.symm⟩
    · rw [Function.update_of_ne hst] at hs
      exact .inl ⟨h0, σ s, hs⟩
  · rintro (⟨h0, s, hs⟩ | ⟨rfl, rfl⟩)
    · have hst : s ≠ t := by
        rintro rfl
        exact h0 ((congrArg Prod.fst hs).symm.trans ht)
      refine ⟨h0, σ.symm s, ?_⟩
      rw [hσ, Equiv.apply_symm_apply, Function.update_of_ne hst, hs]
    · refine ⟨hk, σ.symm t, ?_⟩
      rw [hσ, Equiv.apply_symm_apply, Function.update_self]

theorem Adds.hasKey (h : Adds r k v r') (hk : k ≠ 0) {k' : Nat} : r'.HasKey k' ↔ r.HasKey k' ∨ k' = k := by
  simp only [hasKey_iff, h.stored hk, exists_or, exists_and_left, exists_eq, and_true]

/-- A key stays in one slot, unless it is added to another copy. -/
theorem Adds.once (h : Adds r k v r') {j : Nat} (hj : j ≠ 0) (ho : r.Once j) (hk : j = k → ¬r.HasKey j) :
    r'.Once j := by
  obtain ⟨t, σ, ht, hσ⟩ := h
  have hkeys : ∀ s, r'.keys s = Function.update r.keys t k (σ s) := by
    intro s
    have := congrArg Prod.fst (hσ s)
    by_cases hst : σ s = t
    · rwa [hst, Function.update_self] at this ⊢
    · rwa [Function.update_of_ne hst] at this ⊢
  intro s u hs hu
  rw [hkeys] at hs hu
  apply σ.injective
  by_cases hst : σ s = t
  · by_cases hut : σ u = t
    · rw [hst, hut]
    · rw [hst, Function.update_self] at hs
      rw [Function.update_of_ne hut] at hu
      exact absurd ⟨hj, _, hu⟩ (hk hs.symm)
  · rw [Function.update_of_ne hst] at hs
    by_cases hut : σ u = t
    · rw [hut, Function.update_self] at hu
      exact absurd ⟨hj, _, hs⟩ (hk hu.symm)
    · rw [Function.update_of_ne hut] at hu
      exact ho _ _ hs hu

/-- A new key keeps the keys distinct. -/
theorem Adds.distinct (h : Adds r k v r') (hd : r.Distinct) (hk : ¬r.HasKey k) : r'.Distinct :=
  distinct_iff.2 fun j hj => h.once hj (distinct_iff.1 hd j hj) fun hjk => hjk ▸ hk

end Records

/-- The holes of a chain are pairwise different slots. -/
theorem nodup_path {keys : Fin L.leafSpanSize → Nat} {base j : Int} {hs : List Int}
    (hc : Chain (origin keys) L.neighborSize base j hs) (h1 : base ≤ j) (h2 : j < base + L.leafSpanSize) :
    (slot L.leafSpanSize j :: hs.map (slot _)).Nodup := by
  rw [← List.map_cons]
  refine List.Nodup.map_on ?_ (hc.sorted.imp fun h => ne_of_gt h)
  have hw : ∀ i ∈ j :: hs, base ≤ i ∧ i < base + L.leafSpanSize := by
    intro i hi
    rcases List.mem_cons.1 hi with rfl | hi
    · exact ⟨h1, h2⟩
    · have := hc.bounds i hi
      exact ⟨by omega, by omega⟩
  exact fun i hi i' hi' h => Cyclic.slot_inj (hw i hi) (hw i' hi') h

theorem getLast_path (j : Int) (hs : List Int) :
    (slot L.leafSpanSize j :: hs.map (slot _)).getLast (List.cons_ne_nil _ _) =
    slot _ ((j :: hs).getLast (List.cons_ne_nil _ _)) := by
  rw [← List.getLast_map (f := slot L.leafSpanSize) (by simp)]
  rfl

/-- The items of a chain are items. -/
theorem chain_ne_zero {keys : Fin L.leafSpanSize → Nat} {base j : Int} {hs : List Int}
    (hc : Chain (origin keys) L.neighborSize base j hs) : ∀ h ∈ hs, keys (slot _ h) ≠ 0 := by
  induction hc with
  | done _ => simp
  | hop _ hv _ ih =>
    intro x hx
    rcases List.mem_cons.1 hx with rfl | hx
    · exact ne_zero_of_reach hv.1.2.1 hv.1.2.2
    · exact ih x hx

namespace Records

/-- An insertion into the probed window: the first empty slot and the chain from it. -/
structure InsertedAt (r : Records L) (k v n : Nat) (e : Int) (hs : List Int) (r' : Records L) : Prop where
  firstEmpty : r.firstEmpty (L.getHashedLeafEntryIndex k).val n = some e
  chain : Chain (origin r.keys) L.neighborSize (L.getHashedLeafEntryIndex k).val e hs
  inserted : Inserted r k v e hs r'

namespace InsertedAt

variable {r r' : Records L} {k v n : Nat} {e : Int} {hs : List Int} {s : Fin L.leafSpanSize}

theorem nodup (h : InsertedAt r k v n e hs r') : (slot L.leafSpanSize e :: hs.map (slot _)).Nodup :=
  nodup_path h.chain (firstEmpty_some h.firstEmpty).1 (firstEmpty_lt h.firstEmpty)

/-- The holes lie between the home of the key and the first empty slot. -/
theorem mem_path (h : InsertedAt r k v n e hs r') (hs' : s ∈ slot L.leafSpanSize e :: hs.map (slot _)) :
    ∃ i, ((L.getHashedLeafEntryIndex k).val : Int) ≤ i ∧ i ≤ e ∧ s = slot _ i := by
  have h1 := (firstEmpty_some h.firstEmpty).1
  rcases List.mem_cons.1 hs' with rfl | hs'
  · exact ⟨e, h1, le_rfl, rfl⟩
  · obtain ⟨i, hi, rfl⟩ := List.mem_map.1 hs'
    have := h.chain.bounds i hi
    exact ⟨i, by omega, by omega, rfl⟩

theorem items_off (h : InsertedAt r k v n e hs r') (hs' : s ∉ slot L.leafSpanSize e :: hs.map (slot _)) :
    r'.items s = r.items s := by
  have hl : s ≠ slot _ ((e :: hs).getLast (List.cons_ne_nil _ _)) := by
    rw [← getLast_path]
    exact fun he => hs' (he ▸ List.getLast_mem _)
  rw [h.inserted.items, Function.update_of_ne hl, Shift.shift_off hs']

/-- On the path there are items afterwards: the new one and those that moved. -/
theorem items_on (h : InsertedAt r k v n e hs r') (hs' : s ∈ slot L.leafSpanSize e :: hs.map (slot _)) :
    r'.items s = (k, v) ∨ ∃ t ∈ hs.map (slot L.leafSpanSize), r'.items s = r.items t := by
  rw [h.inserted.items]
  by_cases hl : s = slot _ ((e :: hs).getLast (List.cons_ne_nil _ _))
  · exact .inl (by rw [hl, Function.update_self])
  · rw [Function.update_of_ne hl]
    exact .inr (Shift.shift_to h.nodup hs' (by rwa [getLast_path]))

/-- An item that moved is found at an earlier hole. -/
theorem items_moved (h : InsertedAt r k v n e hs r') {t : Fin L.leafSpanSize} (ht : t ∈ hs.map (slot L.leafSpanSize)) :
    ∃ s ∈ slot L.leafSpanSize e :: hs.map (slot _), r'.items s = r.items t := by
  obtain ⟨s, hs', hl, he⟩ := Shift.shift_from (f := r.items) h.nodup ht
  rw [getLast_path] at hl
  exact ⟨s, hs', by rw [h.inserted.items, Function.update_of_ne hl, he]⟩

theorem adds (h : InsertedAt r k v n e hs r') : Adds r k v r' := by
  obtain ⟨-, -, h3, -⟩ := firstEmpty_some h.firstEmpty
  obtain ⟨σ, hσ⟩ := Shift.exists_perm_shift (f := r.items) (a := (k, v)) h.nodup
  refine ⟨_, σ, h3, fun s => ?_⟩
  rw [← hσ s, h.inserted.items, getLast_path]

/-- The empty slots afterwards are the old ones but for the first empty slot. -/
theorem keys_eq_zero (h : InsertedAt r k v n e hs r') (hk : k ≠ 0) :
    r'.keys s = 0 ↔ r.keys s = 0 ∧ s ≠ slot _ e := by
  by_cases hs' : s ∈ slot L.leafSpanSize e :: hs.map (slot _)
  · have hne : r'.keys s ≠ 0 := by
      rcases h.items_on hs' with he | ⟨t, ht, he⟩
      · exact fun h0 => hk ((congrArg Prod.fst he).symm.trans h0)
      · obtain ⟨i, hi, rfl⟩ := List.mem_map.1 ht
        rw [keys_of_items he]
        exact chain_ne_zero h.chain i hi
    refine ⟨fun h0 => absurd h0 hne, fun ⟨h0, hse⟩ => ?_⟩
    rcases List.mem_cons.1 hs' with he | hm
    · exact absurd he hse
    · obtain ⟨i, hi, rfl⟩ := List.mem_map.1 hm
      exact absurd h0 (chain_ne_zero h.chain i hi)
  · rw [keys_of_items (h.items_off hs')]
    exact ⟨fun h0 => ⟨h0, fun he => hs' (he ▸ List.mem_cons_self)⟩, fun h0 => h0.1⟩

/-- Outside the window from the home to the first empty slot nothing changes. -/
theorem off (h : InsertedAt r k v n e hs r')
    (hs' : ∀ i, ((L.getHashedLeafEntryIndex k).val : Int) ≤ i → i ≤ e → s ≠ slot _ i) : r' s = r s := by
  have hi : r'.items s = r.items s := h.items_off fun hm => by
    obtain ⟨i, h1, h2, he⟩ := h.mem_path hm
    exact hs' i h1 h2 he
  have hh : r'.hops s = r.hops s := by
    by_contra hne
    obtain ⟨i, h1, h2, he⟩ := h.inserted.hops s hne
    exact hs' i h1 h2 he
  exact ext_entry hi hh

end InsertedAt
end Records

/-- No chain lets the key in from the first empty slot among `n`. -/
def Stuck (r : Records L) (k n : Nat) : Prop :=
  ∀ e, r.firstEmpty (L.getHashedLeafEntryIndex k).val n = some e →
    ∀ hs, ¬Chain (origin r.keys) L.neighborSize (L.getHashedLeafEntryIndex k).val e hs

/-- Stuck at an empty slot of a part of the probe sequence is stuck for the whole leaf. -/
theorem Stuck.all {r : Records L} {k n : Nat} (h : Stuck r k n)
    (hn : n = L.leafSpanSize ∨ ∃ e, r.firstEmpty (L.getHashedLeafEntryIndex k).val n = some e) :
    Stuck r k L.leafSpanSize := by
  rcases hn with rfl | ⟨e, he⟩
  · exact h
  · intro e' he'
    have hle : e' = e := by
      have := firstEmpty_mono he (Nat.le_max_left n L.leafSpanSize)
      rw [firstEmpty_mono he' (Nat.le_max_right n L.leafSpanSize)] at this
      exact Option.some.inj this
    exact hle ▸ h e he

/-- **Insertion**: `hopscotch_insert_and_unlock` passes every assertion, and inserts along the greedy chain from the
first empty slot if that chain exists. -/
theorem insertion_spec {r : Records L} (hp : r.IsPlaced) {k : Nat} (v : Nat) (hk : k ≠ 0) (n : Nat) :
    (∃ e hs r', InsertedAt r k v n e hs r' ∧
      hopscotchInsertAndUnlock r k v n = .ok (some (r', slot _ e, (e :: hs).map (slot _)))) ∨
    (Stuck r k n ∧ hopscotchInsertAndUnlock r k v n = .ok none) := by
  simp only [hopscotchInsertAndUnlock]
  cases hfe : r.firstEmpty (L.getHashedLeafEntryIndex k).val n with
  | none => exact .inr ⟨fun e h => by simp [hfe] at h, rfl⟩
  | some e =>
    obtain ⟨h1, -, h3, -⟩ := firstEmpty_some hfe
    rcases hopAndSettle_spec (v := v) hp hk [] h1 (firstEmpty_lt hfe) h3 with
      ⟨hs, r₁, r', hc, -, hins, hl, hr'⟩ | ⟨hno, hl⟩
    · refine .inl ⟨e, hs, r', ⟨hfe, hc, hins⟩, ?_⟩
      simp only [hl, hr', Checked.ok_bind, Checked.pure_eq_ok, List.nil_append]
    · refine .inr ⟨fun e' he' hs => ?_, ?_⟩
      · obtain rfl := Option.some.inj (hfe.symm.trans he')
        exact hno hs
      · simp only [hl, Checked.ok_bind, Checked.pure_eq_ok]

/-- `hopscotch_insert_locally` inserts what the hop insertion into the whole leaf inserts, and stops where that one
fails. -/
theorem insertLocally_spec {r : Records L} (hp : r.IsPlaced) {k : Nat} (v : Nat) (hk : k ≠ 0) :
    (∃ e hs r', InsertedAt r k v L.leafSpanSize e hs r' ∧
      hopscotchInsertLocally r k v = .ok (r', slot _ ((e :: hs).getLast (List.cons_ne_nil _ _)))) ∨
    (Stuck r k L.leafSpanSize ∧
      (hopscotchInsertLocally r k v = .error .noEmpty ∨ hopscotchInsertLocally r k v = .error .hopFails)) := by
  simp only [hopscotchInsertLocally]
  cases hfe : r.firstEmpty (L.getHashedLeafEntryIndex k).val L.leafSpanSize with
  | none => exact .inr ⟨fun e h => by simp [hfe] at h, .inl rfl⟩
  | some e =>
    obtain ⟨h1, -, h3, -⟩ := firstEmpty_some hfe
    rcases hopAndSettle_spec (v := v) hp hk [] h1 (firstEmpty_lt hfe) h3 with
      ⟨hs, r₁, r', hc, -, hins, hl, hr'⟩ | ⟨hno, hl⟩
    · refine .inl ⟨e, hs, r', ⟨hfe, hc, hins⟩, ?_⟩
      simp only [hl, hr', Checked.ok_bind, Checked.pure_eq_ok]
    · refine .inr ⟨fun e' he' hs => ?_, .inr ?_⟩
      · obtain rfl := Option.some.inj (hfe.symm.trans he')
        exact hno hs
      · simp only [hl, Checked.ok_bind]

end Chime

import Chime.LeafRuns
import Chime.Routing

/-!
# Leaves and their ranges

A leaf stores no fences. `LeafOk L d l h lf` says what takes their place: the keys of the leaf lie between its boundary
`l` and the next boundary `h` of the directory, and `h` is the successor of its largest key. So an insert turns right
exactly when its key is not below `h` (`leafInsert_cases`), and the walk of a search or an update stops at the neighbor
that the parent has named (`leafUpdate_cases`, `leafSearch_cases`). A split cuts the range at its split key
(`SplitOf.ok`).
-/

namespace Chime

open Boundary (Next Extends Below)
open Records

variable {L : Layout}

/-! ## The items of a leaf -/

/-- The table with the pair written over the old one of its key, or with the pair added. -/
inductive Upserted (r : Records L) (k v : Nat) : Records L → Prop
  | overwrite (i : Fin L.leafSpanSize) : r.keys i = k → Upserted r k v (r.update i.val k v)
  | add {r' : Records L} : r'.IsPlaced → Adds r k v r' → Upserted r k v r'

namespace Upserted

variable {r r' : Records L} {k v j w : Nat}

theorem placed (h : Upserted r k v r') (hp : r.IsPlaced) : r'.IsPlaced := by
  cases h with
  | overwrite i hi => exact (placed_update hp hi).2
  | add hp' _ => exact hp'

theorem stored (h : Upserted r k v r') (hk : k ≠ 0) (hs : r'.Stored j w) : r.Stored j w ∨ (j = k ∧ w = v) := by
  cases h with
  | overwrite i hi =>
    obtain ⟨h0, s, hs⟩ := hs
    rw [items_update, Cyclic.slot_coe] at hs
    by_cases hsi : s = i
    · rw [hsi, Function.update_self, Prod.mk.injEq] at hs
      exact .inr ⟨hs.1.symm, hs.2.symm⟩
    · rw [Function.update_of_ne hsi] at hs
      exact .inl ⟨h0, s, hs⟩
  | add _ ha => exact (ha.stored hk).1 hs

theorem stored_of_ne (h : Upserted r k v r') (hk : k ≠ 0) (hj : j ≠ k) (hs : r.Stored j w) : r'.Stored j w := by
  cases h with
  | overwrite i hi =>
    obtain ⟨h0, s, hs⟩ := hs
    have hsi : s ≠ i := by
      rintro rfl
      exact hj ((congrArg Prod.fst hs).symm.trans hi)
    exact ⟨h0, s, by rw [items_update, Cyclic.slot_coe, Function.update_of_ne hsi, hs]⟩
  | add _ ha => exact (ha.stored hk).2 (.inl hs)

theorem stored_self (h : Upserted r k v r') (hk : k ≠ 0) : r'.Stored k v := by
  cases h with
  | overwrite i hi => exact ⟨hk, i, by rw [items_update, Cyclic.slot_coe, Function.update_self]⟩
  | add _ ha => exact (ha.stored hk).2 (.inr ⟨rfl, rfl⟩)

theorem hasKey (h : Upserted r k v r') (hk : k ≠ 0) : r'.HasKey j ↔ r.HasKey j ∨ j = k := by
  cases h with
  | overwrite i hi =>
    have hself : r.HasKey k := ⟨hk, i, hi⟩
    have hkeys : (r.update i.val k v).keys = r.keys := by
      rw [keys_update, Cyclic.slot_coe, ← hi, Function.update_eq_self]
    rw [HasKey, hkeys]
    exact ⟨.inl, fun h => h.elim id fun h => h ▸ hself⟩
  | add _ ha => exact ha.hasKey hk

/-- A key stays in one slot, unless a second copy is added. -/
theorem once (h : Upserted r k v r') (hj : j ≠ 0) (ho : r.Once j) (hk : j = k → r.HasKey j → r'.keys = r.keys) :
    r'.Once j := by
  cases h with
  | overwrite i hi =>
    have hkeys : (r.update i.val k v).keys = r.keys := by
      rw [keys_update, Cyclic.slot_coe, ← hi, Function.update_eq_self]
    exact ho.of_keys hj fun s => .inr (congrFun hkeys s)
  | add _ ha =>
    by_cases hr : j = k ∧ r.HasKey j
    · exact ho.of_keys hj fun s => .inr (congrFun (hk hr.1 hr.2) s)
    · exact ha.once hj ho fun hjk hr' => hr ⟨hjk, hr'⟩

end Upserted

/-- A key that is in one slot has one value. -/
theorem Records.Once.stored_unique {r : Records L} {k v w : Nat} (ho : r.Once k) (hv : r.Stored k v)
    (hw : r.Stored k w) : v = w := by
  obtain ⟨-, s, hs⟩ := hv
  obtain ⟨-, t, ht⟩ := hw
  obtain rfl := ho s t (congrArg Prod.fst hs) (congrArg Prod.fst ht)
  exact congrArg Prod.snd (hs.symm.trans ht)

/-! ## The range of a leaf -/

/-- The leaf that begins at `l`; the next boundary is `h`. -/
structure LeafOk (L : Layout) (d : Nat → Option Nat) (l h : Nat) (lf : LeafNode L) : Prop where
  placed : lf.records.IsPlaced
  valid : lf.metadata.valid = true
  next : Next d L.keyFull l h
  range : ∀ k, lf.records.HasKey k → l ≤ k ∧ k < h
  last : ∃ k, lf.records.HasKey k ∧ k + 1 = h
  sibling : Target L d h lf.siblingPtr
  root : lf.isRoot = true ↔ l = kKeyMin ∧ h = L.keyFull

theorem siblingPtr_eq {lf : LeafNode L} (h : lf.isRoot ≠ true) : lf.siblingPtr = lf.metadata.siblingPtr := by
  rw [LeafNode.siblingPtr, if_neg]
  simpa [LeafNode.isRoot] using h

namespace LeafOk

variable {d d' : Nat → Option Nat} {l h k v : Nat} {lf : LeafNode L} {lock : Valock L}

theorem inv [Arithmetic] (hok : LeafOk L d l h lf) (hb : Below d L.keyFull) (ht : LockTells lock lf.records) :
    LeafInv lf lock where
  placed := hok.placed
  valid := hok.valid
  tells := ht
  bound := fun s => by
    have htop := hok.next.le_top hb
    by_cases hs : lf.records.keys s = 0
    · omega
    · have := (hok.range _ ⟨hs, s, rfl⟩).2
      have := L.keySpace_ge
      simp only [Layout.ghostKey, Layout.keyFull] at *
      omega

/-- A larger directory that does not cut the range. -/
theorem grow (hok : LeafOk L d l h lf) (hd : Extends d d') (hn : Next d' L.keyFull l h) : LeafOk L d' l h lf :=
  ⟨hok.placed, hok.valid, hn, hok.range, hok.last, hok.sibling.mono hd, hok.root⟩

theorem routed (hok : LeafOk L d l h lf) (hk : 1 ≤ k) (hh : k < h) : Routed lf k := by
  obtain ⟨j, ⟨-, s, hs⟩, hj⟩ := hok.last
  exact ⟨by rw [kkeyNull_eq]; omega, s, by show k ≤ lf.records.keys s; omega⟩

/-- A write of the pair keeps the leaf in its range. -/
theorem upsert (hok : LeafOk L d l h lf) (hk : 1 ≤ k) (hl : l ≤ k) (hh : k < h) {r' : Records L}
    (hr : Upserted lf.records k v r') : LeafOk L d l h { lf with records := r' } where
  placed := hr.placed hok.placed
  valid := hok.valid
  next := hok.next
  range := fun j hj => by
    rcases (hr.hasKey (by omega)).1 hj with hj | rfl
    · exact hok.range j hj
    · exact ⟨hl, hh⟩
  last := by
    obtain ⟨j, hj, he⟩ := hok.last
    exact ⟨j, (hr.hasKey (by omega)).2 (.inl hj), he⟩
  sibling := hok.sibling
  root := hok.root

/-- Below the end of the range, no sibling pointer is the named neighbor by mistake. -/
theorem lt_of_sibling_eq (hok : LeafOk L d l h lf) (hinj : ∀ l l' a, d l = some a → d l' = some a → l = l')
    {g : GlobalAddress} (hn : Neighbor L d k g) (hg : g = lf.siblingPtr) : k < h := by
  obtain ⟨h', hk, ht⟩ := hn
  rwa [hok.sibling.unique hinj (hg ▸ ht)]

end LeafOk

/-! ## Inserts -/

section Inserts

variable [Arithmetic]

/-- How an insert of `k` ends on the leaf whose range ends at `h`. -/
inductive InsertCase (L : Layout) (d : Nat → Option Nat) (h : Nat) (lf : LeafNode L) (k v : Nat) (fromCache : Bool)
    (newAddr : GlobalAddress) : Checked (LeafInsert L) → Prop
  | invalid : fromCache = true → InsertCase L d h lf k v fromCache newAddr (.ok .invalid)
  | turnRight {g : GlobalAddress} : h ≤ k → Points d h g →
    InsertCase L d h lf k v fromCache newAddr (.ok (.turnRight g))
  | write {w : LeafWrite L} {r' : Records L} : k < h → Upserted lf.records k v r' →
      w.apply lf = { lf with records := r' } → LockTells w.lock r' →
      InsertCase L d h lf k v fromCache newAddr (.ok (.write w))
  | split {x : LeafSplit L} : k < h → SplitOf lf k v newAddr x →
    InsertCase L d h lf k v fromCache newAddr (.ok (.split x))
  | stuck {a : Assertion} : k < h → ¬lf.records.Distinct ∨ lf.records.HasKey k → a = .noEmpty ∨ a = .hopFails →
      InsertCase L d h lf k v fromCache newAddr (.error a)

/-- **An insert** that has come to a leaf at or before the one of its key. -/
theorem leafInsert_cases {d : Nat → Option Nat} {l h k : Nat} {lf : LeafNode L} {lock : Valock L}
    (hrange : lock.InRange (L.getHashedLeafEntryIndex k).val) (hok : LeafOk L d l h lf) (hb : Below d L.keyFull)
    (hinj : ∀ l l' a, d l = some a → d l' = some a → l = l')
    (ht : LockTells lock lf.records) (hk : 1 ≤ k) (hkf : k < L.keyFull) {siblingAddr : GlobalAddress}
    (hn : Neighbor L d k siblingAddr) (v : Nat) (fromCache : Bool) (newAddr : GlobalAddress) :
    InsertCase L d h lf k v fromCache newAddr (leafNodeInsert lf lock siblingAddr k v fromCache newAddr) := by
  have hi := hok.inv hb ht
  by_cases hkh : k < h
  · rcases leafNodeInsert_routed hi (hok.routed hk hkh) hrange v siblingAddr newAddr fromCache with ⟨hc, -, he⟩ | hres
    · rw [he]
      exact .invalid hc
    · cases hr : leafNodeInsert lf lock siblingAddr k v fromCache newAddr with
      | error a =>
        rw [hr] at hres
        cases hres with
        | stuck _ _ _ hd ha => exact .stuck hkh hd ha
      | ok y =>
        rw [hr] at hres
        cases hres with
        | update i w _ hki hw hl =>
          have hkeys := (placed_update hok.placed (v := v) hki).1
          exact .write hkh (.overwrite i hki) hw (hl ▸ ht.congr hkeys)
        | insert e hs r' w _ hins hw ht' => exact .write hkh (.add hins.inserted.placed hins.adds) hw ht'
        | split x _ _ hx => exact .split hkh hx
  · have hsib : siblingAddr ≠ lf.siblingPtr := fun he => hkh (hok.lt_of_sibling_eq hinj hn he)
    have hnr : lf.isRoot ≠ true := fun hr => by have := (hok.root.1 hr).2; omega
    have hpt := hok.sibling.points (show h ≠ L.keyFull by omega)
    have hsmall : ∀ s, lf.records.keys s < k := by
      intro s
      by_cases hs : lf.records.keys s = 0
      · omega
      · have := (hok.range _ ⟨hs, s, rfl⟩).2
        omega
    rw [leafNodeInsert_eq hi hrange v hkf]
    split
    · rename_i hc
      exact .invalid hc.1
    · rw [if_pos ⟨hsib, Bool.eq_false_iff.2 hnr, hsmall⟩, ← siblingPtr_eq hnr, if_pos]
      · exact .turnRight (by omega) hpt
      · obtain ⟨a, -, ha⟩ := hpt
        rw [ha]
        exact GlobalAddress.noConfusion

end Inserts

/-! ## Walks along the leaves -/

/-- How an update ends on a leaf. -/
inductive UpdateCase (L : Layout) (d : Nat → Option Nat) (h h' : Nat) (lf : LeafNode L) (lock : Valock L) (k v : Nat)
    (fromCache : Bool) : Checked (LeafUpdate L) → Prop
  | invalid : fromCache = true → UpdateCase L d h h' lf lock k v fromCache (.ok .invalid)
  | turnRight {g : GlobalAddress} : ¬lf.records.HasKey k → h < h' → Points d h g → fromCache = false →
      UpdateCase L d h h' lf lock k v fromCache (.ok (.turnRight g))
  | write {w : LeafWrite L} (i : Fin L.leafSpanSize) : lf.records.keys i = k →
      w.apply lf = { lf with records := lf.records.update i.val k v } → w.lock = lock →
      UpdateCase L d h h' lf lock k v fromCache (.ok (.write w))
  | keyMissing : ¬lf.records.HasKey k → h' ≤ h → UpdateCase L d h h' lf lock k v fromCache (.error .keyMissing)

/-- **An update** on a leaf before the neighbor `h'`. -/
theorem leafUpdate_cases {d : Nat → Option Nat} {l h h' k : Nat} {lf : LeafNode L} (hok : LeafOk L d l h lf)
    (hb : Below d L.keyFull) (hinj : ∀ l l' a, d l = some a → d l' = some a → l = l') {siblingAddr : GlobalAddress}
    (ht : Target L d h' siblingAddr) (hl : l < h') (hk : 1 ≤ k) (buffer : LeafNode L) (lock : Valock L) (v : Nat)
    (fromCache : Bool) (speculativeIdx : Option (Fin L.leafSpanSize)) :
    UpdateCase L d h h' lf lock k v fromCache
      (leafNodeUpdate lf buffer lock siblingAddr k v fromCache speculativeIdx) := by
  have hres := leafNodeUpdate_spec hok.placed hok.valid buffer lock siblingAddr (show k ≠ 0 by omega) v fromCache
    speculativeIdx
  cases hr : leafNodeUpdate lf buffer lock siblingAddr k v fromCache speculativeIdx with
  | error a =>
    rw [hr] at hres
    cases hres with
    | siblingNull _ hs hnull =>
      obtain ⟨b, -, hg⟩ := (hok.sibling.walk hb hok.next ht hl hs).2
      rw [hnull] at hg
      cases hg
    | keyMissing hno hs => exact .keyMissing hno (ht.unique hinj (hs ▸ hok.sibling)).le
  | ok y =>
    rw [hr] at hres
    cases hres with
    | write i w hi hw hl => exact .write i hi hw hl
    | invalid hc _ => exact .invalid hc
    | turnRight hno hs _ hfc =>
      obtain ⟨h1, h2⟩ := hok.sibling.walk hb hok.next ht hl hs
      exact .turnRight hno h1 h2 hfc

/-- How one round of a search ends on a leaf. -/
inductive SearchCase (L : Layout) (d : Nat → Option Nat) (h h' : Nat) (lf : LeafNode L) (k : Nat) (fromCache : Bool) :
    Checked LeafSearch → Prop
  | invalid : fromCache = true → SearchCase L d h h' lf k fromCache (.ok .invalid)
  | turnRight {g : GlobalAddress} : ¬lf.records.HasKey k → h < h' → Points d h g → fromCache = false →
      SearchCase L d h h' lf k fromCache (.ok (.turnRight g))
  | found {v : Nat} : lf.records.Stored k v → SearchCase L d h h' lf k fromCache (.ok (.done v))
  | absent : ¬lf.records.HasKey k → h' ≤ h → SearchCase L d h h' lf k fromCache (.ok (.done kValueNull))

/-- **A search** on a leaf before the neighbor `h'`. -/
theorem leafSearch_cases {d : Nat → Option Nat} {l h h' k : Nat} {lf : LeafNode L} (hok : LeafOk L d l h lf)
    (hb : Below d L.keyFull) (hinj : ∀ l l' a, d l = some a → d l' = some a → l = l') {siblingAddr : GlobalAddress}
    (ht : Target L d h' siblingAddr) (hl : l < h') (hk : 1 ≤ k) (buffer : LeafNode L) (fromCache : Bool)
    (speculativeIdx : Option (Fin L.leafSpanSize)) :
    SearchCase L d h h' lf k fromCache (leafNodeSearch lf buffer siblingAddr k fromCache speculativeIdx) := by
  have hk0 : k ≠ 0 := by omega
  have hres := leafNodeSearch_spec hok.placed buffer siblingAddr hk0 fromCache (fun _ => hok.valid) speculativeIdx
  cases hr : leafNodeSearch lf buffer siblingAddr k fromCache speculativeIdx with
  | error a =>
    rw [hr] at hres
    cases hres with
    | siblingNull _ hs hnull =>
      obtain ⟨b, -, hg⟩ := (hok.sibling.walk hb hok.next ht hl hs).2
      rw [hnull] at hg
      cases hg
  | ok y =>
    rw [hr] at hres
    cases hres with
    | found i hi => exact .found ⟨hk0, i, Prod.ext hi rfl⟩
    | invalid hc _ => exact .invalid hc
    | turnRight hno hs _ hfc =>
      obtain ⟨h1, h2⟩ := hok.sibling.walk hb hok.next ht hl hs
      exact .turnRight hno h1 h2 hfc
    | absent hno hs => exact .absent hno (ht.unique hinj (hs ▸ hok.sibling)).le

/-! ## Splits -/

section Splits

variable [Arithmetic] {d : Nat → Option Nat} {l h k v new : Nat} {lf : LeafNode L} {x : LeafSplit L}

/-- The items of the two leaves. -/
theorem SplitOf.stored {newAddr : GlobalAddress} (hx : SplitOf lf k v newAddr x) (hk : k ≠ 0) {j w : Nat} :
    (x.left.records.Stored j w ∨ x.right.records.Stored j w) ↔ lf.records.Stored j w ∨ (j = k ∧ w = v) := by
  obtain ⟨m, l, s, hh, ⟨-, ⟨e, hs, hins⟩, hr⟩ | ⟨-, hl, e, hs, hins⟩⟩ := hx.halves
  · rw [hins.adds.stored hk, hr, hh.stored_left, hh.stored_right]
    have := Nat.lt_or_ge j m
    tauto
  · rw [hins.adds.stored hk, hl, hh.stored_left, hh.stored_right]
    have := Nat.lt_or_ge j m
    tauto

theorem SplitOf.hasKey {newAddr : GlobalAddress} (hx : SplitOf lf k v newAddr x) (hk : k ≠ 0) {j : Nat} :
    (x.left.records.HasKey j ∨ x.right.records.HasKey j) ↔ lf.records.HasKey j ∨ j = k := by
  simp only [hasKey_iff, ← exists_or, hx.stored hk]
  simp only [exists_or, exists_and_left, exists_eq, and_true]

/-- Every key of the left leaf is below every key of the right one. -/
theorem SplitOf.sides {newAddr : GlobalAddress} (hx : SplitOf lf k v newAddr x) (hk : k ≠ 0) :
    ∃ m, (∀ j, x.left.records.HasKey j → j < m) ∧ ∀ j, x.right.records.HasKey j → m ≤ j := by
  obtain ⟨m, l, s, hh, ⟨hkm, ⟨e, hs, hins⟩, hr⟩ | ⟨hkm, hl, e, hs, hins⟩⟩ := hx.halves
  · refine ⟨m, fun j hj => ?_, fun j hj => (hh.hasKey_right.1 (hr ▸ hj)).2⟩
    rcases (hins.adds.hasKey hk).1 hj with hj | rfl
    · exact (hh.hasKey_left.1 hj).2
    · exact hkm
  · refine ⟨m, fun j hj => (hh.hasKey_left.1 (hl ▸ hj)).2, fun j hj => ?_⟩
    rcases (hins.adds.hasKey hk).1 hj with hj | rfl
    · exact (hh.hasKey_right.1 hj).2
    · exact hkm

theorem SplitOf.placed {newAddr : GlobalAddress} (hx : SplitOf lf k v newAddr x) :
    x.left.records.IsPlaced ∧ x.right.records.IsPlaced := by
  obtain ⟨m, l, s, hh, ⟨-, ⟨e, hs, hins⟩, hr⟩ | ⟨-, hl, e, hs, hins⟩⟩ := hx.halves
  · exact ⟨hins.inserted.placed, hr ▸ hh.right_placed⟩
  · exact ⟨hl ▸ hh.left_placed, hins.inserted.placed⟩

/-- A largest key is a key. -/
theorem LockTells.exists_hasKey {lock : Valock L} {r : Records L} (ht : LockTells lock r) : ∃ j, r.HasKey j := by
  obtain ⟨s, -, hs, -⟩ := ht.maxKeyIdx
  exact ⟨_, hs, s, rfl⟩

/-- A key stays in one slot, unless it is split off together with a second copy. -/
theorem SplitOf.once {newAddr : GlobalAddress} (hx : SplitOf lf k v newAddr x) {j : Nat} (hj : j ≠ 0)
    (ho : lf.records.Once j) (hk : j = k → ¬lf.records.HasKey j) : x.left.records.Once j ∧ x.right.records.Once j := by
  obtain ⟨m, l, s, hh, ⟨-, ⟨e, hs, hins⟩, hr⟩ | ⟨-, hl, e, hs, hins⟩⟩ := hx.halves
  · exact ⟨hins.adds.once hj (ho.of_keys hj hh.keys_left) fun hjk hl => hk hjk (hh.hasKey_left.1 hl).1,
      hr ▸ ho.of_keys hj hh.keys_right⟩
  · exact ⟨hl ▸ ho.of_keys hj hh.keys_left,
      hins.adds.once hj (ho.of_keys hj hh.keys_right) fun hjk hr => hk hjk (hh.hasKey_right.1 hr).1⟩

/-- **The two leaves of a split**, once the right one is in the directory. -/
theorem SplitOf.ok (hx : SplitOf lf k v (.at new) x) (hok : LeafOk L d l h lf) (hb : Below d L.keyFull) (h0 : 1 ≤ l)
    (hl : l ≤ k) (hh : k < h) : (l < x.splitKey ∧ x.splitKey < h) ∧
      LeafOk L (Function.update d x.splitKey (some new)) l x.splitKey x.left ∧
      LeafOk L (Function.update d x.splitKey (some new)) x.splitKey h x.right := by
  have hk0 : k ≠ 0 := by omega
  have htop := hok.next.le_top hb
  obtain ⟨m, hleft, hright⟩ := hx.sides hk0
  -- every key of the two leaves is in the old range
  have hrange : ∀ j, x.left.records.HasKey j ∨ x.right.records.HasKey j → l ≤ j ∧ j < h := by
    intro j hj
    rcases (hx.hasKey hk0).1 hj with hj | rfl
    · exact hok.range j hj
    · exact ⟨hl, hh⟩
  -- the split key is the successor of the largest key on the left
  obtain ⟨s, ⟨hs0, hmax⟩, hsk⟩ := hx.splitKey
  have hsl : x.left.records.HasKey (x.left.records.keys s) := ⟨hs0, s, rfl⟩
  have hslr := hrange _ (.inl hsl)
  rw [L.keySucc_of_lt (by omega)] at hsk
  -- the largest key of the old leaf is on the right
  obtain ⟨i, hi⟩ := hx.right_tells.exists_hasKey
  have hir := hrange _ (.inr hi)
  have hmi := hright i hi
  have hlt := hleft _ hsl
  obtain ⟨j, hj, hjh⟩ := hok.last
  have hjr : x.right.records.HasKey j := by
    rcases (hx.hasKey hk0).2 (.inl hj) with hjl | hjr
    · have := hleft j hjl
      omega
    · exact hjr
  have h1 : l < x.splitKey := by omega
  have h2 : x.splitKey < h := by omega
  have hnl : x.left.isRoot = false := by rw [LeafNode.isRoot, hx.left_metadata]; simp
  have hsibr : x.right.metadata.siblingPtr = lf.siblingPtr := by rw [hx.right_metadata]
  have hnr : x.right.isRoot = false := by
    rw [LeafNode.isRoot, hsibr, LeafNode.siblingPtr]
    split <;> simp_all
  have hfree : d x.splitKey = none := hok.next.free _ h1 h2
  refine ⟨⟨h1, h2⟩, ⟨hx.placed.1, by rw [hx.left_metadata], hok.next.cutLeft h1 h2, ?_, ⟨_, hsl, hsk.symm⟩, ?_, ?_⟩,
    ⟨hx.placed.2, by rw [hx.right_metadata], hok.next.cutRight h1 h2, ?_, ⟨j, hjr, hjh⟩, ?_, ?_⟩⟩
  · rintro j ⟨hj0, t, ht⟩
    have := hmax t
    exact ⟨(hrange j (.inl ⟨hj0, t, ht⟩)).1, by omega⟩
  · rw [siblingPtr_eq (by simp [hnl]), hx.left_metadata]
    exact .inr ⟨new, Function.update_self .., rfl⟩
  · rw [hnl]
    simp only [Bool.false_eq_true, false_iff, not_and]
    omega
  · intro j hj
    have := hright j hj
    exact ⟨by omega, (hrange j (.inr hj)).2⟩
  · rw [siblingPtr_eq (by simp [hnr]), hsibr]
    exact hok.sibling.mono (.cut hfree)
  · rw [hnr, kKeyMin_eq]
    simp only [Bool.false_eq_true, false_iff, not_and]
    omega

end Splits
end Chime

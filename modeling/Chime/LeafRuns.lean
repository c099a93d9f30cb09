import Chime.LeafLookup

/-!
# Runs on a leaf

`Reachable` are the unlocked leaves, with their lock words, that the root leaf becomes under inserts of routed keys,
updates and splits. Every step keeps `LeafInv` (`leafInv_insert`, `leafInv_update`, `leafInv_split`), so the lock word
tells the truth in every run (`lock_word_tells`). In a `LeafRun` of `Seen` the inserts see the stored copy of their
key; there keys stay distinct, and an insert leaves exactly one record with its key (`upsert_unique`).
-/

namespace Chime

open Cyclic (slot gap)
open Records

variable {L : Layout}

/-- The key may be routed to the leaf: it is not above the largest key. -/
def Routed (lf : LeafNode L) (k : Nat) : Prop := k ≠ kkeyNull ∧ ∃ s, k ≤ (lf.records s).key

/-- The unlocked leaves of the runs from the root leaf whose inserts all meet the guard `G`. -/
inductive LeafRun (G : LeafNode L → Valock L → GlobalAddress → Nat → Prop) : LeafNode L → Valock L → Prop
  | root {lf : LeafNode L} {lock : Valock L} : rootLeaf L = .ok (lf, lock) → LeafRun G lf lock
  | insert {lf : LeafNode L} {lock : Valock L} {siblingAddr newAddr : GlobalAddress} {k v : Nat} {fromCache : Bool}
      {w : LeafWrite L} : LeafRun G lf lock → Routed lf k → G lf lock siblingAddr k →
      leafNodeInsert lf lock siblingAddr k v fromCache newAddr = .ok (.write w) → LeafRun G (w.apply lf) w.lock
  | splitLeft {lf : LeafNode L} {lock : Valock L} {siblingAddr newAddr : GlobalAddress} {k v : Nat} {fromCache : Bool}
      {x : LeafSplit L} : LeafRun G lf lock → Routed lf k → G lf lock siblingAddr k →
      leafNodeInsert lf lock siblingAddr k v fromCache newAddr = .ok (.split x) → LeafRun G x.left x.leftLock
  | splitRight {lf : LeafNode L} {lock : Valock L} {siblingAddr newAddr : GlobalAddress} {k v : Nat} {fromCache : Bool}
      {x : LeafSplit L} : LeafRun G lf lock → Routed lf k → G lf lock siblingAddr k →
      leafNodeInsert lf lock siblingAddr k v fromCache newAddr = .ok (.split x) → LeafRun G x.right x.rightLock
  | update {lf buffer : LeafNode L} {lock : Valock L} {siblingAddr : GlobalAddress} {k v : Nat} {fromCache : Bool}
      {speculativeIdx : Option (Fin L.leafSpanSize)} {w : LeafWrite L} : LeafRun G lf lock → k ≠ kkeyNull →
      leafNodeUpdate lf buffer lock siblingAddr k v fromCache speculativeIdx = .ok (.write w) →
      LeafRun G (w.apply lf) w.lock

/-- The unlocked leaves of all runs from the root leaf. -/
def Reachable (lf : LeafNode L) (lock : Valock L) : Prop := LeafRun (fun _ _ _ _ => True) lf lock

/-- The root leaf, or the right leaf of the last split, after inserts of the pairs one after another. -/
def insertAll : List (Nat × Nat) → Option (LeafNode L × Valock L)
  | [] => (rootLeaf L).toOption
  | (k, v) :: kvs => do
    let (lf, lock) ← insertAll kvs
    if k ≠ kkeyNull ∧ k ≤ (lf.records.getEntry lock.getMaxKeyIdx).key then
      match leafNodeInsert lf lock .null k v false (.at 1) with
      | .ok (.write w) => some (w.apply lf, w.lock)
      | .ok (.split x) => some (x.right, x.rightLock)
      | _ => none
    else none

/-- The inserts meet the guard. -/
def GuardAll (G : LeafNode L → Valock L → GlobalAddress → Nat → Prop) : List (Nat × Nat) → Prop
  | [] => True
  | (k, _) :: kvs => GuardAll G kvs ∧ ∀ p ∈ insertAll kvs, G p.1 p.2 .null k

theorem leafRun_of_insertAll {G : LeafNode L → Valock L → GlobalAddress → Nat → Prop} {kvs : List (Nat × Nat)} :
    GuardAll G kvs → ∀ {lf : LeafNode L} {lock : Valock L}, insertAll kvs = some (lf, lock) → LeafRun G lf lock := by
  induction kvs with
  | nil =>
    intro _ lf lock h
    refine .root ?_
    rw [insertAll] at h
    cases hr : rootLeaf L with
    | error a => rw [hr] at h; cases h
    | ok p => rw [hr] at h; cases h; rfl
  | cons kv kvs ih =>
    intro hguard lf lock h
    obtain ⟨k, v⟩ := kv
    simp only [insertAll, Option.bind_eq_bind, Option.bind_eq_some_iff] at h
    obtain ⟨⟨lf₀, lock₀⟩, h₀, hres⟩ := h
    have hG := hguard.2 _ h₀
    split at hres
    swap
    · cases hres
    rename_i hk
    have hrouted : Routed lf₀ k := ⟨hk.1, _, hk.2⟩
    split at hres
    · rename_i w hw
      cases hres
      exact .insert (ih hguard.1 h₀) hrouted hG hw
    · rename_i x hx
      cases hres
      exact .splitRight (ih hguard.1 h₀) hrouted hG hx
    · cases hres

theorem guardAll_true : ∀ kvs : List (Nat × Nat), GuardAll (L := L) (fun _ _ _ _ => True) kvs
  | [] => trivial
  | _ :: kvs => ⟨guardAll_true kvs, fun _ _ => trivial⟩

theorem reachable_of_insertAll {kvs : List (Nat × Nat)} {lf : LeafNode L} {lock : Valock L}
    (h : insertAll kvs = some (lf, lock)) : Reachable lf lock := leafRun_of_insertAll (guardAll_true kvs) h

/-- The default build with a hash that sends all keys but the ghost key to one slot. -/
def crowded : Layout := .default fun k => if k = 256 ^ 8 - 2 then 63 else 0

/-- The leaf after the keys `1, …, 9`: the last insert has split it and left the slots 1, 2 and 3 empty. -/
def crowdedLeaf : Option (LeafNode crowded × Valock crowded) :=
  insertAll [(9, 19), (8, 18), (7, 17), (6, 16), (5, 15), (4, 14), (3, 13), (2, 12), (1, 11)]

/-! ## The root leaf -/

section LeafSteps

variable [Arithmetic]

omit [Arithmetic] in
theorem ghostKey_lt : L.ghostKey < L.keyFull := by
  have := L.keySpace_ge
  simp only [Layout.ghostKey, Layout.keyFull]
  omega

omit [Arithmetic] in
theorem ghostKey_pos : L.ghostKey ≠ 0 := by
  have := L.keySpace_ge
  simp only [Layout.ghostKey]
  omega

omit [Arithmetic] in
/-- In the root leaf the ghost key sits in its home. -/
theorem rootRecords_eq : ∃ r' :
    Records L, hopscotchInsertLocally (LeafNode.empty (L := L)).records L.ghostKey kValueNull =
    .ok (r', L.getHashedLeafEntryIndex L.ghostKey) ∧ r'.IsPlaced ∧ r'.Distinct ∧
    r'.keys = Function.update (fun _ => 0) (L.getHashedLeafEntryIndex L.ghostKey) L.ghostKey := by
  have hH := L.neighborSize_pos
  have hempty : (LeafNode.empty (L := L)).records.IsPlaced := Placed.empty
  have hfe : ∀ n, 0 < n → (LeafNode.empty (L := L)).records.firstEmpty (L.getHashedLeafEntryIndex L.ghostKey).val n =
      some ((L.getHashedLeafEntryIndex L.ghostKey).val : Int) := by
    intro n hn
    cases h : (LeafNode.empty (L := L)).records.firstEmpty (L.getHashedLeafEntryIndex L.ghostKey).val n with
    | none => exact absurd rfl (firstEmpty_none h _ le_rfl (by omega))
    | some e =>
      obtain ⟨h1, -, -, h4⟩ := firstEmpty_some h
      by_contra hne
      exact h4 _ le_rfl (lt_of_le_of_ne h1 fun he => hne (by rw [he])) rfl
  rcases insertLocally_spec hempty kValueNull ghostKey_pos with ⟨e, hs, r', h, he⟩ | ⟨hst, -⟩
  swap
  · exact absurd (.done (by omega)) (hst _ (hfe _ L.leafSpanSize_pos) [])
  have hee : e = (L.getHashedLeafEntryIndex L.ghostKey).val :=
    Option.some.inj (h.firstEmpty.symm.trans (hfe _ L.leafSpanSize_pos))
  subst hee
  have hnil : hs = [] := h.chain.unique (.done (by omega))
  subst hnil
  refine ⟨r', by simpa using he, h.inserted.placed, h.adds.distinct (fun s t _ h0 => absurd rfl h0)
    (fun ⟨h0, s, hs⟩ => h0 hs.symm), ?_⟩
  have hi := h.inserted.items
  funext s
  by_cases hs : s = L.getHashedLeafEntryIndex L.ghostKey
  · subst hs
    have : r'.items (L.getHashedLeafEntryIndex L.ghostKey) = (L.ghostKey, kValueNull) := by
      rw [hi]
      simp
    rw [Function.update_self]
    exact congrArg Prod.fst this
  · have : r'.items s = (0, 0) := by
      rw [hi]
      simp only [List.map_nil, Shift.shift_nil, List.getLast_singleton, Cyclic.slot_coe]
      rw [Function.update_of_ne hs]
      rfl
    rw [Function.update_of_ne hs]
    exact congrArg Prod.fst this

/-- **The root leaf** can be built, and its lock word tells the truth. -/
theorem rootLeaf_spec (L : Layout) :
    ∃ lf lock, rootLeaf L = .ok (lf, lock) ∧ LeafInv lf lock ∧ lf.records.Distinct := by
  obtain ⟨r', hr', hp, hd, hkeys⟩ := rootRecords_eq (L := L)
  set home := L.getHashedLeafEntryIndex L.ghostKey with hhome
  obtain ⟨w, hw, hidx, hbits⟩ := (Valock.mk' (L := L) 0 home.val).updateVacancy_spec home.val home.val [] (by simp)
  refine ⟨⟨⟨true, .widest⟩, r'⟩, w, ?_, ⟨hp, rfl, ⟨⟨home, ?_, ?_, ?_⟩, ?_⟩, ?_⟩, hd⟩
  · simp only [rootLeaf, hr', Checked.ok_bind, hw, Checked.pure_eq_ok]
  · rw [hidx]
    exact getMaxKeyIdx_ofNat home
  · simp only [hkeys, Function.update_self]
    exact ghostKey_pos
  · intro t
    simp only [hkeys, Function.update_apply]
    split_ifs <;> omega
  · intro b hb hbit
    -- a bucket with a clear bit is not the bucket of the ghost key, and has a slot
    obtain ⟨x, hlt, hbucket⟩ := Arithmetic.findBucket_surj L.buckets hb
    refine ⟨⟨x, hlt⟩, hbucket, ?_⟩
    simp only [hkeys]
    refine Function.update_of_ne (fun he => ?_) _ _
    rcases (hbits b hb).1 hbit with ⟨x, hx, -⟩ | ⟨hcov, -⟩
    · simp at hx
    · refine hcov ?_
      have hbh : Valock.bucketOf L home.val = b := by rw [← he]; exact hbucket
      rw [Valock.Covered, hbh, if_pos le_rfl]
      exact ⟨le_rfl, le_rfl⟩
  · intro s
    simp only [hkeys, Function.update_apply]
    split_ifs
    · exact le_rfl
    · exact Nat.zero_le _

/-! ## The steps keep the invariant -/

theorem Routed.lt_keyFull {lf : LeafNode L} {lock : Valock L} {k : Nat} (h : Routed lf k) (hi : LeafInv lf lock) :
    k < L.keyFull := by
  obtain ⟨-, s, hs⟩ := h
  exact Nat.lt_of_le_of_lt (hs.trans (hi.bound s)) ghostKey_lt

/-- An insert of a routed key into an unlocked leaf. -/
theorem leafNodeInsert_routed {lf : LeafNode L} {lock : Valock L} (hi : LeafInv lf lock) {k : Nat} (hk : Routed lf k)
    (hr : lock.InRange (L.getHashedLeafEntryIndex k).val) (v : Nat) (siblingAddr newAddr : GlobalAddress) (fromCache : Bool) :
    (fromCache = true ∧ siblingAddr ≠ lf.siblingPtr ∧
      leafNodeInsert lf lock siblingAddr k v fromCache newAddr = .ok .invalid) ∨
    InsertResult lf lock (insertReads lf lock siblingAddr k) k v
      (insertReadNum lock (L.getHashedLeafEntryIndex k).val) newAddr
      (leafNodeInsert lf lock siblingAddr k v fromCache newAddr) := by
  rw [leafNodeInsert_eq hi hr v (hk.lt_keyFull hi)]
  split
  · rename_i hc
    exact .inl ⟨hc.1, hc.2, rfl⟩
  have hno : ¬(siblingAddr ≠ lf.siblingPtr ∧ lf.isRoot = false ∧ ∀ s, lf.records.keys s < k) := by
    rintro ⟨-, -, h⟩
    obtain ⟨-, s, hs⟩ := hk
    exact absurd (h s) (Nat.not_lt.2 hs)
  rw [if_neg hno]
  exact .inr (insertIntoLeaf_spec hi hr v hk.1 hk.2 (window_subset_insertReads _ _ _ _) newAddr)

omit [Arithmetic] in
theorem placed_update {r : Records L} (hp : r.IsPlaced) {i : Fin L.leafSpanSize} {k v : Nat} (hi : r.keys i = k) :
    (r.update i.val k v).keys = r.keys ∧ (r.update i.val k v).IsPlaced := by
  have hk : (r.update i.val k v).keys = r.keys := by
    rw [keys_update, Cyclic.slot_coe, ← hi, Function.update_eq_self]
  refine ⟨hk, ?_⟩
  rw [IsPlaced, hk, hops_update]
  exact hp

theorem leafInv_entry {lf : LeafNode L} {lock : Valock L} (hi : LeafInv lf lock) {i : Fin L.leafSpanSize} {k v : Nat}
    (hk : lf.records.keys i = k) {w : LeafWrite L}
    (hw : w.apply lf = { lf with records := lf.records.update i.val k v }) (hl : w.lock = lock) :
    LeafInv (w.apply lf) w.lock := by
  obtain ⟨hkeys, hp⟩ := placed_update hi.placed (v := v) hk
  rw [hw, hl]
  exact ⟨hp, hi.valid, hi.tells.congr hkeys, fun s => by rw [hkeys]; exact hi.bound s⟩

omit [Arithmetic] in
/-- The keys after an insertion stay in bounds. -/
theorem Records.Adds.bound {r r' : Records L} {k v b : Nat} (h : Adds r k v r') (hr : ∀ s, r.keys s ≤ b) (hk : k ≤ b) :
    ∀ s, r'.keys s ≤ b := by
  intro s
  obtain ⟨t, σ, -, hσ⟩ := h
  have he : r'.keys s = (Function.update r.items t (k, v) (σ s)).1 := congrArg Prod.fst (hσ s)
  rw [he]
  by_cases hst : σ s = t
  · rwa [hst, Function.update_self]
  · rw [Function.update_of_ne hst]
    exact hr _

theorem leafInv_inserted {lf : LeafNode L} {lock : Valock L} (hi : LeafInv lf lock) {k v n : Nat} (hk : Routed lf k)
    {e : Int} {hs : List Int} {r' : Records L} {w : LeafWrite L} (h : InsertedAt lf.records k v n e hs r')
    (hw : w.apply lf = { lf with records := r' }) (ht : LockTells w.lock r') : LeafInv (w.apply lf) w.lock := by
  obtain ⟨-, s, hs⟩ := hk
  rw [hw]
  exact ⟨h.inserted.placed, hi.valid, ht, h.adds.bound hi.bound (hs.trans (hi.bound s))⟩

omit [Arithmetic] in
/-- The halves of a table stay in bounds. -/
theorem bound_of_keys {r t : Records L} {b : Nat} (hr : ∀ s, r.keys s ≤ b)
    (h : ∀ i, t.keys i = 0 ∨ t.keys i = r.keys i) :
    ∀ s, t.keys s ≤ b := by
  intro s
  rcases h s with h | h
  · omega
  · exact h ▸ hr s

theorem SplitOf.leafInv {lf : LeafNode L} {lock : Valock L} (hi : LeafInv lf lock) {k v : Nat} (hk : Routed lf k)
    {newAddr : GlobalAddress} {x : LeafSplit L} (h : SplitOf lf k v newAddr x) :
    LeafInv x.left x.leftLock ∧ LeafInv x.right x.rightLock := by
  obtain ⟨-, s, hs⟩ := hk
  have hkb : k ≤ L.ghostKey := hs.trans (hi.bound s)
  obtain ⟨m, l, t, hh, hcase⟩ := h.halves
  have hbl := bound_of_keys hi.bound hh.keys_left
  have hbr := bound_of_keys hi.bound hh.keys_right
  have hvl : x.left.metadata.valid = true := by rw [h.left_metadata]
  have hvr : x.right.metadata.valid = true := by rw [h.right_metadata]
  rcases hcase with ⟨-, ⟨e, hs, hins⟩, hr⟩ | ⟨-, hl, e, hs, hins⟩
  · exact ⟨⟨hins.inserted.placed, hvl, h.left_tells, hins.adds.bound hbl hkb⟩,
      ⟨hr ▸ hh.right_placed, hvr, h.right_tells, hr ▸ hbr⟩⟩
  · exact ⟨⟨hl ▸ hh.left_placed, hvl, h.left_tells, hl ▸ hbl⟩,
      ⟨hins.inserted.placed, hvr, h.right_tells, hins.adds.bound hbr hkb⟩⟩

end LeafSteps

/-- An insert keeps the invariant. -/
theorem leafInv_insert {lf : LeafNode L} {lock : Valock L} (hi : LeafInv lf lock) {k : Nat} (hk : Routed lf k) {v : Nat}
    {siblingAddr newAddr : GlobalAddress} {fromCache : Bool} {w : LeafWrite L}
    (h : leafNodeInsert lf lock siblingAddr k v fromCache newAddr = .ok (.write w)) : LeafInv (w.apply lf) w.lock := by
  rcases leafNodeInsert_routed hi hk (lock.inRange_exact _) v siblingAddr newAddr fromCache with ⟨-, -, he⟩ | hres
  · cases he.symm.trans h
  · rw [h] at hres
    cases hres with
    | update i _ _ hki hw hl => exact leafInv_entry hi hki hw hl
    | insert e hs r' _ _ hins hw ht => exact leafInv_inserted hi hk hins hw ht

theorem leafInv_split {lf : LeafNode L} {lock : Valock L} (hi : LeafInv lf lock) {k : Nat} (hk : Routed lf k) {v : Nat}
    {siblingAddr newAddr : GlobalAddress} {fromCache : Bool} {x : LeafSplit L}
    (h : leafNodeInsert lf lock siblingAddr k v fromCache newAddr = .ok (.split x)) :
    LeafInv x.left x.leftLock ∧ LeafInv x.right x.rightLock := by
  rcases leafNodeInsert_routed hi hk (lock.inRange_exact _) v siblingAddr newAddr fromCache with ⟨-, -, he⟩ | hres
  · cases he.symm.trans h
  · rw [h] at hres
    cases hres with
    | split _ _ _ hsp => exact hsp.leafInv hi hk

/-- An update keeps the invariant. -/
theorem leafInv_update {lf buffer : LeafNode L} {lock : Valock L} (hi : LeafInv lf lock) {k : Nat} (hk : k ≠ 0)
    {v : Nat} {siblingAddr : GlobalAddress} {fromCache : Bool} {speculativeIdx : Option (Fin L.leafSpanSize)}
    {w : LeafWrite L} (h : leafNodeUpdate lf buffer lock siblingAddr k v fromCache speculativeIdx = .ok (.write w)) :
    LeafInv (w.apply lf) w.lock := by
  have hres := leafNodeUpdate_spec hi.placed hi.valid buffer lock siblingAddr hk v fromCache speculativeIdx
  rw [h] at hres
  cases hres with
  | write i _ hki hw hl => exact leafInv_entry hi hki hw hl

/-- **Every run** keeps the invariant. -/
theorem LeafRun.leafInv {G : LeafNode L → Valock L → GlobalAddress → Nat → Prop} {lf : LeafNode L} {lock : Valock L}
    (h : LeafRun G lf lock) : LeafInv lf lock := by
  induction h with
  | root h =>
    obtain ⟨lf, lock, he, hi, -⟩ := rootLeaf_spec L
    obtain ⟨rfl, rfl⟩ := Prod.mk.inj (Except.ok.inj (h.symm.trans he))
    exact hi
  | insert _ hk _ h ih => exact leafInv_insert ih hk h
  | splitLeft _ hk _ h ih => exact (leafInv_split ih hk h).1
  | splitRight _ hk _ h ih => exact (leafInv_split ih hk h).2
  | update _ hk h ih => exact leafInv_update ih hk h

/-- **The lock word tells the truth** in every run: `max_key_idx` is a slot of the largest key, a bucket with a clear
bit has an empty slot, and no insert fails the assertion on empty slots or those of `update_vacancy`. -/
theorem lock_word_tells {lf : LeafNode L} {lock : Valock L} (h : Reachable lf lock) :
    (∃ s : Fin L.leafSpanSize, lock.getMaxKeyIdx = s.val ∧ (lf.records s).key ≠ kkeyNull ∧
      ∀ t, (lf.records t).key ≤ (lf.records s).key) ∧
    (∀ b < L.vacancyMapBit, lock.vacancyBitmap.getLsbD b = false →
      ∃ s : Fin L.leafSpanSize, Exact.findBucket L.vacancyMapBit L.leafSpanSize s.val = b ∧ (lf.records s).key = kkeyNull) ∧
    (∀ k, Routed lf k → ∀ v siblingAddr fromCache newAddr,
      leafNodeInsert lf lock siblingAddr k v fromCache newAddr ≠ .error .hasEmpty ∧
      leafNodeInsert lf lock siblingAddr k v fromCache newAddr ≠ .error .updateVacancy) ∧
    ∃ root, rootLeaf L = .ok root := by
  have hi := h.leafInv
  obtain ⟨lf₀, lock₀, hroot, -⟩ := rootLeaf_spec L
  refine ⟨hi.tells.maxKeyIdx, hi.tells.vacancy, fun k hk v siblingAddr fromCache newAddr => ?_, _, hroot⟩
  rcases leafNodeInsert_routed hi hk (lock.inRange_exact _) v siblingAddr newAddr fromCache with ⟨-, -, he⟩ | hres
  · rw [he]
    simp
  · cases hr : leafNodeInsert lf lock siblingAddr k v fromCache newAddr with
    | ok y => simp
    | error a =>
      rw [hr] at hres
      cases hres with
      | stuck _ _ _ _ ha => rcases ha with rfl | rfl <;> simp

/-- The lock word of the crowded leaf. -/
theorem lock_word_tells_crowded : ∃ lf lock, crowdedLeaf = some (lf, lock) ∧
    ∃ s : Fin crowded.leafSpanSize, lock.getMaxKeyIdx = s.val ∧ (lf.records s).key ≠ kkeyNull ∧
      ∀ t, (lf.records t).key ≤ (lf.records s).key := by
  have hsome : crowdedLeaf.isSome = true := by decide +kernel
  obtain ⟨⟨lf, lock⟩, h⟩ := Option.isSome_iff_exists.1 hsome
  exact ⟨lf, lock, h, (lock_word_tells (reachable_of_insertAll h)).1⟩

/-! ## Upserts -/

/-- Exactly one record holds the key, and it holds the value. -/
def HoldsOnce (r : Records L) (k v : Nat) : Prop :=
  ∃ s, (r s).key = k ∧ (r s).value = v ∧ ∀ t, (r t).key = k → t = s

/-- After an insert exactly one record of the leaf, or of the two leaves of a split, holds the key and the value. -/
def UpsertOk (lf : LeafNode L) (k v : Nat) (x : Checked (LeafInsert L)) : Prop :=
  (∃ w, x = .ok (.write w) ∧ HoldsOnce (w.apply lf).records k v) ∨
  ∃ y, x = .ok (.split y) ∧ (HoldsOnce y.left.records k v ∧ (∀ s, (y.right.records s).key ≠ k) ∨
    (∀ s, (y.left.records s).key ≠ k) ∧ HoldsOnce y.right.records k v)

/-- If the key is stored, its slot is among those the insert reads. -/
def Seen (lf : LeafNode L) (lock : Valock L) (siblingAddr : GlobalAddress) (k : Nat) : Prop :=
  ∀ s, (lf.records s).key = k → s ∈ insertReads lf lock siblingAddr k

theorem holdsOnce_of_stored {r : Records L} (hd : r.Distinct) {k v : Nat} (h : r.Stored k v) : HoldsOnce r k v := by
  obtain ⟨h0, s, hs⟩ := h
  have hk : r.keys s = k := congrArg Prod.fst hs
  exact ⟨s, hk, congrArg Prod.snd hs, fun t ht => hd t s (ht.trans hk.symm) (fun h => h0 (ht.symm.trans h))⟩

/-- A second copy of a stored key. -/
theorem not_holdsOnce_of_adds {r r' : Records L} {k v : Nat} (h : Adds r k v r') (hk : r.HasKey k) {v' : Nat} :
    ¬HoldsOnce r' k v' := by
  rintro ⟨u, -, -, huniq⟩
  obtain ⟨h0, s, hs⟩ := hk
  obtain ⟨t, σ, ht, hσ⟩ := h
  have hkeys : ∀ a, r'.keys a = (Function.update r.items t (k, v) (σ a)).1 := fun a => congrArg Prod.fst (hσ a)
  have hst : s ≠ t := by
    rintro rfl
    exact h0 (hs.symm.trans ht)
  have h1 := huniq (σ.symm t) (by
    have := hkeys (σ.symm t)
    rwa [Equiv.apply_symm_apply, Function.update_self] at this)
  have h2 := huniq (σ.symm s) (by
    have := hkeys (σ.symm s)
    rw [Equiv.apply_symm_apply, Function.update_of_ne hst] at this
    exact this.trans hs)
  exact hst (σ.symm.injective (h2.trans h1.symm))

theorem holdsOnce_update {lf : LeafNode L} (hd : lf.records.Distinct) {i : Fin L.leafSpanSize} {k v : Nat} (hk0 : k ≠ 0)
    (hk : lf.records.keys i = k) {w : LeafWrite L}
    (hw : w.apply lf = { lf with records := lf.records.update i.val k v }) :
    (w.apply lf).records.Distinct ∧ HoldsOnce (w.apply lf).records k v := by
  have hkeys : (lf.records.update i.val k v).keys = lf.records.keys := by
    rw [keys_update, Cyclic.slot_coe, ← hk, Function.update_eq_self]
  have hd' : (lf.records.update i.val k v).Distinct := hd.of_keys fun j => .inr (congrFun hkeys j)
  rw [hw]
  refine ⟨hd', holdsOnce_of_stored hd' ⟨hk0, i, ?_⟩⟩
  rw [items_update, Cyclic.slot_coe, Function.update_self]

/-- A split of a leaf with distinct keys: the halves have distinct keys, and the new pair is in exactly one of them,
unless the key was there before. -/
theorem SplitOf.upsert {lf : LeafNode L} {k v : Nat} {newAddr : GlobalAddress} {x : LeafSplit L} (hk : k ≠ 0)
    (hd : lf.records.Distinct) (h : SplitOf lf k v newAddr x) :
    (¬lf.records.HasKey k → x.left.records.Distinct ∧ x.right.records.Distinct ∧
      (HoldsOnce x.left.records k v ∧ (∀ s, (x.right.records s).key ≠ k) ∨
        (∀ s, (x.left.records s).key ≠ k) ∧ HoldsOnce x.right.records k v)) ∧
    (lf.records.HasKey k → ¬HoldsOnce x.left.records k v ∧ ¬HoldsOnce x.right.records k v) := by
  obtain ⟨m, l, t, hh, hcase⟩ := h.halves
  have hdl := hd.of_keys hh.keys_left
  have hdr := hd.of_keys hh.keys_right
  have hnone : ∀ {r : Records L}, ¬r.HasKey k → ∀ s, (r s).key ≠ k := fun hno s hs => hno ⟨hk, s, hs⟩
  have honce : ∀ {r : Records L}, ¬r.HasKey k → ∀ {v}, ¬HoldsOnce r k v := fun hno _ ⟨s, hs, _⟩ => hnone hno s hs
  rcases hcase with ⟨hkm, ⟨e, hs, hins⟩, hr⟩ | ⟨hkm, hl, e, hs, hins⟩
  · have hright : ¬x.right.records.HasKey k := by
      rw [hr]
      exact fun h => by have := (hh.hasKey_right.1 h).2; omega
    refine ⟨fun hno => ?_, fun hyes => ⟨not_holdsOnce_of_adds hins.adds (hh.hasKey_left.2 ⟨hyes, hkm⟩), honce hright⟩⟩
    have hd' := hins.adds.distinct hdl fun h => hno (hh.hasKey_left.1 h).1
    exact ⟨hd', hr ▸ hdr, .inl ⟨holdsOnce_of_stored hd' ((hins.adds.stored hk).2 (.inr ⟨rfl, rfl⟩)), hnone hright⟩⟩
  · have hleft : ¬x.left.records.HasKey k := by
      rw [hl]
      exact fun h => by have := (hh.hasKey_left.1 h).2; omega
    refine ⟨fun hno => ?_, fun hyes => ⟨honce hleft, not_holdsOnce_of_adds hins.adds (hh.hasKey_right.2 ⟨hyes, hkm⟩)⟩⟩
    have hd' := hins.adds.distinct hdr fun h => hno (hh.hasKey_right.1 h).1
    exact ⟨hl ▸ hdl, hd', .inr ⟨hnone hleft, holdsOnce_of_stored hd' ((hins.adds.stored hk).2 (.inr ⟨rfl, rfl⟩))⟩⟩

/-- Where the insert sees a stored copy, a key it has not seen is new. -/
theorem Seen.not_hasKey {lf : LeafNode L} {lock : Valock L} {siblingAddr : GlobalAddress} {k : Nat}
    (h : Seen lf lock siblingAddr k) (hno : ∀ i ∈ insertReads lf lock siblingAddr k, lf.records.keys i ≠ k) :
    ¬lf.records.HasKey k := fun ⟨_, s, hs⟩ => hno s (h s hs) hs

/-- In a run whose inserts see the stored copies of their keys, keys stay distinct. -/
theorem LeafRun.distinct {lf : LeafNode L} {lock : Valock L} (h : LeafRun Seen lf lock) : lf.records.Distinct := by
  induction h with
  | root h =>
    obtain ⟨lf, lock, he, -, hd⟩ := rootLeaf_spec L
    obtain ⟨rfl, rfl⟩ := Prod.mk.inj (Except.ok.inj (h.symm.trans he))
    exact hd
  | @insert lf lock siblingAddr newAddr k v fromCache w hr hk hseen h ih =>
    rcases leafNodeInsert_routed hr.leafInv hk (Valock.inRange_exact _ _) v siblingAddr newAddr fromCache with ⟨-, -, he⟩ | hres
    · cases he.symm.trans h
    · rw [h] at hres
      cases hres with
      | update i _ _ hki hw hl => exact (holdsOnce_update ih hk.1 hki hw).1
      | insert e hs r' _ hno hins hw ht =>
        rw [hw]
        exact hins.adds.distinct ih (hseen.not_hasKey hno)
  | @splitLeft lf lock siblingAddr newAddr k v fromCache x hr hk hseen h ih =>
    rcases leafNodeInsert_routed hr.leafInv hk (Valock.inRange_exact _ _) v siblingAddr newAddr fromCache with ⟨-, -, he⟩ | hres
    · cases he.symm.trans h
    · rw [h] at hres
      cases hres with
      | split _ hno _ hsp => exact ((hsp.upsert hk.1 ih).1 (hseen.not_hasKey hno)).1
  | @splitRight lf lock siblingAddr newAddr k v fromCache x hr hk hseen h ih =>
    rcases leafNodeInsert_routed hr.leafInv hk (Valock.inRange_exact _ _) v siblingAddr newAddr fromCache with ⟨-, -, he⟩ | hres
    · cases he.symm.trans h
    · rw [h] at hres
      cases hres with
      | split _ hno _ hsp => exact ((hsp.upsert hk.1 ih).1 (hseen.not_hasKey hno)).2.1
  | @update lf buffer lock siblingAddr k v fromCache speculativeIdx w hr hk h ih =>
    have hres := leafNodeUpdate_spec hr.leafInv.placed hr.leafInv.valid buffer lock siblingAddr hk v fromCache
      speculativeIdx
    rw [h] at hres
    cases hres with
    | write i _ hki hw hl => exact (holdsOnce_update ih hk hki hw).1

/-- **Upserts**: in every run whose inserts see the stored copies of their keys, an insert of a routed key that does not
give up on a stale cache entry leaves exactly one record with its key exactly if it sees the stored copy. -/
theorem upsert_unique {lf : LeafNode L} {lock : Valock L} (h : LeafRun Seen lf lock) {k : Nat} (hk : Routed lf k)
    (v : Nat) (siblingAddr newAddr : GlobalAddress) (fromCache : Bool)
    (hc : fromCache = true → siblingAddr = lf.siblingPtr) :
    UpsertOk lf k v (leafNodeInsert lf lock siblingAddr k v fromCache newAddr) ↔ Seen lf lock siblingAddr k := by
  have hd := h.distinct
  rcases leafNodeInsert_routed h.leafInv hk (Valock.inRange_exact _ _) v siblingAddr newAddr fromCache with ⟨h1, h2, -⟩ | hres
  · exact absurd (hc h1) h2
  have hunseen : (∀ i ∈ insertReads lf lock siblingAddr k, lf.records.keys i ≠ k) → ¬Seen lf lock siblingAddr k →
      lf.records.HasKey k := by
    intro _ hns
    obtain ⟨s, hs⟩ := not_forall.1 hns
    exact ⟨hk.1, s, (Classical.not_imp.1 hs).1⟩
  generalize hx : leafNodeInsert lf lock siblingAddr k v fromCache newAddr = x at hres ⊢
  cases hres with
  | update i w hiW hki hw hl =>
    refine ⟨fun _ s hs => ?_, fun _ => .inl ⟨w, rfl, (holdsOnce_update hd hk.1 hki hw).2⟩⟩
    obtain rfl := hd s i (hs.trans hki.symm) (fun h0 => hk.1 (hs.symm.trans h0))
    exact hiW
  | insert e hs r' w hno hins hw ht =>
    constructor
    · rintro (⟨w', he, honce⟩ | ⟨y, he, -⟩)
      · obtain rfl : w = w' := LeafInsert.write.inj (Except.ok.inj he)
        by_contra hns
        rw [hw] at honce
        exact not_holdsOnce_of_adds hins.adds (hunseen hno hns) honce
      · cases he
    · intro hseen
      refine .inl ⟨w, rfl, ?_⟩
      rw [hw]
      exact holdsOnce_of_stored (hins.adds.distinct hd (hseen.not_hasKey hno))
        ((hins.adds.stored hk.1).2 (.inr ⟨rfl, rfl⟩))
  | split y hno hst hsp =>
    obtain ⟨hnew, hold⟩ := hsp.upsert hk.1 hd
    constructor
    · rintro (⟨w', he, -⟩ | ⟨y', he, honce⟩)
      · cases he
      · obtain rfl : y = y' := LeafInsert.split.inj (Except.ok.inj he)
        by_contra hns
        obtain ⟨h1, h2⟩ := hold (hunseen hno hns)
        exact honce.elim (fun h => h1 h.1) fun h => h2 h.2
    · exact fun hseen => .inr ⟨y, rfl, (hnew (hseen.not_hasKey hno)).2.2⟩
  | stuck a hno hst hor ha =>
    constructor
    · rintro (⟨w', he, -⟩ | ⟨y', he, -⟩) <;> cases he
    · intro hseen
      exact absurd (hor.resolve_left (not_not.2 hd)) (hseen.not_hasKey hno)

/-- The inserts into the crowded leaf see the stored copies of their keys, and so does one of the key 9, which is in
slot 0. -/
theorem upsert_unique_crowded : ∃ lf lock, crowdedLeaf = some (lf, lock) ∧ (lf.records 0).key = 9 ∧
    UpsertOk lf 9 29 (leafNodeInsert lf lock .null 9 29 false (.at 2)) := by
  have hguard : GuardAll (L := crowded) Seen
      [(9, 19), (8, 18), (7, 17), (6, 16), (5, 15), (4, 14), (3, 13), (2, 12), (1, 11)] := by
    refine ⟨⟨⟨⟨⟨⟨⟨⟨⟨trivial, ?_⟩, ?_⟩, ?_⟩, ?_⟩, ?_⟩, ?_⟩, ?_⟩, ?_⟩, ?_⟩ <;> unfold Seen <;> decide +kernel
  have hleaf : crowdedLeaf.any (fun p => (p.1.records 0).key = 9 ∧ ∀ s, (p.1.records s).key = 9 →
      s ∈ insertReads p.1 p.2 .null 9) = true := by decide +kernel
  obtain ⟨⟨lf, lock⟩, h, hkey⟩ := (Option.any_eq_true ..).1 hleaf
  rw [decide_eq_true_eq] at hkey
  exact ⟨lf, lock, h, hkey.1, (upsert_unique (leafRun_of_insertAll hguard h) ⟨by decide, 0, hkey.1.ge⟩ 29 .null (.at 2)
    false (by simp)).2 hkey.2⟩

/-! ## A key that is stored twice -/

/-- Two slots of the leaf hold the key after the writes of an insert. -/
def writesTwice (lf : LeafNode L) (k : Nat) (s t : Fin L.leafSpanSize) : Checked (LeafInsert L) → Bool
  | .ok (.write w) => ((w.apply lf).records s).key = k ∧ ((w.apply lf).records t).key = k
  | _ => false

/-- The insert of the key 8 reads the slots 0 and 1 of the crowded leaf and puts a second record into the slot 1. -/
theorem crowdedLeaf_twice : crowdedLeaf.any (fun p =>
    (p.1.records 7).key = 8 ∧ writesTwice p.1 8 1 7 (leafNodeInsert p.1 p.2 .null 8 28 false (.at 2))) = true := by
  decide +kernel

/-- A stored key that the insert does not read is stored twice. -/
theorem not_upsert_unique : ¬∀ (L : Layout) (lf : LeafNode L) (lock : Valock L), Reachable lf lock →
    ∀ k v siblingAddr newAddr, Routed lf k →
      UpsertOk lf k v (leafNodeInsert lf lock siblingAddr k v false newAddr) := by
  intro h
  have htwice := crowdedLeaf_twice
  cases hleaf : crowdedLeaf with
  | none => rw [hleaf] at htwice; cases htwice
  | some p =>
    obtain ⟨lf, lock⟩ := p
    rw [hleaf, Option.any_some, decide_eq_true_eq] at htwice
    obtain ⟨hk, htwice⟩ := htwice
    have hrouted : Routed lf 8 := ⟨by decide, 7, hk.ge⟩
    rcases h crowded lf lock (reachable_of_insertAll hleaf) 8 28 .null (.at 2) hrouted with
      ⟨w, hw, s, -, -, hs⟩ | ⟨x, hx, -⟩
    · rw [hw] at htwice
      simp only [writesTwice, decide_eq_true_eq] at htwice
      exact absurd ((hs 1 htwice.1).trans (hs 7 htwice.2).symm) (by decide)
    · rw [hx] at htwice
      cases htwice

end Chime

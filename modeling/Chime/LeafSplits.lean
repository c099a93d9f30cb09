import Chime.Representation
import Chime.TreeRuns

/-!
# Splits of leaves

`split_makes_room`: the key that did not fit a good leaf fits its half, whichever critical slot the split has emptied
and whatever else (`insertLocally_of_critical`). `leaf_split_clean`: in every run the two leaves of a split hold the
pairs of the old leaf and the new pair, counted with their multiplicity (`Records.pairs`), on the two sides of the
separator.
-/

namespace Chime

open Cyclic (slot gap)
open Records

variable {L : Layout} {r r' : Records L} {k v : Nat}

/-! ## Room for the new key -/

/-- The logical indices that `hopscotch_get_split_key` goes through. -/
def probed (L : Layout) (k : Nat) : List Int :=
  (List.range L.leafSpanSize).map fun i : Nat => ((L.getHashedLeafEntryIndex k).val : Int) + i

/-- Where the hop insertion into the whole leaf returns false, the key is stuck. -/
theorem stuck_of_insert (hp : r.IsPlaced) (hk : k ≠ 0) {n : Nat} (h : hopscotchInsertAndUnlock r k v n = .ok none) :
    Stuck r k n := by
  rcases insertion_spec hp v hk n with ⟨e, hs, r', -, he⟩ | ⟨hst, -⟩
  · rw [he] at h
    cases h
  · exact hst

/-- The key of a critical slot. -/
theorem critical_of_mem (hp : r.IsPlaced) {x : Nat}
    (h : x ∈ criticalKeys r (L.getHashedLeafEntryIndex k).val (probed L k)) :
    ∃ e, r.Critical (L.getHashedLeafEntryIndex k).val e ∧ r.keys (slot _ e) = x := by
  have hb := (L.getHashedLeafEntryIndex k).isLt
  rw [probed, List.range_eq_range', mem_criticalKeys hp (by omega) (by omega) _ 0 (by omega) (by omega)] at h
  obtain ⟨e, -, he⟩ := h
  exact ⟨e, he⟩

theorem criticalKeys_ne_nil (hp : r.IsPlaced) (hst : Stuck r k L.leafSpanSize) :
    criticalKeys r (L.getHashedLeafEntryIndex k).val (probed L k) ≠ [] := by
  have hb := (L.getHashedLeafEntryIndex k).isLt
  refine List.ne_nil_of_mem (a := r.keys (slot _ ((L.getHashedLeafEntryIndex k).val : Int))) ?_
  rw [probed, List.range_eq_range', mem_criticalKeys hp (by omega) (by omega) _ 0 (by omega) (by omega)]
  exact ⟨_, by omega, hst.critical, rfl⟩

/-- **Monotonicity**: a table without one of the critical keys has room, whatever other slots were emptied. -/
theorem insertLocally_of_critical (hr : Good r) (hk : k ≠ 0) {x : Nat}
    (hx : x ∈ criticalKeys r (L.getHashedLeafEntryIndex k).val (probed L k)) {t : Records L} (ht : Good t)
    (hkeys : ∀ i, t.keys i = 0 ∨ t.keys i = r.keys i) (hgone : ¬t.HasKey x) (hnew : ¬t.HasKey k) (v : Nat) :
    ∃ t' i, hopscotchInsertLocally t k v = .ok (t', i) ∧ GoodWith t k v t' := by
  obtain ⟨hp, -⟩ := (good_iff r).1 hr
  obtain ⟨e, hcrit, rfl⟩ := critical_of_mem hp hx
  have hfull := hcrit.full e hcrit.le le_rfl
  have hroom := hcrit.chain_of_empty hkeys <| by
    refine (hkeys _).resolve_right fun he => hgone ⟨hfull, _, he⟩
  rcases good_insertLocally ht v hk hnew with hins | ⟨hno, -⟩
  · exact hins
  · exact absurd (stuck_of_insert ((good_iff t).1 ht).1 hk hno) hroom

/-- **A split makes room**: if the hop insertion into a good leaf returns false, there is a critical key, the half of
the new key takes it, and so does every part of the leaf without one of the critical keys. -/
theorem split_makes_room (r : Records L) (hr : Good r) (k v : Nat) (hk : k ≠ kkeyNull) (hnew : ∀ s, (r s).key ≠ k)
    (hins : hopscotchInsertAndUnlock r k v L.leafSpanSize = .ok none) :
    criticalKeys r (L.getHashedLeafEntryIndex k).val (probed L k) ≠ [] ∧
    (∃ splitKey l s t i, hopscotchGetSplitKey r k = .ok splitKey ∧
      moveData splitKey r LeafNode.empty.records = .ok (l, s) ∧
      hopscotchInsertLocally (if k < splitKey then l else s) k v = .ok (t, i) ∧
      GoodWith (if k < splitKey then l else s) k v t) ∧
    ∀ x ∈ criticalKeys r (L.getHashedLeafEntryIndex k).val (probed L k), ∀ t : Records L, Good t →
      (∀ i, (t i).key = kkeyNull ∨ (t i).key = (r i).key) → (∀ i, (t i).key ≠ x) →
      ∃ t' i, hopscotchInsertLocally t k v = .ok (t', i) := by
  obtain ⟨hp, hd⟩ := (good_iff r).1 hr
  have hst := stuck_of_insert hp hk hins
  have hnk : ¬r.HasKey k := fun ⟨_, s, hs⟩ => hnew s hs
  refine ⟨criticalKeys_ne_nil hp hst, ?_, fun x hx t ht hkeys hgone => ?_⟩
  · obtain ⟨m, hm, -, hlt, hge⟩ := getSplitKey_spec hp hk hst
    obtain ⟨l, s, hmove, hh⟩ := moveData_spec hp m
    have hroom := hh.room hlt (hge hd hnk)
    have hgood : Good (if k < m then l else s) ∧ ¬(if k < m then l else s).HasKey k := by
      split
      · exact ⟨good_of_placed hh.left_placed (hd.of_keys hh.keys_left), fun h => hnk (hh.hasKey_left.1 h).1⟩
      · exact ⟨good_of_placed hh.right_placed (hd.of_keys hh.keys_right), fun h => hnk (hh.hasKey_right.1 h).1⟩
    rcases good_insertLocally hgood.1 v hk hgood.2 with ⟨t, i, ht, hw⟩ | ⟨hno, -⟩
    · exact ⟨m, l, s, t, i, hm, hmove, ht, hw⟩
    · exact absurd (stuck_of_insert ((good_iff _).1 hgood.1).1 hk hno) hroom
  · have hnewt : ¬t.HasKey k := by
      rintro ⟨_, s, hs⟩
      rcases hkeys s with h0 | he
      · exact hk (hs.symm.trans h0)
      · exact hnew s (he.symm.trans hs)
    obtain ⟨t', i, he, -⟩ := insertLocally_of_critical hr hk hx ht hkeys (fun ⟨_, s, hs⟩ => hgone s hs) hnewt v
    exact ⟨t', i, he⟩

/-- A full leaf of the small build. -/
def Records.full : Records .small := ![⟨2, 4, 40⟩, ⟨3, 1, 10⟩, ⟨0, 5, 50⟩, ⟨2, 3, 30⟩]

theorem good_full : Good Records.full := ⟨by decide +kernel, by decide +kernel, by decide +kernel⟩

/-- The key 9 finds no empty slot in the full leaf, and goes to the right half. -/
theorem split_makes_room_full : hopscotchInsertAndUnlock Records.full 9 90 4 = .ok none ∧
    ∃ splitKey l s t i, hopscotchGetSplitKey Records.full 9 = .ok splitKey ∧
      moveData splitKey Records.full LeafNode.empty.records = .ok (l, s) ∧
      hopscotchInsertLocally (if 9 < splitKey then l else s) 9 90 = .ok (t, i) ∧
      GoodWith (if 9 < splitKey then l else s) 9 90 t :=
  have hins : hopscotchInsertAndUnlock Records.full 9 90 4 = .ok none := by decide +kernel
  ⟨hins, (split_makes_room Records.full good_full 9 90 (by decide) (by decide) hins).2.1⟩

/-! ## The two leaves of a split -/

/-- The slots with items. -/
def Records.taken (r : Records L) : Finset (Fin L.leafSpanSize) := Finset.univ.filter fun s => r.keys s ≠ kkeyNull

@[simp] theorem Records.mem_taken {s : Fin L.leafSpanSize} : s ∈ r.taken ↔ r.keys s ≠ 0 := by
  rw [taken, Finset.mem_filter_univ, kkeyNull_eq]

/-- The pairs of a table, each as often as it is stored. -/
def Records.pairs (r : Records L) : Multiset (Nat × Nat) := r.taken.val.map r.items

/-- One more item in an empty slot. -/
theorem Records.Adds.pairs_eq (h : Adds r k v r') (hk : k ≠ 0) : r'.pairs = (k, v) ::ₘ r.pairs := by
  obtain ⟨t, σ, ht, hσ⟩ := h
  have hkeys : ∀ s, r'.keys s = Function.update r.keys t k (σ s) := by
    intro s
    show (r'.items s).1 = _
    rw [hσ]
    exact congrFun (Function.comp_update Prod.fst r.items t (k, v)) (σ s)
  have hnot : t ∉ r.taken := by simp [ht]
  -- the permutation takes the slots with items to the old ones and `t`
  have htaken : r'.taken.map σ.toEmbedding = insert t r.taken := by
    ext s
    simp only [Finset.mem_map_equiv, mem_taken, hkeys, Equiv.apply_symm_apply, Finset.mem_insert]
    by_cases hs : s = t
    · simp [hs, hk]
    · simp [hs]
  calc r'.pairs = r'.taken.val.map fun s => Function.update r.items t (k, v) (σ s) :=
    Multiset.map_congr rfl fun s _ => hσ s
    _ = (r'.taken.map σ.toEmbedding).val.map (Function.update r.items t (k, v)) := by
      rw [Finset.map_val, Multiset.map_map]
      rfl
    _ = (t ::ₘ r.taken.val).map (Function.update r.items t (k, v)) := by
      rw [htaken, Finset.insert_val_of_notMem hnot]
    _ = (k, v) ::ₘ r.pairs := by
      rw [Multiset.map_cons, Function.update_self]
      refine congrArg _ (Multiset.map_congr rfl fun s hs => Function.update_of_ne ?_ ..)
      rintro rfl
      exact hnot hs

namespace Halves

variable {l s : Records L} {m : Nat}

/-- A half keeps the items of the slots it has taken. -/
theorem pairs_of (t : Records L) (p : Nat × Nat → Prop) [DecidablePred p]
    (ht : ∀ i, (t.keys i ≠ 0 ↔ r.keys i ≠ 0 ∧ p (r.items i)) ∧ (t.keys i ≠ 0 → t.items i = r.items i)) :
    t.pairs = r.pairs.filter p := by
  have htaken : t.taken = r.taken.filter fun i => p (r.items i) := by
    ext i
    rw [Finset.mem_filter, mem_taken, mem_taken]
    exact (ht i).1
  rw [Records.pairs, Records.pairs, Multiset.filter_map, htaken, Finset.filter_val]
  refine Multiset.map_congr rfl fun i hi => (ht i).2 ?_
  exact (ht i).1.2 ⟨mem_taken.1 (Multiset.mem_filter.1 hi).1, (Multiset.mem_filter.1 hi).2⟩

theorem pairs_left (h : Halves r m l s) : l.pairs = r.pairs.filter fun p => ¬m ≤ p.1 := by
  refine pairs_of l _ fun i => ?_
  have hi := h.left i
  by_cases hm : Moves m (r.items i)
  · have h1 : l.keys i = 0 := congrArg Prod.fst (hi.trans (if_pos hm))
    exact ⟨iff_of_false (not_not.2 h1) fun hc => hc.2 hm.2, fun hne => absurd h1 hne⟩
  · rw [if_neg hm] at hi
    rw [keys_of_items hi]
    exact ⟨⟨fun hne => ⟨hne, fun hle => hm ⟨hne, hle⟩⟩, And.left⟩, fun _ => hi⟩

theorem pairs_right (h : Halves r m l s) : s.pairs = r.pairs.filter fun p => m ≤ p.1 := by
  refine pairs_of s _ fun i => ?_
  have hi := h.right i
  by_cases hm : Moves m (r.items i)
  · rw [if_pos hm] at hi
    rw [keys_of_items hi]
    exact ⟨⟨fun hne => ⟨hne, hm.2⟩, And.left⟩, fun _ => hi⟩
  · have h1 : s.keys i = 0 := congrArg Prod.fst (hi.trans (if_neg hm))
    exact ⟨iff_of_false (not_not.2 h1) fun hc => hm ⟨hc.1, hc.2⟩, fun hne => absurd h1 hne⟩

/-- No pair gets lost when data is moved. -/
theorem pairs (h : Halves r m l s) : l.pairs + s.pairs = r.pairs := by
  rw [h.pairs_left, h.pairs_right, add_comm, Multiset.filter_add_not]

end Halves

/-- A clean partition: the leaves `x` that a split of `lf` writes, the right one at `new`. -/
structure CleanSplit (lf : LeafNode L) (k v new : Nat) (x : LeafSplit L) : Prop where
  pairs : x.left.records.pairs + x.right.records.pairs = (k, v) ::ₘ lf.records.pairs
  left_ne : ∃ j, x.left.records.HasKey j
  right_ne : ∃ j, x.right.records.HasKey j
  /-- the separator for the parent is the largest key of the left leaf plus one -/
  splitKey : ∃ j, x.left.records.HasKey j ∧ (∀ i, x.left.records.HasKey i → i ≤ j) ∧ x.splitKey = j + 1
  left_lt : ∀ j, x.left.records.HasKey j → j < x.splitKey
  right_ge : ∀ j, x.right.records.HasKey j → x.splitKey ≤ j
  /-- the largest key of the old leaf stays on the right -/
  largest : ∀ j, lf.records.HasKey j → (∀ i, lf.records.HasKey i → i ≤ j) → x.right.records.HasKey j
  left_sibling : x.left.metadata.siblingPtr = .at new
  right_sibling : x.right.metadata.siblingPtr = if lf.isRoot then .null else lf.metadata.siblingPtr

theorem SplitOf.pairs {lf : LeafNode L} {x : LeafSplit L} {newAddr : GlobalAddress} (hx : SplitOf lf k v newAddr x)
    (hk : k ≠ 0) : x.left.records.pairs + x.right.records.pairs = (k, v) ::ₘ lf.records.pairs := by
  obtain ⟨m, l, s, hh, ⟨-, ⟨e, hs, hins⟩, hr⟩ | ⟨-, hl, e, hs, hins⟩⟩ := hx.halves
  · rw [hins.adds.pairs_eq hk, hr, Multiset.cons_add, hh.pairs]
  · rw [hins.adds.pairs_eq hk, hl, Multiset.add_cons, hh.pairs]

/-- A split of a leaf whose range contains the key. -/
theorem SplitOf.clean {d : Nat → Option Nat} {l h new : Nat} {lf : LeafNode L} {x : LeafSplit L}
    (hx : SplitOf lf k v (.at new) x) (hok : LeafOk L d l h lf) (hb : Boundary.Below d L.keyFull) (h0 : 1 ≤ l)
    (hl : l ≤ k) (hh : k < h) : CleanSplit lf k v new x := by
  have hk0 : k ≠ 0 := by omega
  obtain ⟨⟨hlo, hhi⟩, hleft, hright⟩ := hx.ok hok hb h0 hl hh
  obtain ⟨m, hml, hmr⟩ := hx.sides hk0
  obtain ⟨j, hj, hjm⟩ := hleft.last
  refine ⟨hx.pairs hk0, hx.left_tells.exists_hasKey, hx.right_tells.exists_hasKey, ⟨j, hj, fun i hi => ?_, hjm.symm⟩,
    fun i hi => (hleft.range i hi).2, fun i hi => (hright.range i hi).1, fun i hi hmax => ?_, by rw [hx.left_metadata],
    by rw [hx.right_metadata, LeafNode.siblingPtr]; simp [LeafNode.isRoot]⟩
  · have := (hleft.range i hi).2
    omega
  · -- the end of the old range is the end of the right one
    obtain ⟨i', hi', he⟩ := hright.last
    obtain ⟨j', hj', he'⟩ := hok.last
    have hii : i = i' := by
      have h1 := hmax j' hj'
      have h2 := (hok.range i hi).2
      omega
    exact hii ▸ hi'

/-- The move of an insert that comes to split its leaf. -/
theorem TreeMove.splits {g g' : Charted L} {ch : Choice L} {cl cl' : Client L} {a a' new : Nat} {p : Position}
    {w : Valock L} {x : LeafSplit L} (hm : TreeMove g ch cl cl.pc g' cl') (hpc : cl.pc = .leafLocked a p w)
    (hpc' : cl'.pc = .leafSplitSibling a' new x) : ∃ l h lf, LeafAt g a l h lf none ∧ l ≤ cl.key ∧ cl.key < h ∧
      SplitOf lf cl.key cl.request.value (.at g.store.next) x := by
  rw [hpc] at hm
  cases hm with
  | toSplit _ hat hl hh hx =>
    cases hpc'
    exact ⟨_, _, _, hat, hl, hh, hx⟩
  | _ => cases hpc'

/-- **A leaf split** is a clean partition: whenever in a run an insert comes to split the leaf it has locked. -/
theorem leaf_split_clean {s : Tree L} {h : List Tree.Event} (hrun : (Tree.machine L).Run Tree.ValidKeys s h) {c a : Nat}
    {cl : Client L} {p : Position} {lock : Valock L} {lf : LeafNode L} {w : Option (Valock L)} {x : LeafSplit L}
    (hc : s.clients c = some cl) (hpc : cl.pc = .leafLocked a p lock) (hv : cl.request = .insert v)
    (hm : s.store.mem a = .leaf lf w)
    (hins : leafNodeInsert lf lock p.siblingAddr cl.key v p.fromCache (.at s.store.next) = .ok (.split x)) :
    CleanSplit lf cl.key v s.store.next x := by
  obtain ⟨d, hg⟩ := tree_good hrun
  have hstep : cl.step s.store ⟨none, LeafNode.empty, none⟩ =
      some (s.store.alloc, cl.goto (.leafSplitSibling a s.store.next x)) := by
    rw [Client.step, hpc]
    simp only [Client.stepLeafLocked, hm, hv, hins, Client.attempt_ok]
  obtain ⟨d', hmove⟩ := Client.step_moves hg.shared (hg.client hc) hstep
  obtain ⟨l, h', lf', hat, hl, hh, hx⟩ := hmove.splits hpc rfl
  cases hm.symm.trans hat.mem
  rw [hv] at hx
  exact hx.clean hat.ok (hg.shared.below 0) (hg.shared.range hat.linked).1 hl hh

/-- Three inserts of the small build, the last one up to the lock of the full root leaf. -/
def splitRun : List (Tree.Action .small) :=
  Tree.completed _ 0 (.insert 11) 1 5 ++ Tree.completed _ 0 (.insert 15) 5 5 ++ Tree.operation _ 0 (.insert 19) 9 3

/-- The client stands at a locked leaf, and its insert of the key 9 splits it. -/
def splitsLeaf (s : Tree .small) (cl : Client .small) : Bool :=
  match cl.pc with
  | .leafLocked a p lock =>
    match s.store.mem a with
    | .leaf lf _ =>
      match leafNodeInsert lf lock p.siblingAddr cl.key 19 p.fromCache (.at s.store.next) with
      | .ok (.split _) => cl.request = .insert 19 ∧ cl.key = 9
      | _ => false
    | _ => false
  | _ => false

/-- The insert of the key 9 splits the leaf of the keys 1, 5 and the ghost key. -/
theorem leaf_split_clean_small : ∃ s h a lf x, (Tree.machine .small).Run Tree.ValidKeys s h ∧
    (∃ w, s.store.mem a = .leaf lf w) ∧ CleanSplit lf 9 19 s.store.next x := by
  have hsome : (((Tree.machine .small).exec Tree.keysChecked (Tree.init _) [] splitRun).bind fun y =>
      (y.1.clients 0).map fun cl => splitsLeaf y.1 cl) = some true := by decide +kernel
  obtain ⟨⟨s, h⟩, hexec, hmap⟩ := Option.bind_eq_some_iff.1 hsome
  obtain ⟨cl, hcl, hpc⟩ := Option.map_eq_some_iff.1 hmap
  unfold splitsLeaf at hpc
  split at hpc
  · rename_i a p lock he
    split at hpc
    · rename_i lf w hm
      split at hpc
      · rename_i x hins
        obtain ⟨hv, hk⟩ := of_decide_eq_true hpc
        have hrun := Tree.run_of_exec hexec
        exact ⟨s, h, a, lf, x, hrun, ⟨w, hm⟩, hk ▸ leaf_split_clean hrun hcl he hv hm hins⟩
      · cases hpc
    · cases hpc
  · cases hpc

end Chime

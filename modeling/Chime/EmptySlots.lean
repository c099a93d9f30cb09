import Chime.CacheLookup
import Chime.Contents
import Chime.LeafLookup

/-!
# The null key

No leaf stores the null key, but an empty slot holds it. In every run the empty slots of the leaves hold the null value
(`blank_leaves`): an insert permutes the slots and fills one, and a split clears slots. So a search for the null key
can return no other value, even if the hotspot cache names an empty slot (`null_search`).
-/

namespace Chime

open Records

variable {L : Layout}

/-- The empty slots hold the null value. -/
def Records.Blank (r : Records L) : Prop := ∀ s v, r.items s = (0, v) → v = 0

namespace Records

variable {r r' : Records L} {k v : Nat}

theorem Adds.blank (h : Adds r k v r') (hk : k ≠ 0) (hr : r.Blank) : r'.Blank := by
  obtain ⟨t, σ, -, hσ⟩ := h
  intro s w hs
  rw [hσ s] at hs
  by_cases hst : σ s = t
  · rw [hst, Function.update_self] at hs
    exact absurd (congrArg Prod.fst hs) hk
  · rw [Function.update_of_ne hst] at hs
    exact hr _ w hs

end Records

theorem Upserted.blank {r r' : Records L} {k v : Nat} (h : Upserted r k v r') (hk : k ≠ 0) (hr : r.Blank) :
    r'.Blank := by
  cases h with
  | overwrite i hi =>
    intro s w hs
    rw [items_update, Cyclic.slot_coe] at hs
    by_cases hsi : s = i
    · rw [hsi, Function.update_self] at hs
      exact absurd (congrArg Prod.fst hs) hk
    · rw [Function.update_of_ne hsi] at hs
      exact hr s w hs
  | add _ ha => exact ha.blank hk hr

theorem Halves.blank {r l s : Records L} {m : Nat} (h : Halves r m l s) (hr : r.Blank) : l.Blank ∧ s.Blank := by
  have hcell : ∀ {x y : Nat × Nat} {c : Prop} [Decidable c], (∀ w, x = (0, w) → w = 0) → (∀ w, y = (0, w) → w = 0) →
      ∀ w, (if c then x else y) = (0, w) → w = 0 := by
    intro x y c _ hx hy w hw
    split at hw
    · exact hx w hw
    · exact hy w hw
  have hnull : ∀ w, ((0, 0) : Nat × Nat) = (0, w) → w = 0 := fun w hw => (congrArg Prod.snd hw).symm
  refine ⟨fun i w hw => ?_, fun i w hw => ?_⟩
  · rw [h.left] at hw
    exact hcell hnull (hr i) w hw
  · rw [h.right] at hw
    exact hcell (hr i) hnull w hw

theorem SplitOf.blank {lf : LeafNode L} {k v : Nat} {newAddr : GlobalAddress} {x : LeafSplit L}
    (hx : SplitOf lf k v newAddr x) (hk : k ≠ 0)
    (hr : lf.records.Blank) : x.left.records.Blank ∧ x.right.records.Blank := by
  obtain ⟨m, l, s, hh, ⟨-, ⟨e, hs, hins⟩, hright⟩ | ⟨-, hleft, e, hs, hins⟩⟩ := hx.halves
  · exact ⟨hins.adds.blank hk (hh.blank hr).1, hright ▸ (hh.blank hr).2⟩
  · exact ⟨hleft ▸ (hh.blank hr).1, hins.adds.blank hk (hh.blank hr).2⟩

theorem rootLeaf_blank {lf : LeafNode L} {lock : Valock L} (h : rootLeaf L = .ok (lf, lock)) : lf.records.Blank := by
  have hempty : (LeafNode.empty (L := L)).records.Blank := fun s w hw => (congrArg Prod.snd hw).symm
  rcases insertLocally_spec (r := (LeafNode.empty (L := L)).records) Placed.empty kValueNull
    (ghostKey_pos (L := L)) with
    ⟨e, hs, r', hins, he⟩ | ⟨-, he | he⟩
  · simp only [rootLeaf, he, Checked.ok_bind, Checked.pure_eq_ok, Checked.bind_eq_ok] at h
    obtain ⟨w, -, h⟩ := h
    obtain rfl := (Prod.mk.inj (Except.ok.inj h)).1
    exact hins.adds.blank ghostKey_pos hempty
  · rw [rootLeaf, he] at h
    cases h
  · rw [rootLeaf, he] at h
    cases h

/-! ## Runs -/

/-- The empty slots of all leaves hold the null value. -/
def BlankLeaves (g : Charted L) : Prop := ∀ l lf, Leaves g l lf → lf.records.Blank

/-- **A step** keeps the empty slots blank. -/
theorem TreeMove.blank {g g' : Charted L} {ch : Choice L} {cl cl' : Client L} {pc : TreePc L} (hg : TreeOk g)
    (hc : ClientOk g cl) (hcl : cl.pc = pc) (hm : TreeMove g ch cl pc g' cl') (h : BlankLeaves g) : BlankLeaves g' := by
  cases hm.leaves hg hc hcl with
  | same _ hs => exact fun l lf hl => h l lf ((hs l lf).1 hl)
  | puts hw =>
    obtain ⟨hk, -, hpc⟩ := hc
    have hk0 : cl.key ≠ 0 := by omega
    rw [Client.writesLeaf, hcl] at hw
    rw [hcl] at hpc
    cases hm with
    | @writeLeaf a x lf hm =>
      obtain ⟨lf', r', ⟨⟨l, -, hl⟩, hm', -⟩, hup, happ, -⟩ := hpc
      cases hm.symm.trans hm'
      have hold : Leaves g l lf := ⟨a, hl, by rw [hm]; rfl⟩
      intro b lf₁ hb
      by_cases hbl : b = l
      · obtain ⟨c, hc, hlf⟩ := hb
        cases hl.symm.trans (hbl ▸ hc)
        rw [Store.write_self, happ] at hlf
        cases hlf
        exact hup.blank hk0 (h l lf hold)
      · exact h b lf₁ ((leaves_of_ne hg hl rfl hbl).1 hb)
    | @splitLeaf a new x =>
      obtain ⟨-, hp, -, ⟨lf, ⟨⟨l, -, hl⟩, hm, -⟩, hx⟩, hnew⟩ := hpc
      have hblank := hx.blank hk0 (h l lf ⟨a, hl, by rw [hm]; rfl⟩)
      have hna : new ≠ a := by
        rintro rfl
        exact hp.2 0 l hl
      intro b lf₁ hb
      by_cases hbs : b = x.splitKey
      · -- the leaf that is linked
        obtain ⟨c, hc, hlf⟩ := hb
        have hc' : g.dir.insert 0 x.splitKey new 0 b = some c := hc
        rw [hbs, Directory.insert_level, Function.update_self] at hc'
        cases hc'
        rw [Store.write_of_ne _ hna, hnew] at hlf
        cases hlf
        exact hblank.2
      · have hdir : g.dir.insert 0 x.splitKey new 0 b = g.dir 0 b := by
          rw [Directory.insert_level, Function.update_of_ne hbs]
        by_cases hbl : b = l
        · obtain ⟨c, hc, hlf⟩ := hb
          cases hl.symm.trans (hbl ▸ hdir.symm.trans hc)
          rw [Store.write_self] at hlf
          cases hlf
          exact hblank.1
        · exact h b lf₁ ((leaves_of_ne hg hl hdir.symm hbl).1 hb)
    | _ => cases hw

/-- **In every run** the empty slots are blank. -/
theorem blank_leaves {s : Tree L} {h : List Tree.Event} (hrun : (Tree.machine L).Run Tree.ValidKeys s h) :
    ∃ d, TreeGood s d ∧ BlankLeaves ⟨s.store, d⟩ := by
  refine hrun.invariant (I := fun s _ => ∃ d, TreeGood s d ∧ BlankLeaves ⟨s.store, d⟩) ⟨_, init_good L, ?_⟩ ?_
  · rintro l lf ⟨a, ha, hlf⟩
    obtain ⟨-, -, rfl⟩ := rootDirectory_eq ha
    obtain ⟨lf', lock, he, hm⟩ := init_store L
    have hlf' : (Cell.leaf lf' (some lock)).leafNode = some lf := hm ▸ hlf
    cases hlf'
    exact rootLeaf_blank he
  · rintro s h a s' es - ⟨d, hg, hb⟩ hv hs
    obtain ⟨d', hst⟩ := Tree.step_cases hg hs
    refine ⟨d', hst.good hg hv, ?_⟩
    cases hst with
    | invoke | ret => exact hb
    | move hc hm => exact hm.blank hg.shared (hg.client hc) rfl hb

/-! ## A search for the null key -/

theorem scan_null (r : Records L) (v : Nat) : scan r 0 ≠ .found v := by
  have hloop : ∀ is b, ∃ b', scanLoop r (L.getHashedLeafEntryIndex 0) 0 is b = .inr b' := by
    intro is
    induction is with
    | nil => exact fun b => ⟨b, rfl⟩
    | cons i is ih =>
      intro b
      rw [scanLoop]
      split
      · rename_i h
        rw [if_neg (kkeyNull_eq ▸ h.1)]
        exact ih _
      · exact ih b
  obtain ⟨b, hb⟩ := hloop (List.range L.neighborSize) 0
  rw [scan]
  simp only [hb]
  split
  · exact Scan.noConfusion
  · exact Scan.noConfusion

/-- How a round of a search for the null key ends on a leaf. -/
inductive NullSearch (remote : LeafNode L) : Checked LeafSearch → Prop
  | done : NullSearch remote (.ok (.done kValueNull))
  | reRead : NullSearch remote (.ok .reRead)
  | turnRight : remote.siblingPtr ≠ .null → NullSearch remote (.ok (.turnRight remote.siblingPtr))
  | stopped {a : Assertion} : NullSearch remote (.error a)

/-- **On a leaf** the null key is not found, or the hotspot cache names an empty slot. -/
theorem leafNodeSearch_null {remote : LeafNode L} (hb : remote.records.Blank) (buffer : LeafNode L)
    (siblingAddr : GlobalAddress) (speculativeIdx : Option (Fin L.leafSpanSize)) :
    NullSearch remote (leafNodeSearch remote buffer siblingAddr 0 false speculativeIdx) := by
  unfold leafNodeSearch
  cases hsp : speculativeRead remote buffer 0 speculativeIdx with
  | some y =>
    obtain ⟨leaf, i⟩ := y
    obtain ⟨h1, h2⟩ := speculativeRead_some hsp
    have hvalue : (remote.records i).value = 0 := hb i _ (Prod.ext h2 rfl)
    simp only [h1, hvalue]
    exact .done
  | none =>
    have hsib : (⟨remote.metadata, mask (window (L.getHashedLeafEntryIndex 0) L.neighborSize) buffer.records
        remote.records⟩ : LeafNode L).siblingPtr = remote.siblingPtr := rfl
    simp only [neighborhoodRead_eq, Checked.ok_bind, hsib, Bool.false_eq_true, false_and, if_false]
    cases hscan : scan (mask (window (L.getHashedLeafEntryIndex 0) L.neighborSize) buffer.records remote.records) 0 with
    | found v => exact absurd hscan (scan_null _ v)
    | retry => exact .reRead
    | absent =>
      simp only
      split
      · by_cases hnull : remote.siblingPtr = .null
        · rw [hnull, Checked.assert_of_not (by simp)]
          exact .stopped
        · rw [Checked.assert_of hnull]
          exact .turnRight hnull
      · exact .done

/-- Where a search for the null key stands after its lookup. -/
inductive NullAt (g : Charted L) : TreePc L → Prop
  | visit : NullAt g (.visit ⟨g.store.root.level, g.store.root.ptr, .null, false⟩)
  | leaf {p : Position} {l : Nat} : p.fromCache = false → Points (g.dir 0) l p.nodeAddr → NullAt g (.leaf p)
  | done : NullAt g (.done kValueNull)
  | crashed {a : Assertion} : NullAt g (.crashed a)

/-- **A step** of a search for the null key. -/
theorem NullAt.step {g : Charted L} (hg : TreeOk g) (hb : BlankLeaves g) {ch : Choice L} {cl cl' : Client L}
    {s' : Store L} (hr : cl.request = .search) (hk : cl.key = 0) (h : NullAt g cl.pc)
    (hs : cl.step g.store ch = some (s', cl')) :
    s' = g.store ∧ cl'.request = .search ∧ cl'.key = 0 ∧ NullAt g cl'.pc := by
  unfold Client.step at hs
  generalize hpc : cl.pc = pc at h hs
  cases h with
  | visit =>
    simp only [Client.stepVisit, Client.visited_key, hk] at hs
    split at hs
    · -- the root is a leaf
      rename_i hlevel
      cases hs
      exact ⟨rfl, hr, hk, .leaf rfl (hlevel ▸ hg.root)⟩
    · rename_i hlevel
      have hpos := hg.root_pos
      rw [if_neg (by omega)] at hs
      obtain ⟨a, ha, hptr⟩ := hg.root
      obtain ⟨nd, locked, hmem, hok⟩ := hg.internal (by omega) ha
      have hlow := (hg.range ha).1
      have hfence := hok.next.lt
      have hread : g.store.read g.store.root.ptr = .internal nd locked := by
        rw [hptr]
        exact hmem
      have hstop : internalNodeSearch nd 0 false = .error .fenceLowest := by
        rw [internalNodeSearch, if_neg (by simp), if_neg (by omega),
          Checked.assert_of_not (by have := hok.lowest; omega)]
        rfl
      rw [hread] at hs
      simp only [hstop, Client.attempt_error] at hs
      cases hs
      exact ⟨rfl, hr, hk, .crashed⟩
  | @leaf p l hfc hp =>
    obtain ⟨a, ha, hptr⟩ := hp
    obtain ⟨h, lf, lock, hmem, hok, -⟩ := hg.leaf ha
    have hread : g.store.read (.at a) = .leaf lf lock := hmem
    have hblank := hb l lf ⟨a, ha, by rw [hmem]; rfl⟩
    simp only [Client.stepLeaf, hptr, hread, hr, hk, hfc] at hs
    have hnull := leafNodeSearch_null hblank ch.buffer p.siblingAddr ch.speculativeIdx
    generalize leafNodeSearch lf ch.buffer p.siblingAddr 0 false ch.speculativeIdx = res at hnull hs
    cases hnull with
    | done =>
      cases hs
      exact ⟨rfl, hr, hk, .done⟩
    | reRead =>
      cases hs
      exact ⟨rfl, hr, hk, hpc ▸ .leaf hfc ⟨a, ha, hptr⟩⟩
    | turnRight hsib =>
      cases hs
      rcases hok.sibling with ⟨-, h0⟩ | hp'
      · exact absurd h0 hsib
      · exact ⟨rfl, hr, hk, .leaf rfl hp'⟩
    | stopped =>
      cases hs
      exact ⟨rfl, hr, hk, .crashed⟩
  | done => cases hs
  | crashed => cases hs

/-- **A search for the null key** changes nothing, and returns the null value if it returns. -/
theorem null_search {g : Charted L} (hg : TreeOk g) (hb : BlankLeaves g) {treeCache : TreeCache}
    (hold : treeCache.Holds g.store.cached) (o : Nat → Surroundings L) (n : Nat) {s' : Store L} {c' : CachedClient L}
    (h : (CachedClient.call .search 0 treeCache).after g.store o n = some (s', c')) :
    s' = g.store ∧ c'.treeCache = treeCache ∧ ∀ v, c'.client.pc = .done v → v = kValueNull := by
  -- after the lookup, which finds no node
  have hrun : ∀ n s' c', (CachedClient.call .search 0 treeCache).after g.store o (n + 1) = some (s', c') →
      s' = g.store ∧ c'.treeCache = treeCache ∧ c'.client.request = .search ∧ c'.client.key = 0 ∧
        NullAt g c'.client.pc := by
    intro n
    induction n with
    | zero =>
      intro s' c' h
      have hmiss : treeCache.searchFromCache 0 = none := by
        cases hf : treeCache.searchFromCache 0 with
        | none => rfl
        | some x =>
          obtain ⟨-, -, hnd, hlow, -⟩ := hold.searchFromCache hf
          obtain ⟨a, ha, -⟩ := (hg.cached _ hnd).leftmost
          have := (hg.range ha).1
          omega
      have hpos := hg.root_pos
      have hlevel : g.store.root.level ≠ 0 := by omega
      have hpc : (CachedClient.call (L := L) .search 0 treeCache).client.pc = .start := rfl
      have hfound : (CachedClient.call (L := L) .search 0 treeCache).invalidated.searchFromCache
          (CachedClient.call (L := L) .search 0 treeCache).client.key = none := hmiss
      rw [CachedClient.after, CachedClient.after, Option.bind_some, CachedClient.step] at h
      simp only [hpc, hfound, Option.map_none, Client.step, Client.stepStart, Checked.assert_of hlevel,
        Client.attempt_ok,
        Option.map_some] at h
      cases h
      exact ⟨rfl, rfl, rfl, rfl, .visit⟩
    | succ n ih =>
      intro s' c' h
      rw [CachedClient.after] at h
      obtain ⟨⟨s₁, c₁⟩, h₁, hst⟩ := Option.bind_eq_some_iff.1 h
      obtain ⟨rfl, hc, hr, hk, hat⟩ := ih s₁ c₁ h₁
      simp only [CachedClient.step] at hst
      split at hst
      · rename_i hpc
        rw [hpc] at hat
        cases hat
      · obtain ⟨⟨s₂, cl₂⟩, hmove, heq⟩ := Option.map_eq_some_iff.1 hst
        cases heq
        obtain ⟨rfl, hr', hk', hat'⟩ := hat.step hg hb hr hk hmove
        exact ⟨rfl, (CachedClient.filled_same rfl).trans hc, hr', hk', hat'⟩
  cases n with
  | zero =>
    cases h
    exact ⟨rfl, rfl, fun v hv => by cases hv⟩
  | succ n =>
    obtain ⟨hs, hc, -, -, hat⟩ := hrun n s' c' h
    refine ⟨hs, hc, fun v hv => ?_⟩
    rw [hv] at hat
    cases hat
    rfl

end Chime

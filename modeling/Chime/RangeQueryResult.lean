import Chime.CacheTransparency
import Chime.EmptySlots
import Chime.LeafRoundTrip
import Chime.Lib.Folds
import Chime.RangeQuery

/-!
# The result of a range query

A range query on a tree without other clients: the segments that it reads are of leaves of the tree, since a cached
node leads to leaves for ever, so that what it collects is stored (`parseLeaves_ok`), and a search finds what the tree
stores (`QueryOk.search`). At the end all keys are looked up (`range_query_result`). The loop `re_read` ends once no
segment is rejected: in a leaf whose items are placed, hopping is consistent (`hopConsistent_of_placed`). The segments
have the neighborhoods of the keys (`neighborhood_in_segments`).
-/

namespace Chime

open Boundary (Next Extends Below)
open Filter Records
open Cyclic (slot gap)

variable {L : Layout} {g : Charted L} {fromKey toKey : Nat} {q q' : QueryState L} {o : QuerySurroundings L}

/-! ## What a call returns -/

section Returns

variable {s s' : Store L} {c c' : CachedClient L} {sur : Nat → Surroundings L} {n m v : Nat}

theorem CachedClient.after_done (h : c.after s sur n = some (s', c')) (hpc : c'.client.pc = .done v) (hm : n < m) :
    c.after s sur m = none := by
  induction m, hm using Nat.le_induction with
  | base =>
    rw [CachedClient.after, h, Option.bind_some, CachedClient.step]
    simp only [hpc, Client.step]
    rfl
  | succ m _ ih =>
    rw [CachedClient.after, ih]
    rfl

/-- **What is returned** is determined by the run. -/
theorem CachedClient.returns_of_done (h : c.after s sur n = some (s', c')) (hpc : c'.client.pc = .done v) :
    (∀ fuel x, c.returns s sur fuel = some x → x = (s', c'.treeCache, v)) ∧
      ∀ᶠ fuel in atTop, c.returns s sur fuel = some (s', c'.treeCache, v) := by
  have honly : ∀ fuel x, c.returns s sur fuel = some x → x = (s', c'.treeCache, v) := by
    intro fuel x hx
    obtain ⟨m, -, hm⟩ := List.exists_of_findSome?_eq_some hx
    obtain ⟨⟨s₁, c₁⟩, haft, hm⟩ := Option.bind_eq_some_iff.1 hm
    split at hm
    · rename_i w hpc₁
      cases hm
      rcases Nat.lt_trichotomy n m with hlt | rfl | hlt
      · rw [CachedClient.after_done h hpc hlt] at haft
        cases haft
      · cases h.symm.trans haft
        cases hpc.symm.trans hpc₁
        rfl
      · rw [CachedClient.after_done haft hpc₁ hlt] at h
        cases h
    · cases hm
  refine ⟨honly, eventually_atTop.2 ⟨n + 1, fun fuel hn => ?_⟩⟩
  cases hr : c.returns s sur fuel with
  | some x => rw [honly fuel x hr]
  | none =>
    have hno := List.findSome?_eq_none_iff.1 hr n (List.mem_range.2 hn)
    simp only [h, Option.bind_some, hpc] at hno
    cases hno

end Returns

/-! ## The state of a query -/

/-- The entries of `ret` are for keys in the range, with what the tree has for them. -/
def RetOk (g : Charted L) (fromKey toKey : Nat) (ret : Nat → Option Nat) : Prop :=
  ∀ k v, ret k = some v → (fromKey ≤ k ∧ k < toKey) ∧ FoundIn g k v

/-- The state of a query: the remote memory of the tree `g`, and what the cache and `ret` have. -/
structure QueryOk (g : Charted L) (fromKey toKey : Nat) (q : QueryState L) : Prop where
  remote : (g.caching q.store.cached).store = q.store
  tree : TreeOk (g.caching q.store.cached)
  holds : q.treeCache.Holds q.store.cached
  ret : RetOk g fromKey toKey q.ret

theorem RetOk.update {ret : Nat → Option Nat} (h : RetOk g fromKey toKey ret) {k v : Nat} (hk : fromKey ≤ k)
    (hkt : k < toKey) (hv : FoundIn g k v) : RetOk g fromKey toKey (Function.update ret k (some v)) := by
  intro j w hj
  by_cases hjk : j = k
  · subst hjk
    rw [Function.update_self] at hj
    cases hj
    exact ⟨⟨hk, hkt⟩, hv⟩
  · rw [Function.update_of_ne hjk] at hj
    exact h j w hj

theorem isSome_update {ret : Nat → Option Nat} {j k v : Nat} (h : j = k ∨ (ret j).isSome = true) :
    (Function.update ret k (some v) j).isSome = true := by
  by_cases hjk : j = k
  · rw [hjk, Function.update_self]
    rfl
  · rw [Function.update_of_ne hjk]
    exact h.resolve_left hjk

theorem not_contents_null {v : Nat} : ¬Contents g 0 v := by
  rintro ⟨l, lf, -, hst⟩
  exact hst.1 rfl

theorem caching_of_remote {s : Store L} (h : s.remote = g.store.remote) : (g.caching s.cached).store = s := by
  obtain ⟨mem, root, next, cached⟩ := s
  obtain ⟨⟨mem', root', next', cached'⟩, dir⟩ := g
  cases h
  rfl

/-! ## Searches -/

section Search

variable {k fuel : Nat}

/-- The search of a key that an operation may have: it returns what the tree has. -/
theorem QueryOk.search_run (hq : QueryOk g fromKey toKey q) (h3 : 3 ≤ L.internalSpanSize) (hk : 1 ≤ k)
    (hkf : k < L.keyFull)
    (sur : Nat → Surroundings L) : ∃ n s' c' v, (CachedClient.call .search k q.treeCache).after q.store sur n = some
    (s', c') ∧
      c'.client.pc = .done v ∧ FoundIn g k v ∧ (g.caching s'.cached).store = s' ∧ TreeOk (g.caching s'.cached) ∧
      c'.treeCache.Holds s'.cached := by
  have hold : q.treeCache.Holds (g.caching q.store.cached).store.cached := hq.holds
  obtain ⟨n, s', c', haft, hout, hok⟩ := cached_call hq.tree h3 (.inl rfl) hk hkf hold sur
  obtain ⟨hremote, v, hpc, hv⟩ := hout.of_search
  have hs' : (g.caching s'.cached).store = s' := caching_of_remote hremote
  refine ⟨n, s', c', v, hq.remote ▸ haft, hpc, hv, hs', ?_, hok.holds⟩
  rw [Charted.caching, show ({ g.store with cached := s'.cached } : Store L) = s' from hs']
  exact hok.tree

/-- **A search** puts what the tree has into `ret`. -/
theorem QueryOk.search (hq : QueryOk g fromKey toKey q) (hb : BlankLeaves g) (h3 : 3 ≤ L.internalSpanSize)
    (hk : fromKey ≤ k) (hkt : k < toKey) (hto : toKey ≤ L.keyFull) (h : q.search o fuel k = some q') :
    QueryOk g fromKey toKey q' ∧ (q'.ret k).isSome = true ∧ ∀ j, (q.ret j).isSome = true →
      (q'.ret j).isSome = true := by
  obtain ⟨⟨s', t', v⟩, hret, heq⟩ := Option.bind_eq_some_iff.1 h
  cases heq
  have hresult : FoundIn g k v ∧ (g.caching s'.cached).store = s' ∧ TreeOk (g.caching s'.cached) ∧
      t'.Holds s'.cached := by
    by_cases hk0 : k = 0
    · -- the null key
      subst hk0
      obtain ⟨n, -, hn⟩ := List.exists_of_findSome?_eq_some hret
      obtain ⟨⟨s₁, c₁⟩, haft, hn⟩ := Option.bind_eq_some_iff.1 hn
      rw [← hq.remote] at haft
      obtain ⟨rfl, hcache, hnull⟩ := null_search hq.tree hb hq.holds _ n haft
      split at hn
      · rename_i hpc
        cases hn
        exact ⟨.inr ⟨hnull v hpc, fun w => not_contents_null⟩, rfl, hq.tree, hcache ▸ hq.holds⟩
      · cases hn
    · obtain ⟨n, s₁, c₁, w, haft, hpc, hv, hs, htree, hold⟩ :=
        hq.search_run h3 (by omega) (lt_of_lt_of_le hkt hto) (o.search k)
      cases (CachedClient.returns_of_done haft hpc).1 fuel _ hret
      exact ⟨hv, hs, htree, hold⟩
  obtain ⟨hv, hs, htree, hold⟩ := hresult
  exact ⟨⟨hs, htree, hold, hq.ret.update hk hkt hv⟩, isSome_update (.inl rfl), fun j hj => isSome_update (.inr hj)⟩

/-- A search ends. -/
theorem QueryOk.search_ends (hq : QueryOk g fromKey toKey q) (h3 : 3 ≤ L.internalSpanSize) (hk0 : 1 ≤ k)
    (hk : fromKey ≤ k) (hkt : k < toKey) (hto : toKey ≤ L.keyFull) :
    ∃ q', QueryOk g fromKey toKey q' ∧ ∀ᶠ fuel in atTop, q.search o fuel k = some q' := by
  obtain ⟨n, s', c', v, haft, hpc, hv, hs, htree, hold⟩ := hq.search_run h3 hk0 (lt_of_lt_of_le hkt hto) (o.search k)
  refine ⟨⟨s', c'.treeCache, Function.update q.ret k (some v)⟩, ⟨hs, htree, hold, hq.ret.update hk hkt hv⟩, ?_⟩
  filter_upwards [(CachedClient.returns_of_done haft hpc).2] with fuel hret
  rw [QueryState.search, hret]
  rfl

end Search

/-! ## Reads of leaves -/

/-- A segment within a leaf of the tree. -/
structure SegmentOk (L : Layout) (d : Directory) (seg : ReadSegment) : Prop where
  leaf : ∃ l, Points (d 0) l seg.leafAddr
  pos : 0 < seg.segmentSize
  le : seg.startIdx + seg.segmentSize ≤ L.leafSpanSize

/-- **Hopping is consistent** in every segment of a table whose items are placed. -/
theorem hopConsistent_of_placed {r : Records L} (hp : r.IsPlaced) {seg : ReadSegment}
    (hle : seg.startIdx + seg.segmentSize ≤ L.leafSpanSize) : hopConsistent r seg = true := by
  rw [hopConsistent, decide_eq_true_eq]
  intro j hj i hi hbit
  have hs : seg.startIdx + j < L.leafSpanSize := by omega
  have hslot : slot L.leafSpanSize (seg.startIdx + j : Nat) = ⟨seg.startIdx + j, hs⟩ :=
    Cyclic.slot_coe (⟨seg.startIdx + j, hs⟩ : Fin L.leafSpanSize)
  have hgap := gap_slot_add (⟨seg.startIdx + j, hs⟩ : Fin L.leafSpanSize) (i := i) (by omega)
  rw [getEntry, hslot, LeafEntry.hopBit_eq, ← hgap] at hbit
  obtain ⟨hkey, hhome⟩ := (hp.exact _ _ (hgap.symm ▸ by omega)).1 hbit
  exact ⟨hkey, congrArg Fin.val hhome⟩

/-- What is collected from a leaf is stored. -/
theorem collect_ok {l : Nat} {lf : LeafNode L} (hl : Leaves g l lf) (seg : ReadSegment) {ret : Nat → Option Nat}
    (h : RetOk g fromKey toKey ret) : RetOk g fromKey toKey (collect fromKey toKey lf.records seg ret) := by
  unfold collect
  generalize List.range' seg.startIdx seg.segmentSize = is
  induction is generalizing ret with
  | nil => exact h
  | cons i is ih =>
    rw [List.foldl_cons]
    refine ih ?_
    simp only
    split
    · rename_i he
      exact h.update he.2.1 he.2.2 (.inl ⟨l, lf, hl, he.1, _, rfl⟩)
    · exact h

/-- **The segments of one leaf**: what is read again is some of them, and none once no segment is rejected. -/
theorem parseLeaf_ok (hg : TreeOk g) (round : Nat) {segs : List ReadSegment}
    (hsegs : ∀ seg ∈ segs, SegmentOk L g.dir seg) {ret : Nat → Option Nat} (hret : RetOk g fromKey toKey ret) :
    ∃ ret' again, o.parseLeaf g.store fromKey toKey round segs ret = some (ret', again) ∧ RetOk g fromKey toKey ret' ∧
      again ⊆ segs ∧ ((∀ seg ∈ segs, o.rejected round seg = false) → again = []) := by
  induction segs generalizing ret with
  | nil => exact ⟨ret, [], rfl, hret, List.Subset.refl _, fun _ => rfl⟩
  | cons seg segs ih =>
    obtain ⟨⟨l, a, ha, hptr⟩, -, hle⟩ := hsegs seg List.mem_cons_self
    have hsegs' : ∀ seg ∈ segs, SegmentOk L g.dir seg := fun x hx => hsegs x (List.mem_cons_of_mem _ hx)
    obtain ⟨h, lf, lock, hmem, hok, -⟩ := hg.leaf ha
    have hread : g.store.read seg.leafAddr = .leaf lf lock := by
      rw [hptr]
      exact hmem
    have hhop := hopConsistent_of_placed hok.placed hle
    rw [QuerySurroundings.parseLeaf]
    simp only [hread, hhop, not_true, or_false]
    split
    · rename_i hrej
      obtain ⟨ret', again, heq, hret', hsub, -⟩ := ih hsegs' hret
      refine ⟨ret', seg :: again, by rw [heq]; rfl, hret', List.cons_subset_cons _ hsub, fun hno => ?_⟩
      rw [hno seg List.mem_cons_self] at hrej
      cases hrej
    · have hl : Leaves g l lf := ⟨a, ha, leafNode_eq.2 ⟨lock, hmem⟩⟩
      obtain ⟨ret', again, heq, hret', hsub, hno⟩ := ih hsegs' (collect_ok hl seg hret)
      exact ⟨ret', again, heq, hret', List.subset_cons_of_subset _ hsub,
        fun hall => hno fun x hx => hall x (List.mem_cons_of_mem _ hx)⟩

/-- **A round of reads**. -/
theorem parseLeaves_ok (hg : TreeOk g) (round : Nat) {info : List (List ReadSegment)}
    (hinfo : ∀ seg ∈ info.flatten, SegmentOk L g.dir seg) {ret : Nat → Option Nat} (hret : RetOk g fromKey toKey ret) :
    ∃ ret' next, o.parseLeaves g.store fromKey toKey round info ret = some (ret', next) ∧ RetOk g fromKey toKey ret' ∧
      (∀ seg ∈ next.flatten, SegmentOk L g.dir seg) ∧
        ((∀ seg, SegmentOk L g.dir seg → o.rejected round seg = false) → next = []) := by
  induction info generalizing ret with
  | nil => exact ⟨ret, [], rfl, hret, hinfo, fun _ => rfl⟩
  | cons segs info ih =>
    simp only [List.flatten_cons, List.mem_append] at hinfo
    obtain ⟨ret₁, again, heq₁, hret₁, hsub, hno₁⟩ := parseLeaf_ok (o := o) hg round (fun x hx => hinfo x (.inl hx)) hret
    obtain ⟨ret₂, next, heq₂, hret₂, hnext, hno₂⟩ := ih (fun x hx => hinfo x (.inr hx)) hret₁
    refine ⟨ret₂, if again = [] then next else again :: next, ?_, hret₂, ?_, fun hall => ?_⟩
    · rw [QuerySurroundings.parseLeaves]
      simp only [heq₁, heq₂, Option.bind_eq_bind, Option.bind_some]
      rfl
    · split
      · exact hnext
      · intro x hx
        rw [List.flatten_cons, List.mem_append] at hx
        exact hx.elim (fun hx => hinfo x (.inl (hsub hx))) (hnext x)
    · rw [if_pos (hno₁ fun x hx => hall x (hinfo x (.inl hx))), hno₂ hall]

/-! ## The segments that are read -/

theorem neighborIntervals_inSpan {hashIdx : Nat} (hh : hashIdx < L.leafSpanSize) :
    ∀ x ∈ neighborIntervals L hashIdx, InSpan L.leafSpanSize x := by
  have hpos := L.neighborSize_pos
  have hle := L.neighborSize_le
  intro x hx
  rw [neighborIntervals] at hx
  split at hx
  · rw [List.mem_singleton.1 hx]
    exact ⟨by simp only; omega, by simpa using ‹_›⟩
  · rcases List.mem_cons.1 hx with rfl | hx
    · exact ⟨hh, le_rfl⟩
    · rw [List.mem_singleton.1 hx]
      exact ⟨by simp only; omega, by simp only; omega⟩

theorem leafIntervals_inSpan (leaf : GlobalAddress × FenceKeys) :
    ∀ x ∈ o.leafIntervals fromKey toKey leaf, InSpan L.leafSpanSize x := by
  intro x hx
  rw [QuerySurroundings.leafIntervals] at hx
  split at hx
  · rw [List.mem_singleton.1 hx]
    exact ⟨L.leafSpanSize_pos, le_rfl⟩
  · obtain ⟨k, -, hx⟩ := List.mem_flatMap.1 hx
    split at hx
    · rename_i i _
      rw [List.mem_singleton.1 hx]
      exact ⟨Nat.lt_succ_self _, i.isLt⟩
    · exact neighborIntervals_inSpan (Fin.isLt _) x hx

theorem segments_ok {d : Directory} {leafAddr : GlobalAddress} (hleaf : ∃ l, Points (d 0) l leafAddr)
    {intervals : List (Nat × Nat)} (h : ∀ x ∈ intervals, InSpan L.leafSpanSize x) :
    ∀ seg ∈ o.segments leafAddr intervals, SegmentOk L d seg := by
  intro seg hseg
  obtain ⟨x, hx, rfl⟩ := List.mem_map.1 hseg
  obtain ⟨h1, h2⟩ := mergeInternals_inSpan _ h x hx
  exact ⟨hleaf, by simp only; omega, by simp only; omega⟩

/-- The neighborhood of a home and its intervals have the same slots. -/
theorem mem_neighborIntervals (home s : Fin L.leafSpanSize) :
    s.val ∈ Intervals.union (neighborIntervals L home.val) ↔ s ∈ neighborhood L home := by
  have hle := L.neighborSize_le
  have hs := s.isLt
  rw [mem_neighborhood, Cyclic.gap_eq_ite, neighborIntervals]
  split
  · rw [Intervals.mem_union_singleton]
    split <;> omega
  · rw [Intervals.mem_union_cons, Intervals.mem_union_singleton]
    split <;> omega

/-- The segments have every slot of the intervals. -/
theorem exists_segment {leafAddr : GlobalAddress} {intervals : List (Nat × Nat)}
    (h : ∀ x ∈ intervals, InSpan L.leafSpanSize x) {i : Nat} (hi : i ∈ Intervals.union intervals) :
    ∃ seg ∈ o.segments leafAddr intervals, seg.startIdx ≤ i ∧ i < seg.startIdx + seg.segmentSize := by
  obtain ⟨x, hx, hle, hlt⟩ := (mergeInternals_apart o.maxLeafEntryPerIO h).2 hi
  refine ⟨_, List.mem_map_of_mem hx, hle, ?_⟩
  simp only
  omega

/-- **The neighborhoods** of the keys that are not read speculatively are in the segments of the leaf. -/
theorem neighborhood_in_segments {leaf : GlobalAddress × FenceKeys} {k : Nat} (hk : k ∈ leaf.2.keys fromKey toKey)
    (hspec : o.speculativeIdx leaf.1 k = none) {s : Fin L.leafSpanSize}
    (hs : s ∈ neighborhood L (L.getHashedLeafEntryIndex k)) :
    ∃ seg ∈ o.segments leaf.1 (o.leafIntervals fromKey toKey leaf),
      seg.startIdx ≤ s.val ∧ s.val < seg.startIdx + seg.segmentSize := by
  refine exists_segment (leafIntervals_inSpan leaf) ?_
  rw [QuerySurroundings.leafIntervals]
  split
  · exact ⟨_, List.mem_singleton_self _, Nat.zero_le _, s.isLt⟩
  · obtain ⟨x, hx, hin⟩ := (mem_neighborIntervals _ s).2 hs
    refine ⟨x, List.mem_flatMap.2 ⟨k, hk, ?_⟩, hin⟩
    simpa only [hspec] using hx

/-- An assignment to a map by addresses. -/
theorem mem_assignEntry {α : Type} {p : GlobalAddress} {f : Option α → α} {entries : List (GlobalAddress × α)}
    {y : GlobalAddress × α} (hy : y ∈ assignEntry p f entries) : (∃ x, y = (p, f x)) ∨ y ∈ entries := by
  induction entries with
  | nil => exact .inl ⟨_, List.mem_singleton.1 hy⟩
  | cons e entries ih =>
    obtain ⟨q, x⟩ := e
    rw [assignEntry] at hy
    split at hy
    · rcases List.mem_cons.1 hy with rfl | hy
      · exact .inr List.mem_cons_self
      · exact (ih hy).imp_right (List.mem_cons_of_mem _)
    · split at hy
      · rcases List.mem_cons.1 hy with rfl | hy
        · exact .inl ⟨_, rfl⟩
        · exact .inr (List.mem_cons_of_mem _ hy)
      · rcases List.mem_cons.1 hy with rfl | hy
        · exact .inl ⟨_, rfl⟩
        · exact .inr hy

/-- The leaves come from the nodes. -/
theorem mem_leafFences {nodes : List InternalNode} {y : GlobalAddress × FenceKeys}
    (hy : y ∈ leafFences nodes fromKey toKey) :
    ∃ nd ∈ nodes, y ∈ nd.childRanges := by
  have hfold : ∀ (xs : List (GlobalAddress × FenceKeys)) (fences : List (GlobalAddress × FenceKeys)),
      y ∈ xs.foldl (fun fences x => assignEntry x.1 (fun _ => x.2) fences) fences → y ∈ xs ∨ y ∈ fences := by
    intro xs
    induction xs with
    | nil => exact fun _ h => .inr h
    | cons x xs ih =>
      intro fences h
      rcases ih _ h with h | h
      · exact .inl (List.mem_cons_of_mem _ h)
      · rcases mem_assignEntry h with ⟨_, rfl⟩ | h
        · exact .inl List.mem_cons_self
        · exact .inr h
  have hmem := (hfold _ [] hy).resolve_right List.not_mem_nil
  exact List.mem_flatMap.1 (List.mem_filter.1 hmem).1

/-- The children of a node that routes, and where their ranges begin. -/
theorem childRanges_points {d : Directory} {nd : InternalNode} (hr : Routes L d nd) (h3 : 3 ≤ L.internalSpanSize) :
    ∀ x ∈ nd.childRanges, Points (d (nd.level - 1)) x.2.lowest x.1 := by
  have hentries : ∀ (es : List InternalEntry)
    (e : InternalEntry), (∀ e' ∈ e :: es, Points (d (nd.level - 1)) e'.key e'.ptr) →
      ∀ x ∈ InternalNode.entryRanges nd.highest e es, Points (d (nd.level - 1)) x.2.lowest x.1 := by
    intro es
    induction es with
    | nil =>
      intro e he x hx
      rw [List.mem_singleton.1 hx]
      exact he e List.mem_cons_self
    | cons e' es ih =>
      intro e he x hx
      rcases List.mem_cons.1 hx with rfl | hx
      · exact he e List.mem_cons_self
      · exact ih e' (fun e'' h => he e'' (List.mem_cons_of_mem _ h)) x hx
  obtain ⟨e, es, hrec⟩ := List.exists_cons_of_ne_nil (hr.nonempty h3)
  intro x hx
  rw [InternalNode.childRanges, hrec] at hx
  rcases List.mem_cons.1 hx with rfl | hx
  · exact hr.leftmost
  · exact hentries es e (fun e' he' => (hr.records e' (hrec ▸ he')).1) x hx

theorem mem_searchRangeFromCache {c : TreeCache} {nodes : List InternalNode} (h : c.Holds nodes) {nd : InternalNode}
    (hnd : nd ∈ c.searchRangeFromCache fromKey toKey) : nd ∈ nodes ∧ nd.level = 1 := by
  obtain ⟨hnd, hlevel⟩ := List.mem_filter.1 hnd
  obtain ⟨e, he, hptr⟩ := List.mem_filterMap.1 hnd
  have he' := (List.mem_filter.1 ((List.takeWhile_sublist _).subset he)).1
  exact ⟨(h.copies e ((List.dropWhile_suffix _).subset he') nd hptr).1, by simpa using hlevel⟩

theorem mem_speculativeKeys {leaf : GlobalAddress × FenceKeys} {k : Nat}
    (hk : k ∈ o.speculativeKeys fromKey toKey leaf) :
    leaf.2.lowest ≤ k ∧ fromKey ≤ k ∧ k < toKey := by
  rw [QuerySurroundings.speculativeKeys] at hk
  split at hk
  · cases hk
  · have hmem := (List.mem_filter.1 hk).1
    rw [FenceKeys.keys, List.mem_range'_1] at hmem
    omega

/-! ## The loop -/

section Loop

variable {fuel : Nat} {keys : List Nat} {retryLeafKeys leafKeys : List (GlobalAddress × List Nat)}

/-- The addresses are those of leaves. -/
def AtLeaves {α : Type} (d : Directory) (entries : List (GlobalAddress × α)) : Prop :=
  ∀ y ∈ entries, ∃ l, Points (d 0) l y.1

/-- A lookup that finds a node of level 1 leads to a leaf. -/
theorem QueryOk.cached_leaf (hq : QueryOk g fromKey toKey q) (h3 : 3 ≤ L.internalSpanSize) {k : Nat}
    {e : TreeCacheEntry} {nd : InternalNode}
    (hf : (q.treeCache.searchFromCache k).filter (·.2.level = 1) = some (e, nd)) :
    ∃ l, Points (g.dir 0) l (nd.childPtr k).1 := by
  obtain ⟨hf, hlevel⟩ := Option.filter_eq_some_iff.1 hf
  obtain ⟨-, -, hnd, hlow, hhigh⟩ := hq.holds.searchFromCache hf
  have hr : Routes L g.dir nd := hq.tree.cached nd hnd
  have hpos := (hq.tree.range hr.leftmost.choose_spec.1).1
  obtain ⟨l, -, hp⟩ := (hr.childPtr hlow (by omega)).1.points h3
  rw [of_decide_eq_true hlevel] at hp
  exact ⟨l, hp⟩

theorem AtLeaves.assign {α : Type} {d : Directory} {entries : List (GlobalAddress × α)} (h : AtLeaves d entries)
    {p : GlobalAddress} (hp : ∃ l, Points (d 0) l p) (f : Option α → α) : AtLeaves d (assignEntry p f entries) := by
  intro y hy
  rcases mem_assignEntry hy with ⟨x, rfl⟩ | hy
  · exact hp
  · exact h y hy

/-- The keys that were read speculatively. -/
theorem retrySpeculative_ok (hb : BlankLeaves g) (h3 : 3 ≤ L.internalSpanSize) (hto : toKey ≤ L.keyFull)
    (hkeys : ∀ k ∈ keys, fromKey ≤ k ∧ k < toKey) (hq : QueryOk g fromKey toKey q)
    (hleaves : AtLeaves g.dir retryLeafKeys)
    (h : QueryState.retrySpeculative o fuel q retryLeafKeys keys = some (q', leafKeys)) :
    QueryOk g fromKey toKey q' ∧ AtLeaves g.dir leafKeys := by
  induction keys generalizing q retryLeafKeys with
  | nil =>
    cases h
    exact ⟨hq, hleaves⟩
  | cons k keys ih =>
    obtain ⟨hk, hkt⟩ := hkeys k List.mem_cons_self
    have ih := fun {q₁ m₁} => @ih q₁ m₁ fun j hj => hkeys j (List.mem_cons_of_mem _ hj)
    rw [QueryState.retrySpeculative] at h
    split at h
    · exact ih hq hleaves h
    · split at h
      · obtain ⟨q₁, h₁, h⟩ := Option.bind_eq_some_iff.1 h
        exact ih (hq.search hb h3 hk hkt hto h₁).1 hleaves h
      · rename_i e nd hf
        exact ih hq (hleaves.assign (hq.cached_leaf h3 hf) _) h

theorem retrySpeculative_ends (h3 : 3 ≤ L.internalSpanSize) (hto : toKey ≤ L.keyFull)
    (hkeys : ∀ k ∈ keys, 1 ≤ k ∧ fromKey ≤ k ∧ k < toKey) (hq : QueryOk g fromKey toKey q)
    (hleaves : AtLeaves g.dir retryLeafKeys) :
    ∃ q' leafKeys, QueryOk g fromKey toKey q' ∧ AtLeaves g.dir leafKeys ∧
      ∀ᶠ fuel in atTop, QueryState.retrySpeculative o fuel q retryLeafKeys keys = some (q', leafKeys) := by
  induction keys generalizing q retryLeafKeys with
  | nil => exact ⟨q, retryLeafKeys, hq, hleaves, .of_forall fun _ => rfl⟩
  | cons k keys ih =>
    obtain ⟨hk0, hk, hkt⟩ := hkeys k List.mem_cons_self
    have ih := fun {q₁ m₁} => @ih q₁ m₁ fun j hj => hkeys j (List.mem_cons_of_mem _ hj)
    simp only [QueryState.retrySpeculative]
    split
    · exact ih hq hleaves
    · split
      · obtain ⟨q₁, hq₁, h₁⟩ := hq.search_ends (o := o) h3 hk0 hk hkt hto
        obtain ⟨q', m', hq', hm', h'⟩ := ih hq₁ hleaves
        refine ⟨q', m', hq', hm', ?_⟩
        filter_upwards [h₁, h'] with fuel h₁ h'
        rw [h₁]
        exact h'
      · rename_i e nd hf
        exact ih hq (hleaves.assign (hq.cached_leaf h3 hf) _)

/-- The segments of a further round. -/
theorem nextInfo_ok {next : List (List ReadSegment)} (hnext : ∀ seg ∈ next.flatten, SegmentOk L g.dir seg)
    (hleaves : AtLeaves g.dir leafKeys) : ∀ seg ∈
    (next ++ o.retrySegments leafKeys).flatten, SegmentOk L g.dir seg := by
  intro seg hseg
  rw [List.flatten_append, List.mem_append] at hseg
  rcases hseg with hseg | hseg
  · exact hnext seg hseg
  · obtain ⟨segs, hsegs, hseg⟩ := List.mem_flatten.1 hseg
    obtain ⟨x, hx, rfl⟩ := List.mem_map.1 hsegs
    refine segments_ok (hleaves x hx) (fun y hy => ?_) seg hseg
    obtain ⟨k, -, hy⟩ := List.mem_flatMap.1 hy
    exact neighborIntervals_inSpan (Fin.isLt _) y hy

/-- **A round** of the loop. -/
theorem QueryOk.round (hq : QueryOk g fromKey toKey q) (o : QuerySurroundings L) (round : Nat)
    {info : List (List ReadSegment)} (hinfo : ∀ seg ∈ info.flatten, SegmentOk L g.dir seg) :
    ∃ ret next, o.parseLeaves q.store fromKey toKey round info q.ret = some (ret, next) ∧
      QueryOk g fromKey toKey { q with ret } ∧ (∀ seg ∈ next.flatten, SegmentOk L g.dir seg) ∧
      ((∀ seg, SegmentOk L g.dir seg → o.rejected round seg = false) → next = []) := by
  have hret : RetOk (g.caching q.store.cached) fromKey toKey q.ret := hq.ret
  obtain ⟨ret, next, heq, hret, hnext, hno⟩ := parseLeaves_ok (o := o) hq.tree round hinfo hret
  exact ⟨ret, next, hq.remote ▸ heq, ⟨hq.remote, hq.tree, hq.holds, hret⟩, hnext, hno⟩

theorem reRead_succ {rounds round : Nat} {info next : List (List ReadSegment)} {ret : Nat → Option Nat}
    {q₁ : QueryState L} (hparse : o.parseLeaves q.store fromKey toKey round info q.ret = some (ret, next))
    (hretry : QueryState.retrySpeculative o fuel { q with ret } [] keys = some (q₁, leafKeys)) :
    QueryState.reRead o fuel fromKey toKey (rounds + 1) round keys info q =
      if (next ++ o.retrySegments leafKeys).flatten = [] then some q₁
      else QueryState.reRead o fuel fromKey toKey rounds (round + 1) [] (next ++ o.retrySegments leafKeys) q₁ := by
  rw [QueryState.reRead]
  simp only [hparse, hretry, Option.bind_eq_bind, Option.bind_some]
  rfl

theorem reRead_ok (hb : BlankLeaves g) (h3 : 3 ≤ L.internalSpanSize) (hto : toKey ≤ L.keyFull) {rounds round : Nat}
    {info : List (List ReadSegment)} (hkeys : ∀ k ∈ keys, fromKey ≤ k ∧ k < toKey) (hq : QueryOk g fromKey toKey q)
    (hinfo : ∀ seg ∈ info.flatten, SegmentOk L g.dir seg)
    (h : QueryState.reRead o fuel fromKey toKey rounds round keys info q = some q') : QueryOk g fromKey toKey q' := by
  induction rounds generalizing round keys info q with
  | zero => cases h
  | succ rounds ih =>
    obtain ⟨ret, next, hparse, hq₁, hnext, -⟩ := hq.round o round hinfo
    cases hretry : QueryState.retrySpeculative o fuel { q with ret } [] keys with
    | none =>
      rw [QueryState.reRead] at h
      simp only [hparse, hretry, Option.bind_eq_bind, Option.bind_some, Option.bind_none] at h
      cases h
    | some x =>
      obtain ⟨hq₂, hleaves⟩ := retrySpeculative_ok hb h3 hto hkeys hq₁ (List.forall_mem_nil _) hretry
      rw [reRead_succ hparse hretry] at h
      split at h
      · cases h
        exact hq₂
      · exact ih (List.forall_mem_nil _) hq₂ (nextInfo_ok hnext hleaves) h

/-- **The loop ends**, without speculative keys, within the rounds up to the first in which no segment is rejected. -/
theorem reRead_ends {n : Nat} (hquiet : ∀ i ≥ n, ∀ seg, SegmentOk L g.dir seg → o.rejected i seg = false)
    {d round : Nat} (hround : n ≤ round + d) {info : List (List ReadSegment)} (hq : QueryOk g fromKey toKey q)
    (hinfo : ∀ seg ∈ info.flatten, SegmentOk L g.dir seg) :
    ∃ q', QueryOk g fromKey toKey q' ∧
      ∀ fuel, ∀ rounds > d, QueryState.reRead o fuel fromKey toKey rounds round [] info q = some q' := by
  induction d generalizing round info q with
  | zero =>
    obtain ⟨ret, next, hparse, hq₁, -, hno⟩ := hq.round o round hinfo
    have hnil : (next ++ o.retrySegments []).flatten = [] := by
      rw [hno (hquiet round hround)]
      rfl
    refine ⟨_, hq₁, fun fuel rounds hrounds => ?_⟩
    obtain ⟨r, rfl⟩ := Nat.exists_eq_succ_of_ne_zero (show rounds ≠ 0 by omega)
    rw [reRead_succ hparse rfl, if_pos hnil]
  | succ d ih =>
    obtain ⟨ret, next, hparse, hq₁, hnext, -⟩ := hq.round o round hinfo
    obtain ⟨q', hq', h'⟩ :=
      ih (show n ≤ round + 1 + d by omega) hq₁ (nextInfo_ok (o := o) hnext (List.forall_mem_nil _))
    by_cases hnil : (next ++ o.retrySegments []).flatten = []
    · refine ⟨_, hq₁, fun fuel rounds hrounds => ?_⟩
      obtain ⟨r, rfl⟩ := Nat.exists_eq_succ_of_ne_zero (show rounds ≠ 0 by omega)
      rw [reRead_succ hparse rfl, if_pos hnil]
    · refine ⟨q', hq', fun fuel rounds hrounds => ?_⟩
      obtain ⟨r, rfl⟩ := Nat.exists_eq_succ_of_ne_zero (show rounds ≠ 0 by omega)
      rw [reRead_succ hparse rfl, if_neg hnil]
      exact h' fuel r (by omega)

/-- The loop ends from its first round on. -/
theorem reRead_first (h3 : 3 ≤ L.internalSpanSize) (hto : toKey ≤ L.keyFull) {n : Nat}
    (hquiet : ∀ i ≥ n, ∀ seg, SegmentOk L g.dir seg → o.rejected i seg = false) {info : List (List ReadSegment)}
    (hkeys : ∀ k ∈ keys, 1 ≤ k ∧ fromKey ≤ k ∧ k < toKey) (hq : QueryOk g fromKey toKey q)
    (hinfo : ∀ seg ∈ info.flatten, SegmentOk L g.dir seg) :
    ∃ q', QueryOk g fromKey toKey q' ∧
      ∀ᶠ fuel in atTop, QueryState.reRead o fuel fromKey toKey fuel 0 keys info q = some q' := by
  obtain ⟨ret, next, hparse, hq₁, hnext, -⟩ := hq.round o 0 hinfo
  obtain ⟨q₂, leafKeys, hq₂, hleaves, hretry⟩ := retrySpeculative_ends (o := o) h3 hto hkeys hq₁ (List.forall_mem_nil _)
  obtain ⟨q', hq', h'⟩ := reRead_ends hquiet (show n ≤ 1 + n by omega) hq₂ (nextInfo_ok (o := o) hnext hleaves)
  by_cases hnil : (next ++ o.retrySegments leafKeys).flatten = []
  · refine ⟨q₂, hq₂, ?_⟩
    filter_upwards [hretry, eventually_gt_atTop 0] with fuel hretry hfuel
    obtain ⟨r, rfl⟩ := Nat.exists_eq_succ_of_ne_zero hfuel.ne'
    rw [reRead_succ hparse hretry, if_pos hnil]
  · refine ⟨q', hq', ?_⟩
    filter_upwards [hretry, eventually_gt_atTop (n + 1)] with fuel hretry hfuel
    obtain ⟨r, rfl⟩ := Nat.exists_eq_succ_of_ne_zero (show fuel ≠ 0 by omega)
    rw [reRead_succ hparse hretry, if_neg hnil]
    exact h' _ r (by omega)

end Loop

/-! ## The query -/

/-- From this round on no writer is active: the reads find encoded leaves with one node version each. -/
def QuerySurroundings.Quiet (o : QuerySurroundings L) (n : Nat) : Prop :=
  ∃ (S : LeafSizes) (image : Nat → GlobalAddress → Nat → UInt8) (buffer : Nat → ReadSegment → Nat → UInt8),
    S.leafSpanSize = L.leafSpanSize ∧ ∀ i ≥ n,
      (∀ p, ∃ leaf version, RawLeaf.Uniform S leaf version ∧ RawLeaf.Encoded S leaf (image i p)) ∧
      ∀ seg, o.rejected i seg = (decodeSegment S seg.startIdx seg.segmentSize
        (Memory.view (image i seg.leafAddr) (LeafVersionManager.getOffsetInfo S seg.startIdx seg.segmentSize).1)
        (buffer i seg)).isNone

/-- Then no segment is rejected. -/
theorem QuerySurroundings.Quiet.accepts {n : Nat} (h : o.Quiet n) {d : Directory} :
    ∀ i ≥ n, ∀ seg, SegmentOk L d seg → o.rejected i seg = false := by
  obtain ⟨S, image, buffer, hspan, hall⟩ := h
  intro i hi seg hseg
  obtain ⟨himage, hrej⟩ := hall i hi
  obtain ⟨leaf, version, hv, henc⟩ := himage seg.leafAddr
  have hacc := henc.acceptedSegment hv hseg.pos (hspan ▸ hseg.le)
  rw [hrej, Option.isNone_eq_false_iff]
  exact (decodeSegment_isSome hseg.pos (fun _ _ => rfl) _).2 hacc

/-- What is read first: the leaves of cached nodes of level 1. -/
theorem QueryOk.firstReads (hq : QueryOk g fromKey toKey q) (h3 : 3 ≤ L.internalSpanSize) (o : QuerySurroundings L)
    {leaves}
    (hleaves : leaves = leafFences (q.treeCache.searchRangeFromCache fromKey toKey) fromKey toKey) :
    (∀ k ∈ leaves.flatMap (o.speculativeKeys fromKey toKey), 1 ≤ k ∧ fromKey ≤ k ∧ k < toKey) ∧
      ∀ seg ∈ (leaves.map fun leaf => o.segments leaf.1 (o.leafIntervals fromKey toKey leaf)).flatten,
        SegmentOk L g.dir seg := by
  have hpoints : ∀ leaf ∈ leaves, Points (g.dir 0) leaf.2.lowest leaf.1 := by
    intro leaf hleaf
    obtain ⟨nd, hnd, hchild⟩ := mem_leafFences (hleaves ▸ hleaf)
    obtain ⟨hnd, hlevel⟩ := mem_searchRangeFromCache hq.holds hnd
    have hr : Routes L g.dir nd := hq.tree.cached nd hnd
    have hp := childRanges_points hr h3 leaf hchild
    rwa [hlevel] at hp
  constructor
  · intro k hk
    obtain ⟨leaf, hleaf, hk⟩ := List.mem_flatMap.1 hk
    obtain ⟨hlow, hrange⟩ := mem_speculativeKeys hk
    have := (hq.tree.range (hpoints leaf hleaf).choose_spec.1).1
    exact ⟨by omega, hrange⟩
  · intro seg hseg
    obtain ⟨segs, hsegs, hseg⟩ := List.mem_flatten.1 hseg
    obtain ⟨leaf, hleaf, rfl⟩ := List.mem_map.1 hsegs
    exact segments_ok ⟨_, hpoints leaf hleaf⟩ (leafIntervals_inSpan leaf) seg hseg

theorem QueryOk.readLeaves (hq : QueryOk g fromKey toKey q) (hb : BlankLeaves g) (h3 : 3 ≤ L.internalSpanSize)
    (hto : toKey ≤ L.keyFull) {fuel : Nat}
    (h : q.readLeaves o fuel fromKey toKey (q.treeCache.searchRangeFromCache fromKey toKey) = some q') :
    QueryOk g fromKey toKey q' := by
  obtain ⟨hkeys, hinfo⟩ := hq.firstReads h3 o rfl
  exact reRead_ok hb h3 hto (fun k hk => (hkeys k hk).2) hq hinfo h

theorem QueryOk.readLeaves_ends (hq : QueryOk g fromKey toKey q) (h3 : 3 ≤ L.internalSpanSize) (hto : toKey ≤ L.keyFull)
    {n : Nat} (hquiet : o.Quiet n) : ∃ q', QueryOk g fromKey toKey q' ∧
      ∀ᶠ fuel in atTop, q.readLeaves o fuel fromKey toKey (q.treeCache.searchRangeFromCache fromKey toKey) =
        some q' := by
  obtain ⟨hkeys, hinfo⟩ := hq.firstReads h3 o rfl
  exact reRead_first h3 hto hquiet.accepts hkeys hq hinfo

theorem mem_queryKeys {k : Nat} : k ∈ List.range' fromKey (toKey - fromKey) ↔ fromKey ≤ k ∧ k < toKey := by
  rw [List.mem_range'_1]
  omega

/-- **What a query returns** has all keys of the range. -/
theorem QueryOk.rangeQuery (hq : QueryOk g fromKey toKey q) (hb : BlankLeaves g) (h3 : 3 ≤ L.internalSpanSize)
    (hto : toKey ≤ L.keyFull) {fuel : Nat} {b : Bool} (h : q.rangeQuery o fuel fromKey toKey = some (b, q')) :
    QueryOk g fromKey toKey q' ∧ ∀ k, fromKey ≤ k → k < toKey → (q'.ret k).isSome = true := by
  -- a loop over the keys looks up each of them
  have hloop : ∀ {f : QueryState L → Nat → Option (QueryState L)} {q₁ : QueryState L}, QueryOk g fromKey toKey q₁ →
      (∀ k, fromKey ≤ k → k < toKey → ∀ q q', QueryOk g fromKey toKey q → f q k = some q' →
        QueryOk g fromKey toKey q' ∧ (q'.ret k).isSome = true ∧ ∀ j, (q.ret j).isSome = true →
          (q'.ret j).isSome = true) →
      (List.range' fromKey (toKey - fromKey)).foldlM f q₁ = some q' →
      QueryOk g fromKey toKey q' ∧ ∀ k, fromKey ≤ k → k < toKey → (q'.ret k).isSome = true := by
    intro f q₁ hq₁ hf h
    obtain ⟨hq', hall, -⟩ := Fold.foldlM_establishes (C := fun k q => (q.ret k).isSome = true)
      (fun k hk q q' => hf k (mem_queryKeys.1 hk).1 (mem_queryKeys.1 hk).2 q q') hq₁ h
    exact ⟨hq', fun k hk hkt => hall k (mem_queryKeys.2 ⟨hk, hkt⟩)⟩
  unfold QueryState.rangeQuery at h
  simp only at h
  split at h
  · obtain ⟨q₁, hfold, heq⟩ := Option.bind_eq_some_iff.1 h
    cases heq
    exact hloop hq (fun k hk hkt q q' hq h => hq.search hb h3 hk hkt hto h) hfold
  · obtain ⟨q₁, hread, h⟩ := Option.bind_eq_some_iff.1 h
    obtain ⟨q₂, hfold, heq⟩ := Option.bind_eq_some_iff.1 h
    cases heq
    refine hloop (hq.readLeaves hb h3 hto hread) (fun k hk hkt q q' hq h => ?_) hfold
    rw [QueryState.searchMissing] at h
    split at h
    · cases h
      exact ⟨hq, ‹_›, fun _ hj => hj⟩
    · exact hq.search hb h3 hk hkt hto h

/-- A query ends, if the keys are those of operations. -/
theorem QueryOk.rangeQuery_ends (hq : QueryOk g fromKey toKey q) (h3 : 3 ≤ L.internalSpanSize) (hk0 : 1 ≤ fromKey)
    (hto : toKey ≤ L.keyFull) {n : Nat} (hquiet : o.Quiet n) :
    ∀ᶠ fuel in atTop, (q.rangeQuery o fuel fromKey toKey).isSome = true := by
  have hsearch : ∀ k ∈ List.range' fromKey (toKey - fromKey), ∀ q, QueryOk g fromKey toKey q →
      ∃ q', QueryOk g fromKey toKey q' ∧ ∀ᶠ fuel in atTop, q.search o fuel k = some q' := by
    intro k hk q hq
    obtain ⟨hk, hkt⟩ := mem_queryKeys.1 hk
    exact hq.search_ends h3 (by omega) hk hkt hto
  unfold QueryState.rangeQuery
  simp only
  split
  · obtain ⟨q', -, h⟩ := Fold.eventually_foldlM hsearch hq
    filter_upwards [h] with fuel h
    rw [h]
    rfl
  · obtain ⟨q₁, hq₁, hread⟩ := hq.readLeaves_ends h3 hto hquiet
    obtain ⟨q', -, h⟩ := Fold.eventually_foldlM (f := fun fuel q k => QueryState.searchMissing o fuel q k)
      (I := QueryOk g fromKey toKey) (l := List.range' fromKey (toKey - fromKey)) (fun k hk q hq => by
        by_cases hret : (q.ret k).isSome = true
        · exact ⟨q, hq, .of_forall fun fuel => by rw [QueryState.searchMissing, if_pos hret]⟩
        · obtain ⟨q', hq', h⟩ := hsearch k hk q hq
          refine ⟨q', hq', ?_⟩
          filter_upwards [h] with fuel h
          rw [QueryState.searchMissing, if_neg hret, h]) hq₁
    filter_upwards [hread, h] with fuel hread h
    rw [hread, Option.bind_eq_bind, Option.bind_some, h]
    rfl

open Chime.Tree

/-- **The result of a range query** on a tree on which no client makes a step meanwhile and no key is stored twice,
whatever past copies of nodes the index cache has, whatever the hotspot cache names and whatever segments are rejected:
if it returns, each stored key of the range has its value in `ret`, no key is outside of the range, and a value that is
not null is of a stored key. The loop `re_read` ends when no writer is active, and so does the query if its keys are
those of operations. -/
theorem range_query_result (h3 : 3 ≤ L.internalSpanSize) {s : Tree L} {h : List Event}
    (hrun : (machine L).Run ValidKeys s h)
    (honce : s.store.KeysOnce) {treeCache : TreeCache} (hold : treeCache.Holds s.store.cached)
    {fromKey toKey : Nat} (hto : toKey ≤ L.keyFull) (o : QuerySurroundings L) :
    (∀ fuel b q', QueryState.rangeQuery o fuel ⟨s.store, treeCache, fun _ => none⟩ fromKey toKey = some (b, q') →
      (∀ k v, fromKey ≤ k → k < toKey → s.store.Stored k v → q'.ret k = some v) ∧
      (∀ k v, q'.ret k = some v → fromKey ≤ k ∧ k < toKey) ∧
      ∀ k v, q'.ret k = some v → v ≠ kValueNull → s.store.Stored k v) ∧
    ∀ n, o.Quiet n → ∃ m, ∀ fuel ≥ m,
      (QueryState.readLeaves o fuel ⟨s.store, treeCache, fun _ => none⟩ fromKey toKey
        (treeCache.searchRangeFromCache fromKey toKey)).isSome = true ∧
      (kKeyMin ≤ fromKey →
        (QueryState.rangeQuery o fuel ⟨s.store, treeCache, fun _ => none⟩ fromKey toKey).isSome = true) := by
  obtain ⟨d, hg, hb⟩ := blank_leaves hrun
  have htree : TreeOk ⟨s.store, d⟩ := hg.shared
  have hq : QueryOk ⟨s.store, d⟩ fromKey toKey ⟨s.store, treeCache, fun _ => none⟩ :=
    ⟨rfl, htree, hold, fun k v hk => by cases hk⟩
  refine ⟨fun fuel b q' hret => ?_, fun n hquiet => ?_⟩
  · obtain ⟨hq', hall⟩ := hq.rangeQuery hb h3 hto hret
    refine ⟨fun k v hk hkt hst => ?_, fun k v hk => (hq'.ret k v hk).1, fun k v hk hv => ?_⟩
    · have hk0 : k ≠ 0 := by
        obtain ⟨p, lf, lock, -, -, hst⟩ := hst
        exact hst.1
      obtain ⟨w, hw⟩ := Option.isSome_iff_exists.1 (hall k hk hkt)
      have hfound : FoundIn ⟨s.store, d⟩ k v := .inl (htree.stored_iff.1 hst)
      rw [hw, hfound.unique htree (htree.onceEach honce hk0) (hq'.ret k w hw).2]
    · exact htree.stored_iff.2 ((hq'.ret k v hk).2.resolve_right fun h => hv h.1)
  · obtain ⟨q', -, hread⟩ := hq.readLeaves_ends h3 hto hquiet
    have hends : ∀ᶠ fuel in atTop, kKeyMin ≤ fromKey →
        (QueryState.rangeQuery o fuel ⟨s.store, treeCache, fun _ => none⟩ fromKey toKey).isSome = true := by
      by_cases hk : kKeyMin ≤ fromKey
      · exact (hq.rangeQuery_ends h3 hk hto hquiet).mono fun fuel h _ => h
      · exact .of_forall fun fuel h => absurd h hk
    refine eventually_atTop.1 ?_
    filter_upwards [hread, hends] with fuel hread hends
    exact ⟨by rw [hread]; rfl, hends⟩

theorem validKeys_of_oneClient {s : Tree L} {a : Action L} (h : OneClient s a) : ValidKeys s a := by
  cases a with
  | invoke => exact h.2
  | _ => trivial

/-- The slot 1 is tried for the key 9, and in the first round the leaf at 0 is read again. -/
def sampleSurroundings : QuerySurroundings .small where
  maxLeafEntryPerIO := some 2
  speculativeIdx _ k := if k = 9 then some 1 else none
  rejected round seg := round = 0 ∧ seg.leafAddr = .at 0
  search _ _ := ⟨LeafNode.empty, none, .evictAll⟩

/-- With the copy of the root from before the last split, a query for the keys from 3 to 13 reads the leaves that it
names; the key 13 of a leaf that it does not name is searched. -/
theorem range_query_result_stale : ∃ (s : Tree .small) (h : List Event) (q' : QueryState .small),
    (machine .small).Run ValidKeys s h ∧ cacheBefore.Holds s.store.cached ∧
    QueryState.rangeQuery sampleSurroundings 12 ⟨s.store, cacheBefore, fun _ => none⟩ 3 14 = some (true, q') ∧
    [1, 3, 5, 9, 13, 14].map q'.ret = [none, some 0, some 15, some 19, some 23, none] ∧ s.store.Stored 13 23 := by
  have hsome : (((machine .small).exec singleChecked (init _) [] splitAfterSearch).map fun y =>
      (y.2, decide (rootBefore ∈ y.1.store.cached))) = some (splitAfterSearchEvents, true) := by decide +kernel
  have hquery : (((machine .small).exec singleChecked (init _) [] splitAfterSearch).bind fun y =>
      (QueryState.rangeQuery sampleSurroundings 12 ⟨y.1.store, cacheBefore, fun _ => none⟩ 3 14).map fun x =>
        (x.1, [1, 3, 5, 9, 13, 14].map x.2.ret)) = some (true,
          [none, some 0, some 15, some 19, some 23, none]) := by decide +kernel
  obtain ⟨⟨s, h⟩, hexec, heq⟩ := Option.map_eq_some_iff.1 hsome
  simp only [Prod.mk.injEq, decide_eq_true_eq] at heq
  obtain ⟨rfl, hcached⟩ := heq
  rw [hexec, Option.bind_some] at hquery
  obtain ⟨⟨b, q'⟩, hquery, heq⟩ := Option.map_eq_some_iff.1 hquery
  obtain ⟨rfl, hret⟩ := Prod.mk.inj heq
  have hrun : (machine .small).Run Single s _ :=
    .of_exec (I := fun _ => True) (fun _ hc => single_of_check hc) (fun _ _ _ => trivial) trivial .init hexec
  obtain ⟨d, hs⟩ := Solo.of_exact_run (by decide) hrun legal_splitAfterSearch
  have honce : s.store.KeysOnce := TreeOk.keysOnce hs.good.shared fun k hk => hs.onceEach legal_splitAfterSearch hk
  have hold : cacheBefore.Holds s.store.cached := cacheBefore_holds hcached
  have hrun' : (machine .small).Run ValidKeys s _ := hrun.mono fun _ _ h => validKeys_of_oneClient (single_oneClient h)
  have hlast : q'.ret 13 = some 23 := Option.some.inj (congrArg (fun l => l[4]?) hret)
  have hresult := (range_query_result (by decide) hrun' honce hold (show 14 ≤ Layout.small.keyFull by decide)
    sampleSurroundings).1 12 true q' hquery
  exact ⟨s, _, q', hrun', hold, hquery, hret, hresult.2.2 13 23 hlast (by decide)⟩

end Chime

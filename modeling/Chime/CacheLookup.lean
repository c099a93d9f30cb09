import Chime.CacheAccounting
import Chime.Tree

/-!
# Lookups in the index cache (`TreeCache.h`, `Tree.cpp`)

`seek_entry` and `search_from_cache`, and a client that runs `search` or `update` with the cache of its compute node:
it begins at the child that a lookup names, and when a node does not pass the validation it invalidates the entry and
looks up again. The nodes that it visits later are added to the cache. `Holds` says what a cache has: the entries of a
skip list, with copies of given nodes.
-/

namespace Chime

open TreeCacheEntry

variable {L : Layout}

namespace TreeCache

/-- `seek_entry(k)`: the first entry with a node, from the place of `k` on. -/
def seekEntry (c : TreeCache) (k : Nat) : Option (TreeCacheEntry × InternalNode) :=
  (c.entries.dropWhile (·.before ⟨k, k, none⟩)).findSome? fun e => e.ptr.map fun nd => (e, nd)

/-- `search_from_cache`: the entry and its node, in which `childPtr` finds the child and its neighbor. -/
def searchFromCache (c : TreeCache) (k : Nat) : Option (TreeCacheEntry × InternalNode) :=
  (c.seekEntry k).filter fun x => x.1.fromKey ≤ k ∧ k ≤ x.1.toKey

/-- The entries are in the order of the skip list, and the nodes are copies of these nodes, each in the entry for its
range. -/
structure Holds (c : TreeCache) (nodes : List InternalNode) : Prop where
  sorted : Sorted c.entries
  copies : ∀ e ∈ c.entries, ∀ nd, e.ptr = some nd → nd ∈ nodes ∧ e.fromKey = nd.lowest ∧ e.toKey = nd.highest - 1

/-- The number of nodes. -/
def size (c : TreeCache) : Nat := c.entries.countP (·.ptr.isSome)

end TreeCache

/-- What `add_to_cache` makes of a cache: the eviction takes away nodes at random. -/
structure CacheFill where
  add : TreeCache → InternalNode → TreeCache
  holds : ∀ {c nodes} nd, c.Holds nodes → (add c nd).Holds (nd :: nodes)

/-- What a client meets in a step, apart from the remote memory and the index cache: what its local view held before,
the slot the hotspot cache names, and what becomes of the index cache when a node is added. -/
structure Surroundings (L : Layout) where
  buffer : LeafNode L
  speculativeIdx : Option (Fin L.leafSpanSize)
  fill : CacheFill

/-- A client in a `search` or an `update`, with the index cache. -/
structure CachedClient (L : Layout) where
  client : Client L
  treeCache : TreeCache
  /-- `cache_entry` -/
  cacheEntry : Option TreeCacheEntry

namespace CachedClient

/-- A call with this cache. -/
def call (request : Request) (key : Nat) (treeCache : TreeCache) : CachedClient L :=
  ⟨⟨request, key, fun _ => .null, .start⟩, treeCache, none⟩

/-- The cache at a lookup: before a further one, the entry of the last one is invalidated. -/
def invalidated (c : CachedClient L) : TreeCache :=
  match c.cacheEntry with
  | none => c.treeCache
  | some e => c.treeCache.invalidate L e.fromKey e.toKey

/-- The cache after the nodes of a step have been added. -/
def filled (c : CachedClient L) (fill : CacheFill) (s s' : Store L) : TreeCache :=
  (s'.cached.take (s'.cached.length - s.cached.length)).foldr (fun nd t => fill.add t nd) c.treeCache

/-- A step of the client. -/
def step (s : Store L) (o : Surroundings L) (c : CachedClient L) : Option (Store L × CachedClient L) :=
  match c.client.pc with
  | .start =>
    let found := c.invalidated.searchFromCache c.client.key
    (c.client.step s ⟨found.map (·.2), o.buffer, o.speculativeIdx⟩).map fun x =>
      (x.1, ⟨x.2, c.invalidated, found.map (·.1)⟩)
  | _ =>
    (c.client.step s ⟨none, o.buffer, o.speculativeIdx⟩).map fun x => (x.1, ⟨x.2, c.filled o.fill s x.1, c.cacheEntry⟩)

/-- The memory and the client after this many steps. -/
def after (s : Store L) (c : CachedClient L) (o : Nat → Surroundings L) : Nat → Option (Store L × CachedClient L)
  | 0 => some (s, c)
  | n + 1 => (c.after s o n).bind fun x => x.2.step x.1 (o n)

end CachedClient

/-! ## What a cache holds -/

namespace TreeCache

variable {c c' : TreeCache} {nodes : List InternalNode} {e : TreeCacheEntry} {nd : InternalNode} {k : Nat}

theorem holds_empty (capacity : Nat) (nodes : List InternalNode) : (empty capacity).Holds nodes :=
  ⟨.nil, fun _ he => by cases he⟩

/-- A lookup finds a node that covers the key. -/
theorem Holds.searchFromCache (h : c.Holds nodes) (hf : c.searchFromCache k = some (e, nd)) :
    e ∈ c.entries ∧ e.ptr = some nd ∧ nd ∈ nodes ∧ nd.lowest ≤ k ∧ k ≤ nd.highest - 1 := by
  unfold TreeCache.searchFromCache at hf
  obtain ⟨hseek, hrange⟩ := Option.filter_eq_some_iff.1 hf
  obtain ⟨e', he', hmap⟩ := List.exists_of_findSome?_eq_some hseek
  obtain ⟨nd', hptr, heq⟩ := Option.map_eq_some_iff.1 hmap
  cases heq
  have hmem : e ∈ c.entries := (List.dropWhile_suffix _).subset he'
  obtain ⟨hnd, hfrom, hto⟩ := h.copies e hmem nd hptr
  simp only [decide_eq_true_eq] at hrange
  exact ⟨hmem, hptr, hnd, hfrom ▸ hrange.1, hto ▸ hrange.2⟩

/-- The entries keep their ranges and lose nodes at most. -/
theorem Holds.setPtr_none (h : c.Holds nodes) (l u : Nat) (free : Int) :
    (TreeCache.mk (setPtr c.entries l u none) free).Holds nodes := by
  refine ⟨h.sorted.setPtr l u none, fun e he nd hptr => ?_⟩
  obtain ⟨x, hx, rfl⟩ := List.mem_map.1 he
  split at hptr
  · cases hptr
  · rename_i hno
    rw [if_neg hno]
    exact h.copies x hx nd hptr

theorem Holds.invalidate (h : c.Holds nodes) (l u : Nat) : (c.invalidate L l u).Holds nodes := by
  unfold TreeCache.invalidate
  split
  · exact h
  · split
    · exact h
    · exact h.setPtr_none l u _

/-- **An invalidation** of an entry that has a node leaves one node less. -/
theorem size_invalidate (hs : Sorted c.entries) (he : e ∈ c.entries) (hptr : e.ptr.isSome = true) :
    (c.invalidate L e.fromKey e.toKey).size + 1 = c.size := by
  obtain ⟨nd, hnd⟩ := Option.isSome_iff_exists.1 hptr
  -- the entry is the one that is found
  have hself : isFor e.fromKey e.toKey e = true := isFor_iff.2 ⟨rfl, rfl⟩
  have hfind : c.entries.find? (isFor e.fromKey e.toKey) = some e := by
    obtain ⟨x, hx⟩ := Option.isSome_iff_exists.1 (List.find?_isSome.2 ⟨e, he, hself⟩)
    rw [hx, hs.eq_of_isFor he (List.mem_of_find?_eq_some hx) (List.find?_some hx)]
  unfold TreeCache.invalidate
  simp only [hfind, hnd]
  unfold size setPtr
  rw [List.countP_map]
  obtain ⟨pre, post, hsplit⟩ := List.append_of_mem he
  rw [hsplit]
  rw [hsplit] at hs
  -- the other entries are for other ranges
  have hother : ∀ x ∈ pre ++ post, isFor e.fromKey e.toKey x = false := by
    intro x hx
    obtain ⟨-, hcons, hcross⟩ := List.pairwise_append.1 hs
    rcases List.mem_append.1 hx with hx | hx
    · exact isFor_of_before (hcross x hx e List.mem_cons_self)
    · have hlt := (List.pairwise_cons.1 hcons).1 x hx
      refine Bool.eq_false_iff.2 fun hf => ?_
      have hfor := isFor_iff.1 hf
      rw [before_irrefl (a := e) (b := x) ⟨hfor.1.symm, hfor.2.symm⟩] at hlt
      cases hlt
  have hkeep : ∀ l : List TreeCacheEntry, (∀ x ∈ l, isFor e.fromKey e.toKey x = false) →
      l.countP ((·.ptr.isSome) ∘ fun x => if isFor e.fromKey e.toKey x then { x with ptr := none } else x) =
        l.countP (·.ptr.isSome) := fun l hl => List.countP_congr fun x hx => by simp [hl x hx]
  rw [List.countP_append, List.countP_cons, List.countP_append, List.countP_cons,
    hkeep pre fun x hx => hother x (List.mem_append_left _ hx),
      hkeep post fun x hx => hother x (List.mem_append_right _ hx)]
  simp [hself, hnd]
  omega

/-- **A node is put in**, for its range. -/
theorem Holds.setPtr_some (h : c.Holds nodes) (page : InternalNode) (free : Int) :
    (TreeCache.mk (setPtr c.entries page.lowest (page.highest - 1) (some page)) free).Holds (page :: nodes) := by
  refine ⟨h.sorted.setPtr _ _ _, fun e he nd hptr => ?_⟩
  obtain ⟨x, hx, rfl⟩ := List.mem_map.1 he
  split at hptr
  · rename_i hfor
    cases hptr
    rw [if_pos hfor]
    exact ⟨List.mem_cons_self, isFor_iff.1 hfor⟩
  · rename_i hno
    rw [if_neg hno]
    obtain ⟨hnd, hrange⟩ := h.copies x hx nd hptr
    exact ⟨List.mem_cons_of_mem _ hnd, hrange⟩

theorem Holds.addEntry (h : c.Holds nodes) {page : InternalNode} {es : List TreeCacheEntry} (free : Int)
    (hadd : c.addEntry ⟨page.lowest, page.highest - 1, some page⟩ = some es) : (TreeCache.mk es free).Holds
    (page :: nodes) := by
  obtain ⟨hsorted, hperm, -⟩ := addEntry_some h.sorted hadd
  refine ⟨hsorted, fun e he nd hptr => ?_⟩
  rcases List.mem_cons.1 (hperm.mem_iff.1 he) with rfl | he
  · cases hptr
    exact ⟨List.mem_cons_self, rfl, rfl⟩
  · obtain ⟨hnd, hrange⟩ := h.copies e he nd hptr
    exact ⟨List.mem_cons_of_mem _ hnd, hrange⟩

theorem Holds.mono (h : c.Holds nodes) (page : InternalNode) : c.Holds (page :: nodes) :=
  ⟨h.sorted, fun e he nd hptr => (h.copies e he nd hptr).imp_left (List.mem_cons_of_mem _)⟩

theorem Holds.evict {picks : List (Nat × Nat)} (h : c.Holds nodes) (he : c.evict L picks = some c') :
    c'.Holds nodes := by
  induction picks generalizing c with
  | nil => cases he
  | cons pick picks ih =>
    unfold TreeCache.evict at he
    split at he
    · cases he
    · rename_i c₁ hone
      have h₁ : c₁.Holds nodes := by
        unfold TreeCache.evictOne at hone
        split at hone
        · cases hone
          exact h.invalidate _ _
        · cases hone
      split at he
      · exact ih h₁ he
      · cases he
        exact h₁

/-- **`add_to_cache`**: what the cache holds is old or a copy of the new node, whatever is evicted. -/
theorem Holds.addToCache {picks : List (Nat × Nat)} {page : InternalNode} (h : c.Holds nodes)
    (ha : c.addToCache L page picks = some c') : c'.Holds (page :: nodes) := by
  have hevict : ∀ {c₁ : TreeCache} {v : Int}, c₁.Holds (page :: nodes) →
      (if v < 0 then c₁.evict L picks else some c₁) = some c' → c'.Holds (page :: nodes) := by
    intro c₁ v h₁ heq
    split at heq
    · exact h₁.evict heq
    · cases heq
      exact h₁
  unfold TreeCache.addToCache at ha
  simp only at ha
  split at ha
  · rename_i es hadd
    exact hevict (h.addEntry _ hadd) ha
  · split at ha
    · cases ha
      exact h.mono page
    · split at ha
      · split at ha
        · exact hevict (h.setPtr_some page _) ha
        · cases ha
          exact h.setPtr_some page _
      · cases ha
        exact h.mono page

end TreeCache

/-- The real `add_to_cache`, with the entries that are picked for eviction; where they do not suffice the loop of
`evict` has not ended. -/
def CacheFill.ofPicks (L : Layout) (picks : TreeCache → InternalNode → List (Nat × Nat)) : CacheFill where
  add c nd := (c.addToCache L nd (picks c nd)).getD c
  holds := fun {c nodes} nd h => by
    cases ha : c.addToCache L nd (picks c nd) with
    | none => exact h.mono nd
    | some c' => exact h.addToCache ha

/-- The caches after a step hold the nodes that have been added. -/
theorem CachedClient.filled_holds {c : CachedClient L} {fill : CacheFill} {s s' : Store L}
    (h : c.treeCache.Holds s.cached) (hs : s'.cached = s.cached ∨ ∃ nd, s'.cached = nd :: s.cached) :
    (c.filled fill s s').Holds s'.cached := by
  unfold filled
  rcases hs with hs | ⟨nd, hs⟩
  · rw [hs, Nat.sub_self, List.take_zero]
    exact h
  · rw [hs, List.length_cons, Nat.add_sub_cancel_left, List.take_succ_cons, List.take_zero]
    exact fill.holds nd h

theorem CachedClient.filled_same {c : CachedClient L} {fill : CacheFill} {s s' : Store L} (hs : s'.cached = s.cached) :
    c.filled fill s s' = c.treeCache := by
  unfold filled
  rw [hs, Nat.sub_self, List.take_zero]
  rfl

end Chime

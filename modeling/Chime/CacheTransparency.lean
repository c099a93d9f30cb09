import Chime.CacheLookup
import Chime.MapRefinement
import Chime.Separators
import Chime.StoredPairs

/-!
# Cache transparency

A search or an update on a tree without other clients, with any nodes in the index cache that were read before and any
slots in the hotspot cache (`CachedAt`): each step lowers a rank, in which the number of further lookups comes first
(`CachedAt.step`). It ends, and what it finds or writes is determined by the tree (`CallOutcome`,
`CallOutcome.unique`). A leaf that is reached from the cache passes the validation only if it still ends where the
cached node says.
-/

namespace Chime

open Boundary (Next Extends Below)
open Records

variable {L : Layout}

/-- The remote state, without the nodes in the caches. -/
def Store.remote (s : Store L) : Store L := { s with cached := [] }

/-- The state with these nodes in the caches. -/
def Charted.caching (g : Charted L) (cs : List InternalNode) : Charted L := ⟨{ g.store with cached := cs }, g.dir⟩

/-- How a search or an update ends: the remote state, and where the client stands. -/
inductive CallOutcome (g : Charted L) (request : Request) (k : Nat) : Store L → TreePc L → Prop
  | found {v : Nat} : request = .search → FoundIn g k v → CallOutcome g request k g.store.remote (.done v)
  | written {v a l h : Nat} {w : Valock L} {i : Fin L.leafSpanSize} {lf : LeafNode L} : request = .update v →
      LeafAt g a l h lf (some w) → lf.records.keys i = k →
      CallOutcome g request k (g.store.remote.write a (.leaf { lf with records := lf.records.update i.val k v } (some w)))
        (.done kValueNull)
  /-- the assertion of `leaf_node_update` that the key is in the leaf -/
  | missing {v a l h : Nat} {w : Valock L} {lf : LeafNode L} : request = .update v → LeafAt g a l h lf (some w) →
    l ≤ k →
      k < h → ¬lf.records.HasKey k →
      CallOutcome g request k (g.store.remote.write a (.leaf lf none)) (.crashed .keyMissing)

section

variable {g : Charted L} {request : Request} {k : Nat}

/-- **One leaf** covers a key. -/
theorem LeafAt.unique {a a' l l' h h' : Nat} {lf lf' : LeafNode L} {lock lock' : Option (Valock L)}
    (hat : LeafAt g a l h lf lock) (hat' : LeafAt g a' l' h' lf' lock') (hl : l ≤ k) (hh : k < h) (hl' : l' ≤ k)
    (hh' : k < h') : a = a' ∧ lf = lf' ∧ lock = lock' := by
  obtain rfl := hat.ok.next.disjoint hat'.ok.next hat.linked hat'.linked hl hh hl' hh'
  cases hat.linked.symm.trans hat'.linked
  cases hat.mem.symm.trans hat'.mem
  exact ⟨rfl, rfl, rfl⟩

/-- A key that is stored once has one value. -/
theorem FoundIn.unique (hg : TreeOk g) (honce : OnceEach g k) {v w : Nat} (hv : FoundIn g k v) (hw : FoundIn g k w) :
    v = w := by
  rcases hv with hv | ⟨rfl, hno⟩ <;> rcases hw with hw | ⟨rfl, hno'⟩
  · exact hg.contents_unique honce hv hw
  · exact absurd hv (hno' _)
  · exact absurd hw (hno _)
  · rfl

/-- **The tree determines the outcome**, if the key is stored once. -/
theorem CallOutcome.unique (hg : TreeOk g) (honce : OnceEach g k) (hk : k ≠ 0) {s s' : Store L} {pc pc' : TreePc L}
    (h : CallOutcome g request k s pc) (h' : CallOutcome g request k s' pc') : s = s' ∧ pc = pc' := by
  have hrange : ∀ {a l h : Nat} {lf : LeafNode L} {lock : Option (Valock L)} {i : Fin L.leafSpanSize},
      LeafAt g a l h lf lock → lf.records.keys i = k → l ≤ k ∧ k < h := fun hat hi => hat.ok.range k ⟨hk, _, hi⟩
  cases h with
  | found hr hv =>
    cases h' with
    | found _ hv' => exact ⟨rfl, congrArg TreePc.done (hv.unique hg honce hv')⟩
    | written hr' | missing hr' => cases hr.symm.trans hr'
  | written hr hat hi =>
    obtain ⟨hl, hh⟩ := hrange hat hi
    cases h' with
    | found hr' => cases hr'.symm.trans hr
    | written hr' hat' hi' =>
      cases hr.symm.trans hr'
      obtain ⟨hl', hh'⟩ := hrange hat' hi'
      obtain ⟨rfl, rfl, hlock⟩ := hat.unique hat' hl hh hl' hh'
      cases hlock
      obtain rfl := honce _ _ hat.leaves _ _ hi hi'
      exact ⟨rfl, rfl⟩
    | missing hr' hat' hl' hh' hno =>
      obtain ⟨-, rfl, -⟩ := hat.unique hat' hl hh hl' hh'
      exact absurd ⟨hk, _, hi⟩ hno
  | missing hr hat hl hh hno =>
    cases h' with
    | found hr' => cases hr'.symm.trans hr
    | written hr' hat' hi' =>
      obtain ⟨hl', hh'⟩ := hrange hat' hi'
      obtain ⟨-, rfl, -⟩ := hat.unique hat' hl hh hl' hh'
      exact absurd ⟨hk, _, hi'⟩ hno
    | missing hr' hat' hl' hh' _ =>
      obtain ⟨rfl, rfl, -⟩ := hat.unique hat' hl hh hl' hh'
      exact ⟨rfl, rfl⟩

end

/-! ## Where the client stands -/

namespace CachedClient

/-- The entry of the last lookup still has its node. -/
def Live (c : CachedClient L) : Prop := ∃ e ∈ c.treeCache.entries, c.cacheEntry = some e ∧ e.ptr.isSome = true

/-- The lookups that may follow. -/
def lookups (c : CachedClient L) (fromCache : Bool) : Nat := if fromCache then c.treeCache.size + 1 else 0

end CachedClient

/-- Where a client stands in a search or an update, and the memory it has made, with its rank: lookups, phase, level,
distance to the upper end. On a settled tree a place that is not from the cache covers the key. -/
inductive CachedAt (g : Charted L) (c : CachedClient L) : Rank → Store L → TreePc L → Prop
  | start {cs : List InternalNode} : (c.cacheEntry = none ∨ c.Live) →
      CachedAt g c (c.invalidated.size + 1, 5, 0, 0) (g.caching cs).store .start
  | visit {cs : List InternalNode} {p : Position} {l : Nat} : (p.fromCache = true → c.Live) →
      Points (g.dir (p.level - 1)) l p.nodeAddr → l ≤ c.client.key →
      (Settled g → p.fromCache = false → Covers g (p.level - 1) c.client.key p.nodeAddr p.siblingAddr) →
      CachedAt g c (c.lookups p.fromCache, 4, p.level, L.keyFull - l) (g.caching cs).store (.visit p)
  | leaf {cs : List InternalNode} {p : Position} {l : Nat} : (p.fromCache = true → c.Live) →
      Points (g.dir 0) l p.nodeAddr → Near g c.client l →
      (Settled g → c.client.request ≠ .search → p.fromCache = false →
        Covers g 0 c.client.key p.nodeAddr p.siblingAddr) →
      CachedAt g c (c.lookups p.fromCache, 3, 0, L.keyFull - l) (g.caching cs).store (.leaf p)
  | leafLocked {cs : List InternalNode} {p : Position} {a l : Nat} {lf : LeafNode L} {w : Valock L} :
      (p.fromCache = true → c.Live) → p.nodeAddr = .at a → g.dir 0 l = some a → g.store.mem a = .leaf lf (some w) →
      l ≤ c.client.key → (p.fromCache = false → Covers g 0 c.client.key p.nodeAddr p.siblingAddr) →
      CachedAt g c (c.lookups p.fromCache, 2, 0, 0) ((g.caching cs).store.write a (.leaf lf none)) (.leafLocked a p w)
  | leafUnlock {cs : List InternalNode} {a : Nat} {lf : LeafNode L} {w : Valock L} : c.Live →
      g.store.mem a = .leaf lf (some w) →
      CachedAt g c (c.treeCache.size + 1, 1, 0, 0) ((g.caching cs).store.write a (.leaf lf none)) (.leafUnlock a w none)
  | leafWrite {cs : List InternalNode} {a l h v : Nat} {lf : LeafNode L} {i : Fin L.leafSpanSize} {x : LeafWrite L} :
      c.client.request = .update v → LeafAt g a l h lf (some x.lock) → lf.records.keys i = c.client.key →
      x.apply lf = { lf with records := lf.records.update i.val c.client.key v } →
      CachedAt g c (0, 1, 0, 0) ((g.caching cs).store.write a (.leaf lf none)) (.leafWrite a x)

/-- The client goes on with a lower rank, or it has ended. -/
def CachedNext (g : Charted L) (c : CachedClient L) (r : Rank) (s' : Store L) (c' : CachedClient L) : Prop :=
  (∃ r', Rank.Lt r' r ∧ CachedAt g c' r' s' c'.client.pc) ∨
    CallOutcome g c.client.request c.client.key s'.remote c'.client.pc

/-! ## Steps -/

section Steps

variable {g : Charted L} {cs : List InternalNode} {c : CachedClient L} {p : Position} {ch : Choice L} {g' : Charted L}
  {cl' : Client L} {fill : CacheFill}

theorem TreeOk.caching (hg : TreeOk g) (hcs : ∀ nd ∈ cs, Routes L g.dir nd) : TreeOk (g.caching cs) :=
  ⟨hg.range, hg.allocated, hg.cells, hg.below_root, hg.root_pos, hg.root, hg.grown, hcs⟩

theorem LeafAt.uncached {a l h : Nat} {lf : LeafNode L} {lock : Option (Valock L)}
    (hat : LeafAt (g.caching cs) a l h lf lock) :
    LeafAt g a l h lf lock := ⟨hat.linked, hat.mem, hat.ok⟩

theorem InternalAt.uncached {m a l : Nat} {nd : InternalNode} {locked : Bool}
    (hnd : InternalAt (g.caching cs) m a l nd locked) : InternalAt g m a l nd locked := ⟨hnd.linked, hnd.mem, hnd.ok⟩

/-- Before a further lookup the entry of the last one loses its node. -/
theorem CachedClient.Live.size (h : c.Live) (hs : TreeCache.Sorted c.treeCache.entries) :
    c.invalidated.size + 1 = c.treeCache.size := by
  obtain ⟨e, he, hentry, hptr⟩ := h
  unfold CachedClient.invalidated
  rw [hentry]
  exact TreeCache.size_invalidate hs he hptr

theorem CachedClient.invalidated_holds (h : c.treeCache.Holds cs) : c.invalidated.Holds cs := by
  unfold CachedClient.invalidated
  split
  · exact h
  · exact h.invalidate _ _

/-- **A lookup**: the client goes on at the child that a node names, or at the root. -/
theorem cached_start (hg : TreeOk g) (h3 : 3 ≤ L.internalSpanSize) (hcs : ∀ nd ∈ cs, Routes L g.dir nd)
    (hk : 1 ≤ c.client.key) (hkf : c.client.key < L.keyFull) (hpc : c.client.pc = .start) (hold : c.treeCache.Holds cs)
    (o : Surroundings L) : ∃ c' p, c.step (g.caching cs).store o = some ((g.caching cs).store, c') ∧
      c'.client = c.client.goto (.visit p) ∧ VisitOk (g.caching cs) c.client.key p ∧ c'.treeCache = c.invalidated ∧
      CachedNext g c (c.invalidated.size + 1, 5, 0, 0) (g.caching cs).store c' := by
  have hold' := c.invalidated_holds hold
  cases hfound : c.invalidated.searchFromCache c.client.key with
  | none =>
    have hpos := hg.root_pos
    have hlevel : (g.caching cs).store.root.level ≠ 0 := show g.store.root.level ≠ 0 by omega
    refine ⟨⟨c.client.goto (.visit ⟨g.store.root.level, g.store.root.ptr, .null, false⟩), c.invalidated, none⟩,
      ⟨g.store.root.level, g.store.root.ptr, .null, false⟩, ?_, rfl,
        ⟨hpos, .inl ⟨1, hk, hg.root⟩, neighbor_null hkf⟩, rfl,
      .inl ⟨(0, 4, g.store.root.level, L.keyFull - 1), .left _ _ (Nat.succ_pos _), ?_⟩⟩
    · unfold CachedClient.step
      simp only [hpc, hfound, Option.map_none, Client.step, Client.stepStart, Checked.assert_of hlevel,
        Client.attempt_ok,
        Option.map_some]
      rfl
    · exact .visit (p := ⟨g.store.root.level, g.store.root.ptr, .null, false⟩) (fun h => by cases h) hg.root hk
        fun hs _ => covers_root hg hs hk hkf
  | some x =>
    obtain ⟨e, nd⟩ := x
    obtain ⟨he, hptr, hnd, hlow, hhigh⟩ := hold'.searchFromCache hfound
    have hr := hcs nd hnd
    have hh : c.client.key < nd.highest := by omega
    have hpos := hr.level_pos
    have hlevel : nd.level ≠ 0 := by omega
    have hcov : nd ∈ (g.caching cs).store.cached ∧ nd.covers c.client.key = true :=
      ⟨hnd, by simp [InternalNode.covers, hlow, hh]⟩
    obtain ⟨hheld, hneighbor⟩ := hr.childPtr hlow hh
    obtain ⟨l, hl, hp⟩ := hheld.points h3
    refine ⟨⟨c.client.goto (.visit ⟨nd.level, (nd.childPtr c.client.key).1, (nd.childPtr c.client.key).2, true⟩),
      c.invalidated, some e⟩, ⟨nd.level, (nd.childPtr c.client.key).1, (nd.childPtr c.client.key).2, true⟩, ?_, rfl,
      ⟨hpos, hheld, hneighbor⟩, rfl, .inl ⟨(c.invalidated.size + 1, 4, nd.level, L.keyFull - l),
        .right _ (.left _ _ (by omega)), ?_⟩⟩
    · unfold CachedClient.step
      simp only [hpc, hfound, Option.map_some, Client.step, Client.stepStart, hcov, and_self, if_true,
        Checked.assert_of hlevel, Client.attempt_ok]
    · exact .visit (p := ⟨nd.level, (nd.childPtr c.client.key).1, (nd.childPtr c.client.key).2, true⟩)
        (fun _ => ⟨e, he, rfl, by rw [hptr]; rfl⟩) hp hl fun _ h => by cases h

/-- The client after a step that is not a lookup. -/
def CachedClient.next (c : CachedClient L) (fill : CacheFill) (s s' : Store L) (cl' : Client L) : CachedClient L :=
  ⟨cl', c.filled fill s s', c.cacheEntry⟩

theorem CachedClient.next_of_same {s s' : Store L} (h : s'.cached = s.cached) :
    c.next fill s s' cl' = ⟨cl', c.treeCache, c.cacheEntry⟩ := by
  unfold CachedClient.next
  rw [c.filled_same h]

/-- An entry that is not valid any more: the client looks up again. -/
theorem cached_again {n m j : Nat} (hlive : c.Live) (hold : c.treeCache.Holds cs) (hpc : cl'.pc = .start) :
    CachedNext g c (c.treeCache.size + 1, n, m, j) (g.caching cs).store ⟨cl', c.treeCache, c.cacheEntry⟩ := by
  have hsize := hlive.size hold.sorted
  refine .inl ⟨(c.invalidated.size + 1, 5, 0, 0), .left _ _ (by omega), ?_⟩
  simp only [hpc]
  exact .start (c := ⟨cl', c.treeCache, c.cacheEntry⟩) (.inr hlive)

theorem lookups_fromCache {b : Bool} (hb : b = true) : c.lookups b = c.treeCache.size + 1 := by
  unfold CachedClient.lookups
  rw [if_pos hb]

theorem lookups_direct {b : Bool} (hb : b = false) : c.lookups b = 0 := by
  unfold CachedClient.lookups
  rw [hb]
  rfl

/-- **A visit** goes down or to the right, or the entry is invalidated. -/
theorem cached_visit (hg : TreeOk g) (h3 : 3 ≤ L.internalSpanSize) (hold : c.treeCache.Holds cs) {l : Nat}
    (hlive : p.fromCache = true → c.Live) (hp : Points (g.dir (p.level - 1)) l p.nodeAddr) (hl : l ≤ c.client.key)
    (hcov : Settled g → p.fromCache = false → Covers g (p.level - 1) c.client.key p.nodeAddr p.siblingAddr)
    (hm : TreeMove (g.caching cs) ch c.client (.visit p) g' cl') :
    CachedNext g c (c.lookups p.fromCache, 4, p.level, L.keyFull - l) g'.store
      (c.next fill (g.caching cs).store g'.store cl') := by
  cases hm with
  | atLeaf h1 =>
    rw [CachedClient.next_of_same rfl]
    rw [h1] at hp hcov
    exact .inl ⟨(c.lookups p.fromCache, 3, 0, L.keyFull - l), .right _ (.left _ _ (by omega)),
      .leaf (fun hfc => hlive hfc) hp (.inl hl) fun hs _ hfc => hcov hs hfc⟩
  | staleVisit hfc =>
    rw [CachedClient.next_of_same rfl, lookups_fromCache hfc]
    exact cached_again (hlive hfc) hold rfl
  | @visitRight _ a l' nd locked h2 hpa hnd hhigh hpt hfc =>
    rw [CachedClient.next_of_same rfl]
    replace hnd := hnd.uncached
    obtain rfl := hp.begin_eq hg hpa hnd.linked
    have hlt := hnd.ok.next.lt
    have hkf := hpt.lt_keyFull hg
    refine .inl ⟨(0, 4, p.level, L.keyFull - nd.highest), ?_, ?_⟩
    · rw [lookups_direct hfc]
      exact .right _ (.right _ (.right _ (by omega)))
    · refine .visit (p := ⟨p.level, nd.siblingPtr, p.siblingAddr, false⟩) (fun h => by cases h) hpt hhigh fun hs _ => ?_
      -- on a settled tree the node covers the key
      obtain ⟨l', h', hp', hn', -, -, hkh⟩ := hcov hs hfc
      obtain rfl := hp'.begin_eq hg hpa hnd.linked
      have := hnd.ok.next.unique (hg.below _) hn'
      omega
  | @down _ a l' nd locked h2 hpa hnd hlow hhigh =>
    replace hnd := hnd.uncached
    obtain ⟨b, hb, hpt⟩ := (hnd.ok.routes.childPtr (hnd.ok.lowest ▸ hlow) hhigh).1.points h3
    have hnl := hnd.ok.level
    refine .inl ⟨(0, 4, nd.level, L.keyFull - b), ?_, ?_⟩
    · cases hfc : p.fromCache with
      | true => exact .left _ _ (Nat.succ_pos _)
      | false => exact .right _ (.right _ (.left _ _ (by omega)))
    · exact .visit (p := ⟨nd.level, (nd.childPtr c.client.key).1, (nd.childPtr c.client.key).2, false⟩)
        (fun h => by cases h)
        hpt hb fun hs _ => covers_child hg hs h3 hnd hlow hhigh

/-- **At a leaf** a search ends or goes to the right, an update locks the leaf, or the entry is invalidated. -/
theorem cached_leaf (hg : TreeOk g) (hreq : c.client.request = .search ∨ Settled g) (hold : c.treeCache.Holds cs)
    {l : Nat}
    (hlive : p.fromCache = true → c.Live) (hp : Points (g.dir 0) l p.nodeAddr) (hnear : Near g c.client l)
    (hcov : Settled g → c.client.request ≠ .search → p.fromCache = false →
      Covers g 0 c.client.key p.nodeAddr p.siblingAddr)
    (hm : TreeMove (g.caching cs) ch c.client (.leaf p) g' cl') :
    CachedNext g c (c.lookups p.fromCache, 3, 0, L.keyFull - l) g'.store
      (c.next fill (g.caching cs).store g'.store cl') := by
  cases hm with
  | found hs hpa hat hst =>
    rw [CachedClient.next_of_same rfl]
    exact .inr (.found hs (.inl ⟨_, _, hat.uncached.leaves, hst⟩))
  | absent hs hpa hat hno hh =>
    rw [CachedClient.next_of_same rfl]
    replace hat := hat.uncached
    obtain rfl := hp.begin_eq hg hpa hat.linked
    exact .inr (.found hs (.inr ⟨rfl, hnear.elim (fun hl => hat.not_contents hg hl hh hno) And.right⟩))
  | @walk _ a l' h h' lf lock sib hs hpa hat hno ht hlt hkh hpt hfc =>
    rw [CachedClient.next_of_same rfl]
    replace hat := hat.uncached
    obtain rfl := hp.begin_eq hg hpa hat.linked
    have hlh := hat.ok.next.lt
    have hkf := hpt.lt_keyFull hg
    refine .inl ⟨(0, 3, 0, L.keyFull - h), ?_, ?_⟩
    · rw [lookups_direct hfc]
      exact .right _ (.right _ (.right _ (by omega)))
    · refine .leaf (p := ⟨1, sib, p.siblingAddr, false⟩) (fun h => by cases h) hpt ?_ fun _ hns => absurd hs hns
      rcases hnear with hl | hnear
      · by_cases hkh : c.client.key < h
        · exact .inr ⟨hs, hat.not_contents hg hl hkh hno⟩
        · exact .inl (not_lt.1 hkh)
      · exact .inr hnear
  | staleLeaf hfc =>
    rw [CachedClient.next_of_same rfl, lookups_fromCache hfc]
    exact cached_again (hlive hfc) hold rfl
  | @spinLeaf _ a lf hs hpa hmem =>
    obtain ⟨b, hb, hpb⟩ := hp
    cases hpa.symm.trans hpb
    have hlock := (hreq.resolve_left hs).unlocked 0 l a hb
    rw [show g.store.mem a = _ from hmem] at hlock
    cases hlock
  | @lockLeaf _ a lf w hs hpa hmem =>
    have hsame : ((g.caching cs).store.write a (.leaf lf none)).cached = (g.caching cs).store.cached := rfl
    rw [CachedClient.next_of_same hsame]
    obtain ⟨b, hb, hpb⟩ := hp
    cases hpa.symm.trans hpb
    exact .inl ⟨(c.lookups p.fromCache, 2, 0, 0), .right _ (.left _ _ (by omega)),
      .leafLocked (fun hfc => hlive hfc) hpa hb hmem (hnear.resolve_right fun h => hs h.1)
        (hcov (hreq.resolve_left hs) hs)⟩

/-- **At a locked leaf** an update writes its pair or fails, or the entry is invalidated. -/
theorem cached_leafLocked (hg : TreeOk g) {v : Nat} (hreq : c.client.request = .update v)
    {a l : Nat} {lf : LeafNode L} {w : Valock L} (hlive : p.fromCache = true → c.Live) (hpa : p.nodeAddr = .at a)
    (ha : g.dir 0 l = some a) (hmem : g.store.mem a = .leaf lf (some w)) (hl : l ≤ c.client.key)
    (hcov : p.fromCache = false → Covers g 0 c.client.key p.nodeAddr p.siblingAddr)
    (hm : TreeMove ⟨(g.caching cs).store.write a (.leaf lf none), g.dir⟩ ch c.client (.leafLocked a p w) g' cl') :
    CachedNext g c (c.lookups p.fromCache, 2, 0, 0) g'.store
      (c.next fill ((g.caching cs).store.write a (.leaf lf none)) g'.store cl') := by
  -- the leaf that is read is the one that was locked
  have hunlocked : ∀ {l' h : Nat} {lf' : LeafNode L},
    LeafAt ⟨(g.caching cs).store.write a (.leaf lf none), g.dir⟩ a l' h lf' none →
      lf' = lf ∧ l' = l ∧ LeafAt g a l h lf (some w) := by
    intro l' h lf' hat
    have hm' := hat.mem
    rw [show (⟨(g.caching cs).store.write a (.leaf lf none), g.dir⟩ : Charted L).store.mem a = _ from
      Store.write_self ..] at hm'
    cases hm'
    obtain rfl := hg.inj_level 0 _ _ a hat.linked ha
    exact ⟨rfl, rfl, hat.linked, hmem, hat.ok⟩
  cases hm with
  | staleLocked hfc =>
    rw [CachedClient.next_of_same rfl, lookups_fromCache hfc]
    exact .inl ⟨(c.treeCache.size + 1, 1, 0, 0), .right _ (.left _ _ (by omega)), .leafUnlock (hlive hfc) hmem⟩
  | insertRight hr => cases hreq.symm.trans hr
  | @updateRight _ l' h h' _ _ _ lf' sib hr hat hno ht hlt hkh hpt hfc =>
    obtain ⟨rfl, rfl, hat⟩ := hunlocked hat
    obtain ⟨l₁, h₁, hp₁, hn₁, ht₁, -, -⟩ := hcov hfc
    obtain rfl := hp₁.begin_eq hg hpa ha
    have h1 := hat.ok.next.unique (hg.below _) hn₁
    have h2 := ht₁.unique (hg.inj_level 0) ht
    omega
  | @toWrite _ l' h _ _ lf' r' x hat hlk hkh hup happ htells hkeys hwrite =>
    rw [CachedClient.next_of_same rfl]
    obtain ⟨rfl, rfl, hat⟩ := hunlocked hat
    obtain ⟨hlock, i, hi, rfl⟩ := hwrite v hreq
    refine .inl ⟨(0, 1, 0, 0), ?_, .leafWrite hreq (hlock ▸ hat) hi happ⟩
    cases hfc : p.fromCache with
    | true => exact .left _ _ (Nat.succ_pos _)
    | false => exact .right _ (.left _ _ (by omega))
  | toSplit hr => cases hreq.symm.trans hr
  | stuck hr => cases hreq.symm.trans hr
  | keyMissing hr hat hno hh =>
    rw [CachedClient.next_of_same rfl]
    obtain ⟨rfl, rfl, hat⟩ := hunlocked hat
    exact .inr (.missing hreq hat hl hh hno)

theorem Store.write_write (s : Store L) (a : Nat) (x y : Cell L) : (s.write a x).write a y = s.write a y := by
  unfold Store.write
  simp only [Function.update_idem]

theorem Store.write_mem {s : Store L} {a : Nat} {x : Cell L} (h : s.mem a = x) : s.write a x = s := by
  unfold Store.write
  rw [← h, Function.update_eq_self]

/-- The pair is written over the old one of its key, and the leaf is unlocked. -/
theorem cached_leafWrite {a l h v : Nat} {lf : LeafNode L} {i : Fin L.leafSpanSize} {x : LeafWrite L} {r : Rank}
    (hreq : c.client.request = .update v) (hat : LeafAt g a l h lf (some x.lock))
    (hi : lf.records.keys i = c.client.key)
    (happ : x.apply lf = { lf with records := lf.records.update i.val c.client.key v })
    (hm : TreeMove ⟨(g.caching cs).store.write a (.leaf lf none), g.dir⟩ ch c.client (.leafWrite a x) g' cl') :
    CachedNext g c r g'.store (c.next fill ((g.caching cs).store.write a (.leaf lf none)) g'.store cl') := by
  cases hm with
  | @writeLeaf _ _ lf' hmem =>
    obtain rfl : lf = lf' := by
      have hm' : ((g.caching cs).store.write a (.leaf lf none)).mem a = .leaf lf' none := hmem
      rw [Store.write_self] at hm'
      cases hm'
      rfl
    rw [happ]
    simp only [Store.write_write]
    exact .inr (.written hreq hat hi)

/-- The leaf is unlocked as it was. -/
theorem cached_leafUnlock {a : Nat} {lf : LeafNode L} {w : Valock L} (hlive : c.Live) (hold : c.treeCache.Holds cs)
    (hmem : g.store.mem a = .leaf lf (some w))
    (hm : TreeMove ⟨(g.caching cs).store.write a (.leaf lf none), g.dir⟩ ch c.client (.leafUnlock a w none) g' cl') :
    CachedNext g c (c.treeCache.size + 1, 1, 0, 0) g'.store
      (c.next fill ((g.caching cs).store.write a (.leaf lf none)) g'.store cl') := by
  cases hm with
  | @unlockLeaf _ _ _ lf' hmem' =>
    obtain rfl : lf = lf' := by
      have hm' : ((g.caching cs).store.write a (.leaf lf none)).mem a = .leaf lf' none := hmem'
      rw [Store.write_self] at hm'
      cases hm'
      rfl
    have hsame : (g.caching cs).store.cached = ((g.caching cs).store.write a (.leaf lf none)).cached := rfl
    simp only [Store.write_write, Store.write_mem (show (g.caching cs).store.mem a = _ from hmem)]
    rw [CachedClient.next_of_same hsame]
    exact cached_again hlive hold rfl

/-- The nodes in the caches after a move. -/
theorem TreeMove.cached {pc : TreePc L} {g : Charted L} {cl : Client L} (hm : TreeMove g ch cl pc g' cl') :
    g'.store.cached = g.store.cached ∨ ∃ nd, g'.store.cached = nd :: g.store.cached := by
  cases hm with
  | down | targetDown => exact .inr ⟨_, rfl⟩
  | _ => exact .inl rfl

/-- What holds of the client in a search or an update. -/
structure CachedOk (g : Charted L) (c : CachedClient L) (s : Store L) : Prop where
  tree : TreeOk ⟨s, g.dir⟩
  client : ClientOk ⟨s, g.dir⟩ c.client
  holds : c.treeCache.Holds s.cached

/-- A step that is not a lookup. -/
theorem cached_move (h3 : 3 ≤ L.internalSpanSize) {s : Store L} {r : Rank} (hok : CachedOk g c s) (o : Surroundings L)
    (hstart : c.client.pc ≠ .start) (hdone : ∀ v, c.client.pc ≠ .done v) (hcrash : ∀ b, c.client.pc ≠ .crashed b)
    (hnext : ∀ {g' cl'}, TreeMove ⟨s, g.dir⟩ ⟨none, o.buffer, o.speculativeIdx⟩ c.client c.client.pc g' cl' →
      g'.dir = g.dir ∧ CachedNext g c r g'.store (c.next o.fill s g'.store cl')) :
    ∃ s' c', c.step s o = some (s', c') ∧ c'.client.request = c.client.request ∧ c'.client.key = c.client.key ∧
      CachedOk g c' s' ∧ CachedNext g c r s' c' := by
  obtain ⟨s', cl', hst⟩ :=
    @Client.exists_step _ _ ⟨none, o.buffer, o.speculativeIdx⟩ _ _ hok.tree h3 hok.client rfl hdone hcrash
  obtain ⟨d', hm⟩ := Client.step_moves hok.tree hok.client hst
  obtain ⟨hdir, hnext⟩ := hnext hm
  have hch := hm.change hok.tree hok.client rfl
  obtain ⟨hkey, hrequest⟩ := hm.operation
  obtain rfl : d' = g.dir := hdir
  refine ⟨s', c.next o.fill s s' cl', ?_, hrequest, hkey, ⟨Protocol.Change.shared hch, Protocol.Change.client hch,
    c.filled_holds hok.holds hm.cached⟩, hnext⟩
  unfold CachedClient.step
  split
  · exact absurd ‹_› hstart
  · rw [hst]
    rfl

/-- **A step** of a client with caches: it goes on with a lower rank, or ends. -/
theorem CachedAt.step (hg : TreeOk g) (h3 : 3 ≤ L.internalSpanSize)
    (hreq : c.client.request = .search ∨ Settled g ∧ ∃ v, c.client.request = .update v) {s : Store L} {r : Rank}
    (hok : CachedOk g c s) (hat : CachedAt g c r s c.client.pc) (o : Surroundings L) :
    ∃ s' c', c.step s o = some (s', c') ∧ c'.client.request = c.client.request ∧ c'.client.key = c.client.key ∧
      CachedOk g c' s' ∧ CachedNext g c r s' c' := by
  have hsettled := hreq.imp_right And.left
  have hupdate : ∀ {a : Nat} {p : Position} {w : Valock L}, c.client.pc = .leafLocked a p w →
      ∃ v, c.client.request = .update v := by
    intro a p w hpc
    have hc := hok.client.pc
    rw [hpc] at hc
    exact (hreq.resolve_left hc.2.2.2.2).2
  have hmove := cached_move (r := r) h3 hok o
  generalize hpc : c.client.pc = pc at hat hmove
  cases hat with
  | @start cs hentry =>
    obtain ⟨c', p, hstep, hclient, hvisit, hcache, hnext⟩ := cached_start hg h3 hok.tree.cached hok.client.key_pos
      hok.client.key_lt hpc hok.holds o
    have hpath := hok.client.pc
    rw [hpc] at hpath
    refine ⟨_, c', hstep, by rw [hclient]; rfl, by rw [hclient]; rfl, ⟨hok.tree, ?_, ?_⟩, hnext⟩
    · rw [hclient]
      exact ⟨hok.client.key_pos, hok.client.key_lt, hpath, hvisit⟩
    · rw [hcache]
      exact c.invalidated_holds hok.holds
  | visit hlive hp hl hcov =>
    refine hmove (by simp) (by simp) (by simp) fun hm => ⟨by cases hm <;> rfl, ?_⟩
    exact cached_visit hg h3 hok.holds hlive hp hl hcov hm
  | leaf hlive hp hnear hcov =>
    refine hmove (by simp) (by simp) (by simp) fun hm => ⟨by cases hm <;> rfl, ?_⟩
    exact cached_leaf hg hsettled hok.holds hlive hp hnear hcov hm
  | leafLocked hlive hpa ha hmem hl hcov =>
    obtain ⟨v, hv⟩ := hupdate hpc
    refine hmove (by simp) (by simp) (by simp) fun hm => ⟨by cases hm <;> rfl, ?_⟩
    exact cached_leafLocked hg hv hlive hpa ha hmem hl hcov hm
  | leafUnlock hlive hmem =>
    refine hmove (by simp) (by simp) (by simp) fun hm => ⟨by cases hm; rfl, ?_⟩
    exact cached_leafUnlock hlive hok.holds hmem hm
  | leafWrite hr hat hi happ =>
    refine hmove (by simp) (by simp) (by simp) fun hm => ⟨by cases hm; rfl, ?_⟩
    exact cached_leafWrite hr hat hi happ hm

/-- **A run** of a client with caches comes to an end. -/
theorem CachedAt.run (hg : TreeOk g) (h3 : 3 ≤ L.internalSpanSize) {request : Request} {k : Nat}
    (hreq : request = .search ∨ Settled g ∧ ∃ v, request = .update v) (o : Nat → Surroundings L) {s : Store L}
    {r : Rank} (hrequest : c.client.request = request) (hkey : c.client.key = k) (hok : CachedOk g c s)
    (hat : CachedAt g c r s c.client.pc) :
    ∃ n s' c', c.after s o n = some (s', c') ∧ CallOutcome g request k s'.remote c'.client.pc ∧ CachedOk g c' s' := by
  let I : Rank → Nat → Prop := fun r n => ∃ s₁ c₁, c.after s o n = some (s₁, c₁) ∧ c₁.client.request = request ∧
    c₁.client.key = k ∧ CachedOk g c₁ s₁ ∧ CachedAt g c₁ r s₁ c₁.client.pc
  let Q : Nat → Prop :=
    fun n => ∃ s' c', c.after s o (n + 1) = some (s', c') ∧ CallOutcome g request k s'.remote c'.client.pc ∧
    CachedOk g c' s'
  have hstep : ∀ r n, I r n → Q n ∨ ∃ r', Rank.Lt r' r ∧ I r' (n + 1) := by
    rintro r n ⟨s₁, c₁, haft, hr₁, hk₁, hok₁, hat₁⟩
    obtain ⟨s₂, c₂, hst, hr₂, hk₂, hok₂, hnext⟩ := hat₁.step hg h3 (by rw [hr₁]; exact hreq) hok₁ (o n)
    have haft₂ : c.after s o (n + 1) = some (s₂, c₂) := by
      rw [CachedClient.after, haft]
      exact hst
    rcases hnext with ⟨r', hr, hat₂⟩ | hout
    · exact .inr ⟨r', hr, s₂, c₂, haft₂, hr₂.trans hr₁, hk₂.trans hk₁, hok₂, hat₂⟩
    · rw [hr₁, hk₁] at hout
      exact .inl ⟨s₂, c₂, haft₂, hout, hok₂⟩
  obtain ⟨n, -, s', c', haft, hout, hok'⟩ := Machine.exists_of_rank (Q := Q) Rank.lt_wellFounded hstep r 0
    ⟨s, c, rfl, hrequest, hkey, hok, hat⟩
  exact ⟨n + 1, s', c', haft, hout, hok'⟩

/-- **A call** on a tree without other clients. -/
theorem cached_call (hg : TreeOk g) (h3 : 3 ≤ L.internalSpanSize) {request : Request} {k : Nat}
    (hreq : request = .search ∨ Settled g ∧ ∃ v, request = .update v) (hk : 1 ≤ k) (hkf : k < L.keyFull)
    {treeCache : TreeCache} (hold : treeCache.Holds g.store.cached) (o : Nat → Surroundings L) :
    ∃ n s' c', (CachedClient.call request k treeCache).after g.store o n = some (s', c') ∧
      CallOutcome g request k s'.remote c'.client.pc ∧ CachedOk g c' s' := by
  have hpath : PathOk g (fun _ => .null) k 0 := fun _ _ hne => absurd rfl hne
  exact CachedAt.run hg h3 hreq o rfl rfl ⟨hg, ⟨hk, hkf, hpath⟩, hold⟩ (@CachedAt.start _ _ _ g.store.cached (.inl rfl))

end Steps

/-! ## Transparency -/

/-- The client has returned, or failed an assertion. -/
def TreePc.ended : TreePc L → Bool
  | .done _ | .crashed _ => true
  | _ => false

/-- The run of the client ends, with this remote state and at this place. -/
def CachedClient.EndsAs (c : CachedClient L) (s : Store L) (o : Nat → Surroundings L) (remote : Store L)
    (pc : TreePc L) : Prop :=
  ∃ n s' c', c.after s o n = some (s', c') ∧ c'.client.pc.ended = true ∧ s'.remote = remote ∧ c'.client.pc = pc

open Chime.Tree

/-- An operation ends at a return or at a failed assertion. -/
theorem CallOutcome.ended {g : Charted L} {request : Request} {k : Nat} {s : Store L} {pc : TreePc L}
    (h : CallOutcome g request k s pc) :
    pc.ended = true := by
  cases h <;> rfl

theorem CallOutcome.of_search {g : Charted L} {k : Nat} {s : Store L} {pc : TreePc L}
    (h : CallOutcome g .search k s pc) :
    s = g.store.remote ∧ ∃ v, pc = .done v ∧ FoundIn g k v := by
  cases h with
  | found _ hv => exact ⟨rfl, _, rfl, hv⟩
  | written hr | missing hr => cases hr

/-- An update of a stored key returns. -/
theorem CallOutcome.of_stored {g : Charted L} (hg : TreeOk g) {request : Request} {k v : Nat} {s : Store L}
    {pc : TreePc L} (h : CallOutcome g request k s pc) (hst : Contents g k v) : ∃ v, pc = .done v := by
  cases h with
  | missing hr hat hl hh hno => exact absurd (hat.hasKey hg hl hh hst) hno
  | _ => exact ⟨_, rfl⟩

/-- **Cache transparency**: on a quiescent tree of one client, in which no key is stored twice, a search or an update
ends as it does with empty caches, whatever past copies of internal nodes the index cache has and whatever slots the
hotspot cache names: with the same remote state and the same result. A search returns and leaves the remote state, and
an update of a stored key returns. -/
theorem cache_transparency (h3 : 3 ≤ L.internalSpanSize) {s : Tree L} {h : List Event}
    (hrun : (machine L).Run OneClient s h) (hidle : ∀ c, s.clients c = none) (honce : s.store.KeysOnce)
    {request : Request} (hreq : ∀ v, request ≠ .insert v) {k : Nat} (hk : kKeyMin ≤ k) (hkf : k < L.keyFull)
    {treeCache : TreeCache} (hold : treeCache.Holds s.store.cached) (o : Nat → Surroundings L) (capacity : Nat)
    (o' : Nat → Surroundings L) :
    ∃ remote pc, (CachedClient.call request k treeCache).EndsAs s.store o remote pc ∧
      (CachedClient.call request k (.empty capacity)).EndsAs s.store
      (fun i => { o' i with speculativeIdx := none }) remote pc ∧
      (request = .search → remote = s.store.remote) ∧
      (request = .search ∨ (∃ v, s.store.Stored k v) → ∃ v, pc = .done v) := by
  rw [kKeyMin_eq] at hk
  have hk0 : k ≠ 0 := by omega
  obtain ⟨d, hs⟩ := Lone.of_run hrun
  have hg : TreeOk ⟨s.store, d⟩ := hs.good.shared
  have hkind : request = .search ∨ Settled ⟨s.store, d⟩ ∧ ∃ v, request = .update v := by
    cases request with
    | insert v => exact absurd rfl (hreq v)
    | update v => exact .inr ⟨hs.idle (hidle 0), v, rfl⟩
    | search => exact .inl rfl
  obtain ⟨n, s₁, c₁, haft, hout, -⟩ := cached_call hg h3 hkind hk hkf hold o
  obtain ⟨n', s₂, c₂, haft', hout', -⟩ := cached_call hg h3 hkind hk hkf (TreeCache.holds_empty capacity s.store.cached)
    fun i => { o' i with speculativeIdx := none }
  obtain ⟨hremote, hpc⟩ := hout'.unique hg (hg.onceEach honce hk0) hk0 hout
  refine ⟨s₁.remote, c₁.client.pc, ⟨n, s₁, c₁, haft, hout.ended, rfl, rfl⟩,
    ⟨n', s₂, c₂, haft', hout'.ended, hremote, hpc⟩, ?_, ?_⟩
  · rintro rfl
    exact hout.of_search.1
  · rintro (rfl | ⟨v, hst⟩)
    · obtain ⟨-, v, hv, -⟩ := hout.of_search
      exact ⟨v, hv⟩
    · exact hout.of_stored hg (hg.stored_iff.1 hst)

/-- Three inserts, the last of which splits the root leaf, a search, and an insert that splits the right leaf. -/
def splitAfterSearch : List (Action .small) :=
  completed _ 0 (.insert 11) 1 5 ++ completed _ 0 (.insert 15) 5 5 ++ completed _ 0 (.insert 19) 9 8 ++
    completed _ 0 .search 5 4 ++ completed _ 0 (.insert 23) 13 11

/-- The root as the search has read it. -/
def rootBefore : InternalNode := ⟨1, true, .null, .at 0, .null, 1, Layout.small.keyFull, [⟨2, .at 1⟩]⟩

/-- A cache with that copy. -/
def cacheBefore : TreeCache := ⟨[⟨1, Layout.small.keyFull - 1, some rootBefore⟩], 0⟩

/-- What happened in that run. -/
def splitAfterSearchEvents : List Event := [.ret 0 (.insert 23) 13 0, .write 0 13 23, .invoke 0 (.insert 23) 13,
  .ret 0 .search 5 15, .invoke 0 .search 5,
  .ret 0 (.insert 19) 9 0, .write 0 9 19, .invoke 0 (.insert 19) 9,
  .ret 0 (.insert 15) 5 0, .write 0 5 15, .invoke 0 (.insert 15) 5,
  .ret 0 (.insert 11) 1 0, .write 0 1 11, .invoke 0 (.insert 11) 1]

theorem cacheBefore_holds {cached : List InternalNode} (h : rootBefore ∈ cached) : cacheBefore.Holds cached := by
  refine ⟨List.pairwise_singleton _ _, fun e he nd hptr => ?_⟩
  obtain rfl := List.mem_singleton.1 he
  cases hptr
  exact ⟨h, rfl, rfl⟩

theorem legal_splitAfterSearch : Legal splitAfterSearchEvents := by
  simp [Legal, splitAfterSearchEvents, insertions, Event.inserts]

/-- The addition of nodes is left out, as if they were evicted at once. -/
def CacheFill.evictAll : CacheFill where
  add c _ := c
  holds nd h := h.mono nd

theorem single_oneClient {s : Tree L} {a : Action L} (h : Single s a) : OneClient s a := by
  cases a with
  | invoke c request key =>
    obtain ⟨hc, hk, hghost, -⟩ := h
    refine ⟨hc, hk, ?_⟩
    have := L.keySpace_ge
    simp only [Layout.ghostKey, Layout.keyFull] at *
    omega
  | _ => trivial

/-- The node in a cell. -/
def Cell.internalNode : Cell L → Option InternalNode
  | .internal nd _ => some nd
  | _ => none

/-- Since the root was read the leaf with the key 9 has been split: with that copy of the root in the cache the key is
found as without. -/
theorem cache_transparency_stale : ∃ (s : Tree .small) (h : List Event), (machine .small).Run OneClient s h ∧
    rootBefore ∈ s.store.cached ∧ (s.store.read s.store.root.ptr).internalNode ≠ some rootBefore ∧
    ∃ remote pc,
      (CachedClient.call .search 9 cacheBefore).EndsAs s.store (fun _ => ⟨LeafNode.empty, some 1, .evictAll⟩) remote pc ∧
      (CachedClient.call .search 9 (.empty 0)).EndsAs s.store (fun _ => ⟨LeafNode.empty, none, .evictAll⟩) remote pc ∧
      ∃ v, pc = .done v := by
  have hsome : (((machine .small).exec singleChecked (init _) [] splitAfterSearch).map fun y =>
      (y.2, (y.1.clients 0).isSome,
      decide (rootBefore ∈ y.1.store.cached),
        decide ((y.1.store.read y.1.store.root.ptr).internalNode = some rootBefore))) =
      some (splitAfterSearchEvents, false, true, false) := by decide +kernel
  obtain ⟨⟨s, h⟩, hexec, heq⟩ := Option.map_eq_some_iff.1 hsome
  simp only [Prod.mk.injEq, decide_eq_true_eq, decide_eq_false_iff_not] at heq
  obtain ⟨rfl, hclient, hcached, hmoved⟩ := heq
  have hrun : (machine .small).Run Single s _ :=
    .of_exec (I := fun _ => True) (fun _ hc => single_of_check hc) (fun _ _ _ => trivial) trivial .init hexec
  obtain ⟨d, hs⟩ := Solo.of_exact_run (by decide) hrun legal_splitAfterSearch
  have hidle : ∀ c, s.clients c = none := fun c => by
    by_cases hc : c = 0
    · rw [hc]
      exact Option.isNone_iff_eq_none.1 (by simpa using hclient)
    · exact hs.others hc
  have honce : s.store.KeysOnce := TreeOk.keysOnce hs.good.shared fun k hk => hs.onceEach legal_splitAfterSearch hk
  have hrun' : (machine .small).Run OneClient s _ := hrun.mono fun _ _ => single_oneClient
  obtain ⟨remote, pc, h1, h2, -, hdone⟩ := cache_transparency (by decide) hrun' hidle honce
    (show ∀ v, Request.search ≠ .insert v by simp) (k := 9) (by decide) (by decide) (cacheBefore_holds hcached)
    (fun _ => ⟨LeafNode.empty, some 1, .evictAll⟩) 0
    fun _ => ⟨LeafNode.empty, none, .evictAll⟩
  exact ⟨s, _, hrun', hcached, hmoved, remote, pc, h1, h2, hdone (.inl rfl)⟩

end Chime

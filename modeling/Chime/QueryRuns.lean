import Chime.Linearizability
import Chime.RangeQueryResult

/-!
# Range queries among other clients (`Tree.cpp`)

A range query makes its steps between those of any number of clients. Each segment is read at a moment of its own, the
searches of single keys are calls of one more client, and at each of its steps the query meets an index cache of copies
of nodes of the past. A query is not a snapshot of the tree, but each of its entries is right at a moment of the query:
the tree has the pair at that moment, or has no pair for the key and the entry is null (`range_query_moments`).
-/

namespace Chime
namespace Query

open Chime.Tree

variable {L : Layout}

/-- Where a query stands. -/
inductive Pc (L : Layout)
  | start
  /-- in `read_batches_sync`, with what the segments have been read as -/
  | reading (round : Nat) (speculativeKeys : List Nat) (leafInfo : List (List (ReadSegment × Option (Cell L))))
  /-- in the loop over `speculative_keys` -/
  | retry (round : Nat) (speculativeKeys : List Nat) (retryLeafKeys : List (GlobalAddress × List Nat))
      (nextInfo : List (List ReadSegment))
  /-- in a loop over keys; with `cached`, a key is not searched if it is in `ret` -/
  | keys (ks : List Nat) (cached : Bool)
  | done (cached : Bool)

structure State (L : Layout) where
  tree : Tree L
  pc : Pc L
  /-- the key of the search that is under way, `search(k, ret[k])` -/
  searching : Option Nat
  ret : Nat → Option Nat

/-- A step of a client of the tree, a read of a segment, or another step of the query, with the index cache. -/
inductive Action (L : Layout)
  | tree (a : Tree.Action L)
  | read (i j : Nat)
  | next (treeCache : TreeCache)

/-- Segments that are to be read. -/
def unread (info : List (List ReadSegment)) : List (List (ReadSegment × Option (Cell L))) :=
  info.map fun segs => segs.map fun seg => (seg, none)

/-- `c` makes the calls for the query. -/
def callOf (c : Nat) : Tree.Action L → Bool
  | .invoke c' _ _ | .ret c' => c' = c
  | .step .. => false

variable (o : QuerySurroundings L) (c fromKey toKey : Nat)

/-- "parse read leaf segments", for the segments of one leaf; `none`: one is not read yet. -/
def parseLeaf (round : Nat) : List (ReadSegment × Option (Cell L)) → (Nat → Option Nat) →
    Option ((Nat → Option Nat) × List ReadSegment)
  | [], ret => some (ret, [])
  | (seg, some (.leaf lf _)) :: segs, ret =>
    if o.rejected round seg ∨ ¬hopConsistent lf.records seg then
      (parseLeaf round segs ret).map fun x => (x.1, seg :: x.2)
    else parseLeaf round segs (collect fromKey toKey lf.records seg ret)
  | _ :: _, _ => none

/-- The same for all leaves. -/
def parseLeaves (round : Nat) : List (List (ReadSegment × Option (Cell L))) → (Nat → Option Nat) →
    Option ((Nat → Option Nat) × List (List ReadSegment))
  | [], ret => some (ret, [])
  | segs :: info, ret => do
    let (ret, again) ← parseLeaf o fromKey toKey round segs ret
    let (ret, nextInfo) ← parseLeaves round info ret
    return (ret, if again = [] then nextInfo else again :: nextInfo)

/-- A search begins; after it the query goes on at `pc`. -/
def search (s : State L) (k : Nat) (pc : Pc L) : Option (State L × List Tree.Event) :=
  (Tree.step s.tree (.invoke c .search k)).map fun x => (⟨x.1, pc, some k, s.ret⟩, x.2)

/-- The search returns. -/
def searched (s : State L) (k : Nat) : Option (State L × List Tree.Event) :=
  match (s.tree.clients c).map Client.pc with
  | some (.done v) =>
    (Tree.step s.tree (.ret c)).map fun x => (⟨x.1, s.pc, none, Function.update s.ret k (some v)⟩, x.2)
  | _ => none

/-- The next step of the query itself. -/
def next (s : State L) (treeCache : TreeCache) : Option (State L × List Tree.Event) :=
  match s.pc with
  | .start =>
    match treeCache.searchRangeFromCache fromKey toKey with
    | [] => some ({ s with pc := .keys (List.range' fromKey (toKey - fromKey)) false }, [])
    | nodes =>
      let leaves := leafFences nodes fromKey toKey
      some ({ s with pc := .reading 0 (leaves.flatMap (o.speculativeKeys fromKey toKey)) (unread
        (leaves.map fun leaf => o.segments leaf.1 (o.leafIntervals fromKey toKey leaf))) }, [])
  | .reading round speculativeKeys leafInfo =>
    (parseLeaves o fromKey toKey round leafInfo s.ret).map fun x =>
      ({ s with pc := .retry round speculativeKeys [] x.2, ret := x.1 }, [])
  | .retry round [] retryLeafKeys nextInfo =>
    let nextInfo := nextInfo ++ o.retrySegments retryLeafKeys
    some ({ s with
      pc := if nextInfo.flatten = [] then .keys (List.range' fromKey (toKey - fromKey)) true
        else .reading (round + 1) [] (unread nextInfo) }, [])
  | .retry round (k :: keys) retryLeafKeys nextInfo =>
    if (s.ret k).isSome then some ({ s with pc := .retry round keys retryLeafKeys nextInfo }, [])
    else
      match (treeCache.searchFromCache k).filter (·.2.level = 1) with
      | none => search c s k (.retry round keys retryLeafKeys nextInfo)
      | some (_, nd) =>
        let retryLeafKeys := assignEntry (nd.childPtr k).1 (fun keys => keys.getD [] ++ [k]) retryLeafKeys
        some ({ s with pc := .retry round keys retryLeafKeys nextInfo }, [])
  | .keys [] cached => some ({ s with pc := .done cached }, [])
  | .keys (k :: ks) cached =>
    if cached ∧ (s.ret k).isSome then some ({ s with pc := .keys ks cached }, []) else search c s k (.keys ks cached)
  | .done _ => none

def step (s : State L) : Action L → Option (State L × List Tree.Event)
  | .tree a => if callOf c a then none else (Tree.step s.tree a).map fun x => ({ s with tree := x.1 }, x.2)
  | .read i j =>
    match s.pc with
    | .reading round speculativeKeys leafInfo =>
      match leafInfo[i]? with
      | some segs =>
        match segs[j]? with
        | some (seg, none) =>
          let segs := segs.set j (seg, some (s.tree.store.read seg.leafAddr))
          some ({ s with pc := .reading round speculativeKeys (leafInfo.set i segs) }, [])
        | _ => none
      | none => none
    | _ => none
  | .next treeCache =>
    match s.searching with
    | some k => searched c s k
    | none => next o c fromKey toKey s treeCache

/-- A tree with clients, and one query. -/
def machine : Machine (State L) (Action L) Tree.Event :=
  ⟨⟨Tree.init L, .start, none, fun _ => none⟩, step o c fromKey toKey⟩

/-- The keys of the operations lie between the fences, and the index cache has copies of nodes. -/
def Guard (s : State L) : Action L → Prop
  | .tree a => ValidKeys s.tree a
  | .next treeCache => treeCache.Holds s.tree.store.cached
  | .read _ _ => True

/-- A round of reads that are all made at one moment is that of a query without other clients. -/
theorem parseLeaves_unmoved (s : Store L) (round : Nat) (info : List (List ReadSegment)) (ret : Nat → Option Nat) :
    parseLeaves o fromKey toKey round (info.map fun segs => segs.map fun seg => (seg, some (s.read seg.leafAddr))) ret =
      o.parseLeaves s fromKey toKey round info ret := by
  have hleaf : ∀ (segs : List ReadSegment) (ret : Nat → Option Nat),
      parseLeaf o fromKey toKey round (segs.map fun seg => (seg, some (s.read seg.leafAddr))) ret =
        o.parseLeaf s fromKey toKey round segs ret := by
    intro segs
    induction segs with
    | nil => exact fun _ => rfl
    | cons seg segs ih =>
      intro ret
      rw [List.map_cons, QuerySurroundings.parseLeaf]
      cases hread : s.read seg.leafAddr with
      | leaf lf lock => simp only [parseLeaf, ih]
      | _ => rfl
  induction info generalizing ret with
  | nil => rfl
  | cons segs info ih => simp only [List.map_cons, parseLeaves, QuerySurroundings.parseLeaves, hleaf, ih]

/-! ## Moments of a query -/

/-- What a search of the key would find in the tree. -/
def Finds (s : Store L) (k v : Nat) : Prop := s.Stored k v ∨ (v = kValueNull ∧ ∀ w, ¬s.Stored k w)

/-- The query has begun, and has not returned. -/
def State.Underway (s : State L) : Prop := s.pc ≠ .start ∧ ∀ b, s.pc ≠ .done b

/-- At some moment of the query a search of the key would have found the value. -/
def Moment (t : List (State L × List Tree.Event)) (k v : Nat) : Prop :=
  ∃ x ∈ t, x.1.Underway ∧ Finds x.1.tree.store k v

variable {o c fromKey toKey} {s s' : State L} {d d' : Directory} {t t' : List (State L × List Tree.Event)}
  {es es' : List Tree.Event} {k v : Nat}

theorem Moment.mono (ht : t ⊆ t') (h : Moment t k v) : Moment t' k v :=
  h.imp fun _ ⟨hx, h⟩ => ⟨ht hx, h⟩

/-- The present moment. -/
theorem Moment.now (hg : TreeGood s.tree d) (hs : s.Underway) (h : FoundIn ⟨s.tree.store, d⟩ k v) :
    Moment ((s, es) :: t) k v := by
  have hst : ∀ w, s.tree.store.Stored k w ↔ Contents ⟨s.tree.store, d⟩ k w := fun w => hg.shared.stored_iff
  refine ⟨_, List.mem_cons_self, hs, h.imp (hst v).2 fun ⟨hv, hno⟩ => ⟨hv, fun w hw => hno w ((hst w).1 hw)⟩⟩

/-! ## The invariant -/

/-- A segment to be read, and what it has been read as. -/
def ReadOk (d : Directory) (t : List (State L × List Tree.Event)) (x : ReadSegment × Option (Cell L)) : Prop :=
  SegmentOk L d x.1 ∧ ∀ cell, x.2 = some cell → ∃ lf lock, cell = .leaf lf lock ∧
    ∀ k v, lf.records.Stored k v → Moment t k v

/-- The keys are in the range. -/
def InRange (fromKey toKey : Nat) (ks : List Nat) : Prop := ∀ k ∈ ks, fromKey ≤ k ∧ k < toKey

/-- What holds where the query stands. -/
def PcOk (fromKey toKey : Nat) (d : Directory) (t : List (State L × List Tree.Event)) : Pc L → Prop
  | .reading _ keys info => InRange fromKey toKey keys ∧ ∀ x ∈ info.flatten, ReadOk d t x
  | .retry _ keys leafKeys info =>
    InRange fromKey toKey keys ∧ AtLeaves d leafKeys ∧ ∀ seg ∈ info.flatten, SegmentOk L d seg
  | .keys ks _ => InRange fromKey toKey ks
  | .start | .done _ => True

/-- The key may still be missing in `ret`. -/
def Pc.missing : Pc L → Nat → Prop
  | .keys ks _, k => k ∈ ks
  | .done _, _ => False
  | _, _ => True

/-- The client with the search of a key: if it has taken effect, then with what was right at a moment. -/
def SearchOk (clients : Option (Client L)) (d : Directory) (t : List (State L × List Tree.Event)) (k : Nat) : Prop :=
  ∃ cl phase, clients = some cl ∧ cl.request = .search ∧ cl.key = k ∧ PhaseOk d .search k cl.pc phase ∧
    ∀ v, phase = .taken (.search, k) v → Moment t k v

/-- The client that makes the calls. -/
def ClientOk (fromKey toKey : Nat) (client : Option (Client L)) (d : Directory) (t : List (State L × List Tree.Event)) :
    Option Nat → Prop
  | some k => (fromKey ≤ k ∧ k < toKey) ∧ SearchOk client d t k
  | none => client = none

/-- What holds in the state that a trace has led to. -/
structure Inv (c fromKey toKey : Nat) (s : State L) (t : List (State L × List Tree.Event)) (d : Directory) : Prop where
  good : TreeGood s.tree d
  pc : PcOk fromKey toKey d t s.pc
  client : ClientOk fromKey toKey (s.tree.clients c) d t s.searching
  searching : s.searching.isSome = true → s.Underway
  ret : ∀ k v, s.ret k = some v → (fromKey ≤ k ∧ k < toKey) ∧ Moment t k v
  covered : ∀ k, fromKey ≤ k → k < toKey → s.pc.missing k ∨ s.searching = some k ∨ (s.ret k).isSome = true

theorem ReadOk.mono (hd : d.Le d') (ht : t ⊆ t') {x : ReadSegment × Option (Cell L)} (h : ReadOk d t x) :
    ReadOk d' t' x := by
  obtain ⟨⟨⟨l, hl⟩, hpos, hle⟩, hread⟩ := h
  refine ⟨⟨⟨l, hl.mono (hd 0)⟩, hpos, hle⟩, fun cell hcell => ?_⟩
  obtain ⟨lf, lock, he, hst⟩ := hread cell hcell
  exact ⟨lf, lock, he, fun k v h => (hst k v h).mono ht⟩

theorem PcOk.mono (hd : d.Le d') (ht : t ⊆ t') {pc : Pc L} (h : PcOk fromKey toKey d t pc) :
    PcOk fromKey toKey d' t' pc := by
  cases pc with
  | reading => exact ⟨h.1, fun x hx => (h.2 x hx).mono hd ht⟩
  | retry =>
    refine ⟨h.1, fun y hy => (h.2.1 y hy).imp fun l hl => hl.mono (hd 0), fun seg hseg => ?_⟩
    obtain ⟨⟨l, hl⟩, hpos, hle⟩ := h.2.2 seg hseg
    exact ⟨⟨l, hl.mono (hd 0)⟩, hpos, hle⟩
  | start | keys | done => exact h

theorem ClientOk.mono (hd : d.Le d') (ht : t ⊆ t') {client : Option (Client L)} {searching : Option Nat}
    (h : ClientOk fromKey toKey client d t searching) : ClientOk fromKey toKey client d' t' searching := by
  cases searching with
  | none => exact h
  | some k =>
    obtain ⟨hrange, cl, phase, hc, hr, hk, hp, hmoment⟩ := h
    exact ⟨hrange, cl, phase, hc, hr, hk, hp.mono hd, fun v hv => (hmoment v hv).mono ht⟩

/-- **A step of the search**: it takes effect with what is right now, or goes on. -/
theorem SearchOk.move (h3 : 3 ≤ L.internalSpanSize) (hg : TreeGood s.tree d) (hs : s.Underway) {cl cl' : Client L}
    (hc : s.tree.clients c = some cl) (h : SearchOk (s.tree.clients c) d ((s, es) :: t) k) {ch : Choice L}
    {g' : Charted L} (hm : TreeMove ⟨s.tree.store, d⟩ ch cl cl.pc g' cl') :
    SearchOk (some cl') g'.dir ((s, es) :: t) k := by
  obtain ⟨cl₀, phase, hc₀, hr, rfl, hp, hmoment⟩ := h
  cases hc.symm.trans hc₀
  obtain ⟨hk', hr'⟩ := hm.operation
  have hok := hg.client hc
  have hgoal : ∀ {phase}, PhaseOk g'.dir cl.request cl.key cl'.pc phase →
      (∀ v, phase = .taken (.search, cl.key) v → Moment ((s, es) :: t) cl.key v) →
      SearchOk (some cl') g'.dir ((s, es) :: t) cl.key := fun hp hmoment =>
    ⟨cl', _, rfl, hr'.trans hr, hk', hr ▸ hp, hmoment⟩
  generalize hcl : cl.pc = pc at hm hp
  cases hp with
  | pending _ hsearching =>
    rcases hm.search_pending hg.shared h3 hok hcl hr (hsearching rfl) with hp | ⟨v, hp, hfound⟩
    · exact hgoal hp fun v hv => by cases hv
    · refine hgoal hp fun w hw => ?_
      injection hw with _ hv
      exact hv ▸ .now hg hs hfound
  | passed _ hfc hpoints hl =>
    refine hgoal (hm.search_passed hg.shared hr hfc hpoints hl) fun v hv => ?_
    injection hv with _ hv
    exact hv ▸ hmoment _ rfl
  | written hr' => exact absurd rfl hr'
  | done | crashed => cases hm

/-! ## Steps -/

/-- What is collected from a leaf that was read at a moment of the query. -/
theorem collect_moment {r : Records L} (hr : ∀ k v, r.Stored k v → Moment t k v) (seg : ReadSegment)
    {ret : Nat → Option Nat} (h : ∀ k v, ret k = some v → (fromKey ≤ k ∧ k < toKey) ∧ Moment t k v) :
    ∀ k v, collect fromKey toKey r seg ret k = some v → (fromKey ≤ k ∧ k < toKey) ∧ Moment t k v := by
  unfold collect
  generalize List.range' seg.startIdx seg.segmentSize = is
  induction is generalizing ret with
  | nil => exact h
  | cons i is ih =>
    rw [List.foldl_cons]
    refine ih fun k v hk => ?_
    split at hk
    · rename_i he
      rcases eq_or_ne k (r.getEntry i).key with rfl | hne
      · rw [Function.update_self] at hk
        cases hk
        exact ⟨he.2, hr _ _ ⟨he.1, _, rfl⟩⟩
      · rw [Function.update_of_ne hne] at hk
        exact h k v hk
    · exact h k v hk

theorem parseLeaf_moment {round : Nat} {segs : List (ReadSegment × Option (Cell L))} (hsegs : ∀ x ∈ segs, ReadOk d t x)
    {ret ret' : Nat → Option Nat} (h : ∀ k v, ret k = some v → (fromKey ≤ k ∧ k < toKey) ∧ Moment t k v)
    {again : List ReadSegment} (he : parseLeaf o fromKey toKey round segs ret = some (ret', again)) :
    (∀ k v, ret' k = some v → (fromKey ≤ k ∧ k < toKey) ∧ Moment t k v) ∧ ∀ seg ∈ again, SegmentOk L d seg := by
  induction segs generalizing ret again with
  | nil =>
    cases he
    exact ⟨h, List.forall_mem_nil _⟩
  | cons x segs ih =>
    obtain ⟨hx, hrest⟩ := List.forall_mem_cons.1 hsegs
    obtain ⟨seg, cell⟩ := x
    cases cell with
    | none => cases he
    | some cell =>
      obtain ⟨hseg, hread⟩ := hx
      obtain ⟨lf, lock, rfl, hst⟩ := hread cell rfl
      rw [parseLeaf] at he
      split at he
      · obtain ⟨⟨ret₁, again₁⟩, he₁, heq⟩ := Option.map_eq_some_iff.1 he
        cases heq
        obtain ⟨hret, hagain⟩ := ih hrest h he₁
        exact ⟨hret, List.forall_mem_cons.2 ⟨hseg, hagain⟩⟩
      · exact ih hrest (collect_moment hst seg h) he

/-- **The parse** of a round puts only what was right at a moment into `ret`. -/
theorem parseLeaves_moment {round : Nat} {info : List (List (ReadSegment × Option (Cell L)))}
    (hinfo : ∀ x ∈ info.flatten, ReadOk d t x) {ret ret' : Nat → Option Nat}
    (h : ∀ k v, ret k = some v → (fromKey ≤ k ∧ k < toKey) ∧ Moment t k v) {next : List (List ReadSegment)}
    (he : parseLeaves o fromKey toKey round info ret = some (ret', next)) :
    (∀ k v, ret' k = some v → (fromKey ≤ k ∧ k < toKey) ∧ Moment t k v) ∧
      ∀ seg ∈ next.flatten, SegmentOk L d seg := by
  induction info generalizing ret next with
  | nil =>
    cases he
    exact ⟨h, List.forall_mem_nil _⟩
  | cons segs info ih =>
    rw [List.flatten_cons, List.forall_mem_append] at hinfo
    obtain ⟨⟨ret₁, again⟩, he₁, he⟩ := Option.bind_eq_some_iff.1 he
    obtain ⟨⟨ret₂, next₂⟩, he₂, he⟩ := Option.bind_eq_some_iff.1 he
    cases he
    obtain ⟨hret₁, hagain⟩ := parseLeaf_moment hinfo.1 h he₁
    obtain ⟨hret₂, hnext⟩ := ih hinfo.2 hret₁ he₂
    refine ⟨hret₂, ?_⟩
    split
    · exact hnext
    · rw [List.flatten_cons, List.forall_mem_append]
      exact ⟨hagain, hnext⟩

/-- Segments that are not read yet. -/
theorem readOk_unread {info : List (List ReadSegment)} (h : ∀ seg ∈ info.flatten, SegmentOk L d seg) :
    ∀ x ∈ (unread (L := L) info).flatten, ReadOk d t x := by
  intro x hx
  rw [unread, ← List.map_flatten] at hx
  obtain ⟨seg, hseg, rfl⟩ := List.mem_map.1 hx
  exact ⟨h seg hseg, fun cell hcell => by cases hcell⟩

/-- **A step of a client** of the tree. -/
theorem Inv.tree (h3 : 3 ≤ L.internalSpanSize) (hI : Inv c fromKey toKey s ((s, es) :: t) d) {a : Tree.Action L}
    (hv : ValidKeys s.tree a) (hcall : callOf c a = false) {tree : Tree L}
    (he : Tree.step s.tree a = some (tree, es')) :
    ∃ d', Inv c fromKey toKey { s with tree } (({ s with tree }, es') :: (s, es) :: t) d' := by
  obtain ⟨d', hs⟩ := Tree.step_cases hI.good he
  have hle := hs.le hI.good
  have hsub : (s, es) :: t ⊆ ({ s with tree }, es') :: (s, es) :: t := List.subset_cons_self _ _
  refine ⟨d', hs.good hI.good hv, hI.pc.mono hle hsub, ?_, hI.searching,
    fun k v hk => (hI.ret k v hk).imp_right (.mono hsub), hI.covered⟩
  -- the client of the query goes on with its search, or is the same
  have hsame : tree.clients c = s.tree.clients c →
      ClientOk fromKey toKey (tree.clients c) d' (({ s with tree }, es') :: (s, es) :: t) s.searching := by
    intro hc
    rw [hc]
    exact hI.client.mono hle hsub
  cases hs with
  | @invoke c' =>
    exact hsame (Function.update_of_ne (fun he => by simp [callOf, he] at hcall) ..)
  | @ret c' =>
    exact hsame (Function.update_of_ne (fun he => by simp [callOf, he] at hcall) ..)
  | @move c' ch cl cl' g' hc hm =>
    rcases eq_or_ne c c' with rfl | hne
    · have hclient := hI.client
      cases hsearching : s.searching with
      | none =>
        rw [hsearching, ClientOk, hc] at hclient
        cases hclient
      | some k =>
        rw [hsearching] at hclient
        obtain ⟨hrange, hsearch⟩ := hclient
        have hunder := hI.searching (by rw [hsearching]; rfl)
        have hmoved := hsearch.move h3 hI.good hunder hc hm
        have hok : ClientOk fromKey toKey (some cl') g'.dir ((s, es) :: t) (some k) := ⟨hrange, hmoved⟩
        simp only [Function.update_self]
        exact hok.mono (.refl _) (List.subset_cons_self _ _)
    · exact hsame (Function.update_of_ne hne ..)

/-- **A read** of a segment, as the leaf is now. -/
theorem Inv.read (hI : Inv c fromKey toKey s ((s, es) :: t) d) {round i j : Nat} {keys : List Nat}
    {info : List (List (ReadSegment × Option (Cell L)))} (hpc : s.pc = .reading round keys info)
    {segs : List (ReadSegment × Option (Cell L))} (hi : info[i]? = some segs) {seg : ReadSegment}
    (hj : segs[j]? = some (seg, none))
    (hs' : s' = { s with
      pc := .reading round keys (info.set i (segs.set j (seg, some (s.tree.store.read seg.leafAddr)))) }) :
    Inv c fromKey toKey s' ((s', es') :: (s, es) :: t) d := by
  have hsub : (s, es) :: t ⊆ (s', es') :: (s, es) :: t := List.subset_cons_self _ _
  have hunder : s.Underway := by
    rw [State.Underway, hpc]
    exact ⟨nofun, nofun⟩
  have hpcOk := hI.pc
  rw [hpc] at hpcOk
  obtain ⟨hkeys, hinfo⟩ := hpcOk
  have hsegs : segs ∈ info := List.mem_of_getElem? hi
  have hold : ∀ x ∈ segs, ReadOk d ((s, es) :: t) x := fun x hx => hinfo x (List.mem_flatten.2 ⟨segs, hsegs, hx⟩)
  -- the segment is one of a leaf
  obtain ⟨hseg, -⟩ := hold _ (List.mem_of_getElem? hj)
  have hread : ReadOk d ((s, es) :: t) (seg, some (s.tree.store.read seg.leafAddr)) := by
    obtain ⟨l, a, ha, hptr⟩ := hseg.leaf
    obtain ⟨h, lf, lock, hmem, -⟩ := hI.good.shared.leaf ha
    refine ⟨hseg, fun cell hcell => ⟨lf, lock, ?_, fun k v hst => ?_⟩⟩
    · cases hcell
      rw [hptr]
      exact hmem
    · exact .now hI.good hunder (.inl ⟨l, lf, ⟨a, ha, leafNode_eq.2 ⟨lock, hmem⟩⟩, hst⟩)
  subst hs'
  refine ⟨hI.good, ⟨hkeys, fun x hx => ReadOk.mono (.refl d) hsub ?_⟩, hI.client.mono (.refl d) hsub, fun h => ?_,
    fun k v hk => (hI.ret k v hk).imp_right (.mono hsub), fun k _ _ => .inl trivial⟩
  · obtain ⟨segs', hsegs', hx⟩ := List.mem_flatten.1 hx
    rcases List.mem_or_eq_of_mem_set hsegs' with hsegs' | rfl
    · exact hinfo x (List.mem_flatten.2 ⟨segs', hsegs', hx⟩)
    · rcases List.mem_or_eq_of_mem_set hx with hx | rfl
      · exact hold x hx
      · exact hread
  · exact ⟨nofun, nofun⟩

/-- **A search begins**. -/
theorem Inv.search (hI : Inv c fromKey toKey s ((s, es) :: t) d) (hidle : s.searching = none) {pc : Pc L}
    (he : search c s k pc = some (s', es')) (hk : fromKey ≤ k ∧ k < toKey) (hfrom : kKeyMin ≤ fromKey)
    (hto : toKey ≤ L.keyFull) (hpc : PcOk fromKey toKey d ((s, es) :: t) pc) (hunder : pc ≠ .start ∧ ∀ b, pc ≠ .done b)
    (hmissing : ∀ j, s.pc.missing j → pc.missing j ∨ j = k) :
    Inv c fromKey toKey s' ((s', es') :: (s, es) :: t) d := by
  have hsub : (s, es) :: t ⊆ (s', es') :: (s, es) :: t := List.subset_cons_self _ _
  obtain ⟨⟨tree, es₁⟩, hstep, heq⟩ := Option.map_eq_some_iff.1 he
  cases heq
  obtain ⟨d', hs⟩ := Tree.step_cases hI.good hstep
  have hvalid : ValidKeys s.tree (.invoke c .search k) := ⟨hfrom.trans hk.1, hk.2.trans_le hto⟩
  have hgood := hs.good hI.good hvalid
  cases hs with
  | invoke hc =>
    refine ⟨hgood, hpc.mono (.refl d) hsub, ⟨hk, _, _, Function.update_self .., rfl, rfl, .pending rfl fun _ => trivial,
      fun v hv => by cases hv⟩, fun _ => hunder, fun j v hj => (hI.ret j v hj).imp_right (.mono hsub),
      fun j hj hj' => ?_⟩
    rcases hI.covered j hj hj' with h | h | h
    · exact (hmissing j h).imp_right fun h => .inl (congrArg some h.symm)
    · cases hidle.symm.trans h
    · exact .inr (.inr h)

/-- **A search returns**. -/
theorem Inv.searched (hI : Inv c fromKey toKey s ((s, es) :: t) d) (hsearching : s.searching = some k)
    (he : searched c s k = some (s', es')) : Inv c fromKey toKey s' ((s', es') :: (s, es) :: t) d := by
  have hsub : (s, es) :: t ⊆ (s', es') :: (s, es) :: t := List.subset_cons_self _ _
  have hclient := hI.client
  rw [hsearching] at hclient
  obtain ⟨hrange, cl, phase, hc, hr, rfl, hp, hmoment⟩ := hclient
  rw [Query.searched, hc, Option.map_some] at he
  split at he
  · rename_i v hv
    obtain ⟨⟨tree, es₁⟩, hstep, heq⟩ := Option.map_eq_some_iff.1 he
    cases heq
    rw [Option.some.injEq] at hv
    obtain ⟨d', hs⟩ := Tree.step_cases hI.good hstep
    have hvalid : ValidKeys s.tree (.ret c) := trivial
    have hgood := hs.good hI.good hvalid
    cases hs with
    | ret hc' =>
      have hnow : Moment ((s, es) :: t) cl.key v := by
        rw [hv] at hp
        cases hp with
        | pending hu => cases hu
        | written hr' => exact absurd rfl hr'
        | done => exact hmoment v rfl
      refine ⟨hgood, hI.pc.mono (.refl d) hsub, Function.update_self .., fun h => (by cases h), fun j w hj => ?_,
        fun j hj hj' => ?_⟩
      · rcases eq_or_ne j cl.key with rfl | hne
        · simp only [Function.update_self] at hj
          cases hj
          exact ⟨hrange, hnow.mono hsub⟩
        · simp only [Function.update_of_ne hne] at hj
          exact (hI.ret j w hj).imp_right (.mono hsub)
      · rcases hI.covered j hj hj' with h | h | h
        · exact .inl h
        · cases hsearching.symm.trans h
          exact .inr (.inr (isSome_update (.inl rfl)))
        · exact .inr (.inr (isSome_update (.inr h)))
  · cases he

/-- **A step of the query** itself. -/
theorem Inv.next (h3 : 3 ≤ L.internalSpanSize) (hfrom : kKeyMin ≤ fromKey) (hto : toKey ≤ L.keyFull)
    (hI : Inv c fromKey toKey s ((s, es) :: t) d) (hidle : s.searching = none) {treeCache : TreeCache}
    (hold : treeCache.Holds s.tree.store.cached) (he : next o c fromKey toKey s treeCache = some (s', es')) :
    Inv c fromKey toKey s' ((s', es') :: (s, es) :: t) d := by
  have hsub : (s, es) :: t ⊆ (s', es') :: (s, es) :: t := List.subset_cons_self _ _
  have hq : QueryOk ⟨s.tree.store, d⟩ fromKey toKey ⟨s.tree.store, treeCache, fun _ => none⟩ :=
    ⟨rfl, hI.good.shared, hold, fun k v hk => by cases hk⟩
  have hrange : InRange fromKey toKey (List.range' fromKey (toKey - fromKey)) := fun k => mem_queryKeys.1
  -- a step without a search
  have hgo : ∀ {pc : Pc L} {ret : Nat → Option Nat}, s' = { s with pc, ret } → PcOk fromKey toKey d ((s, es) :: t) pc →
      (∀ k v, ret k = some v → (fromKey ≤ k ∧ k < toKey) ∧ Moment ((s, es) :: t) k v) →
      (∀ k, fromKey ≤ k → k < toKey → pc.missing k ∨ (ret k).isSome = true) →
      Inv c fromKey toKey s' ((s', es') :: (s, es) :: t) d := by
    rintro pc ret rfl hpc hret hcovered
    refine ⟨hI.good, hpc.mono (.refl d) hsub, hI.client.mono (.refl d) hsub, fun h => ?_,
      fun k v hk => (hret k v hk).imp_right (.mono hsub), fun k hk hk' => (hcovered k hk hk').imp_right .inr⟩
    rw [hidle] at h
    cases h
  have hcovered : ∀ k, fromKey ≤ k → k < toKey → s.pc.missing k ∨ (s.ret k).isSome = true := by
    intro k hk hk'
    rcases hI.covered k hk hk' with h | h | h
    · exact .inl h
    · cases hidle.symm.trans h
    · exact .inr h
  have hpcOk := hI.pc
  rw [Query.next] at he
  split at he
  · split at he
    · cases he
      exact hgo rfl hrange hI.ret fun k hk hk' => .inl (mem_queryKeys.2 ⟨hk, hk'⟩)
    · cases he
      obtain ⟨hkeys, hinfo⟩ := hq.firstReads h3 o rfl
      exact hgo rfl ⟨fun k hk => (hkeys k hk).2, readOk_unread hinfo⟩ hI.ret fun _ _ _ => .inl trivial
  · rename_i hpc
    rw [hpc] at hpcOk
    obtain ⟨⟨ret, info⟩, hparse, heq⟩ := Option.map_eq_some_iff.1 he
    cases heq
    obtain ⟨hret, hinfo⟩ := parseLeaves_moment hpcOk.2 hI.ret hparse
    exact hgo rfl ⟨hpcOk.1, List.forall_mem_nil _, hinfo⟩ hret fun _ _ _ => .inl trivial
  · rename_i hpc
    rw [hpc] at hpcOk
    cases he
    obtain ⟨-, hleaves, hinfo⟩ := hpcOk
    refine hgo rfl ?_ hI.ret fun k hk hk' => .inl ?_
    · split
      · exact hrange
      · exact ⟨List.forall_mem_nil _, readOk_unread (nextInfo_ok (g := ⟨s.tree.store, d⟩) hinfo hleaves)⟩
    · split
      · exact mem_queryKeys.2 ⟨hk, hk'⟩
      · trivial
  · rename_i hpc
    rw [hpc] at hpcOk
    obtain ⟨hkeys, hleaves, hinfo⟩ := hpcOk
    obtain ⟨hk, hrest⟩ := List.forall_mem_cons.1 hkeys
    split at he
    · cases he
      exact hgo rfl ⟨hrest, hleaves, hinfo⟩ hI.ret fun _ _ _ => .inl trivial
    · split at he
      · exact hI.search hidle he hk hfrom hto ⟨hrest, hleaves, hinfo⟩ ⟨nofun, nofun⟩ fun _ _ => .inl trivial
      · rename_i hf
        cases he
        have hleaf := hq.cached_leaf h3 hf
        exact hgo rfl ⟨hrest, hleaves.assign hleaf _, hinfo⟩ hI.ret fun _ _ _ => .inl trivial
  · rename_i hpc
    cases he
    rw [hpc] at hcovered
    exact hgo rfl trivial hI.ret fun k hk hk' => .inr ((hcovered k hk hk').resolve_left List.not_mem_nil)
  · rename_i k ks cached hpc
    rw [hpc] at hpcOk hcovered
    obtain ⟨hk, hrest⟩ := List.forall_mem_cons.1 hpcOk
    split at he
    · rename_i hin
      cases he
      refine hgo rfl hrest hI.ret fun j hj hj' => ?_
      rcases hcovered j hj hj' with h | h
      · rcases List.mem_cons.1 h with rfl | h
        · exact .inr hin.2
        · exact .inl h
      · exact .inr h
    · refine hI.search hidle he hk hfrom hto hrest ⟨nofun, nofun⟩ fun j hj => ?_
      rw [hpc] at hj
      exact (List.mem_cons.1 hj).symm
  · cases he

/-- **A step** of the query or of a client. -/
theorem Inv.step (h3 : 3 ≤ L.internalSpanSize) (hfrom : kKeyMin ≤ fromKey) (hto : toKey ≤ L.keyFull)
    (hI : Inv c fromKey toKey s ((s, es) :: t) d) {a : Action L} (hg : Guard s a)
    (he : step o c fromKey toKey s a = some (s', es')) :
    ∃ d', Inv c fromKey toKey s' ((s', es') :: (s, es) :: t) d' := by
  cases a with
  | tree a =>
    rw [Query.step] at he
    split at he
    · cases he
    · rename_i hcall
      obtain ⟨⟨tree, es₁⟩, hstep, heq⟩ := Option.map_eq_some_iff.1 he
      cases heq
      exact hI.tree h3 hg (Bool.not_eq_true _ ▸ hcall) hstep
  | read i j =>
    simp only [Query.step] at he
    split at he
    · split at he
      · split at he
        · cases he
          exact ⟨d, hI.read ‹_› ‹_› ‹_› rfl⟩
        · cases he
      · cases he
    · cases he
  | next treeCache =>
    simp only [Query.step] at he
    split at he
    · exact ⟨d, hI.searched ‹_› he⟩
    · exact ⟨d, hI.next h3 hfrom hto ‹_› hg he⟩

/-- `Guard`, as a check, for the cache with the copy of the root. -/
def guardChecked (s : State .small) : Query.Action .small → Bool
  | .tree a => keysChecked s.tree a
  | .next treeCache => treeCache = cacheBefore ∧ rootBefore ∈ s.tree.store.cached
  | .read _ _ => true

/-- The events of a trace that ends with a query, and what it returns for some keys. -/
def returned (ks : List Nat) : List (State L × List Event) → Option (List Event × List (Option Nat))
  | [] => none
  | (s, es) :: t =>
    match s.pc with
    | .done _ => some (((s, es) :: t).flatMap Prod.snd, ks.map s.ret)
    | _ => none

end Query
end Chime

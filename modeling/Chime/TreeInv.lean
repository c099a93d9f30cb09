import Chime.LeafRange
import Chime.Tree
import Chime.Lib.Clients

/-!
# The invariant of the tree

The shared state is taken together with the directory of its nodes (`Charted`). `TreeOk` says that every node of the
directory is what the directory says; a node that is allocated but not yet linked is not in the directory. `ClientOk`
says, for every place where a client can stand, what its locals have to do with the directory and with the nodes it has
locked: pointers lead to nodes that begin at or before the key that is carried. A client owns the nodes it has locked
or allocated, the separator it carries to the parents, and the root entry while it grows the tree (`TreePc.owned`); the
rest of the invariant of a client survives what others do (`ClientOk.rely`).
-/

namespace Chime

open Boundary (Next Extends Below)
open Records

variable {L : Layout}

/-- The shared state and the directory of its nodes. -/
structure Charted (L : Layout) where
  store : Store L
  dir : Directory

variable [Arithmetic]

/-- A node of level `m` that begins at `l`. -/
inductive CellOk (L : Layout) (d : Directory) : Nat → Nat → Cell L → Prop
  | leaf {l h : Nat} {lf : LeafNode L} {lock : Option (Valock L)} : LeafOk L (d 0) l h lf →
      (∀ w, lock = some w → LockTells w lf.records) → CellOk L d 0 l (.leaf lf lock)
  | internal {m l : Nat} {nd : InternalNode} {locked : Bool} : InternalOk L d m l nd →
    CellOk L d m l (.internal nd locked)

/-- The shared invariant. -/
structure TreeOk (g : Charted L) : Prop where
  range : ∀ {m k a}, g.dir m k = some a → 1 ≤ k ∧ k < L.keyFull
  allocated : ∀ {m k a}, g.dir m k = some a → a < g.store.next
  cells : ∀ {m k a}, g.dir m k = some a → CellOk L g.dir m k (g.store.mem a)
  below_root : ∀ {m k a}, g.dir m k = some a → m < g.store.root.level
  root_pos : 1 ≤ g.store.root.level
  root : Points (g.dir (g.store.root.level - 1)) 1 g.store.root.ptr
  /-- below the root, every level has a boundary after the first -/
  grown : ∀ {m}, m + 1 < g.store.root.level → ∃ k a, 1 < k ∧ g.dir m k = some a
  cached : ∀ nd ∈ g.store.cached, Routes L g.dir nd

theorem CellOk.leaf_iff {d : Directory} {m l : Nat} {lf : LeafNode L} {lock : Option (Valock L)} :
    CellOk L d m l (.leaf lf lock) ↔
      m = 0 ∧ (∃ h, LeafOk L (d 0) l h lf) ∧ ∀ w, lock = some w → LockTells w lf.records := by
  constructor
  · rintro ⟨hok, ht⟩
    exact ⟨rfl, ⟨_, hok⟩, ht⟩
  · rintro ⟨rfl, ⟨h, hok⟩, ht⟩
    exact .leaf hok ht

theorem CellOk.internal_iff {d : Directory} {m l : Nat} {nd : InternalNode} {locked : Bool} :
    CellOk L d m l (.internal nd locked) ↔ InternalOk L d m l nd :=
  ⟨fun h => by cases h; assumption, .internal⟩

namespace TreeOk

variable {g : Charted L} {m m' k l l' a b : Nat}

theorem below (hg : TreeOk g) (m : Nat) : Below (g.dir m) L.keyFull := fun _ _ h => (hg.range h).2

/-- At level 0 there are leaves. -/
theorem leaf (hg : TreeOk g) (ha : g.dir 0 l = some a) : ∃ h lf lock, g.store.mem a = .leaf lf lock ∧
    LeafOk L (g.dir 0) l h lf ∧ ∀ w, lock = some w → LockTells w lf.records := by
  have hc := hg.cells ha
  generalize g.store.mem a = cell at hc
  cases hc with
  | leaf hok ht => exact ⟨_, _, _, rfl, hok, ht⟩
  | internal hok =>
    have := hok.routes.level_pos
    have := hok.level
    omega

/-- Above level 0 there are internal nodes. -/
theorem internal (hg : TreeOk g) (hm : 1 ≤ m) (ha : g.dir m l = some a) :
    ∃ nd locked, g.store.mem a = .internal nd locked ∧ InternalOk L g.dir m l nd := by
  have hc := hg.cells ha
  generalize g.store.mem a = cell at hc
  cases hc with
  | leaf hok ht => omega
  | internal hok => exact ⟨_, _, rfl, hok⟩

theorem next (hg : TreeOk g) (ha : g.dir m l = some a) : ∃ h, Next (g.dir m) L.keyFull l h := by
  have hc := hg.cells ha
  generalize g.store.mem a = cell at hc
  cases hc with
  | leaf hok ht => exact ⟨_, hok.next⟩
  | internal hok => exact ⟨_, hok.next⟩

/-- **A node begins at one boundary.** -/
theorem inj (hg : TreeOk g) (ha : g.dir m l = some a) (ha' : g.dir m' l' = some a) : m = m' ∧ l = l' := by
  have hc := hg.cells ha
  have hc' := hg.cells ha'
  generalize g.store.mem a = cell at hc hc'
  cases hc with
  | leaf hok ht =>
    obtain ⟨rfl, ⟨h', hok'⟩, -⟩ := CellOk.leaf_iff.1 hc'
    obtain ⟨j, hj, -⟩ := hok.last
    obtain ⟨h1, h2⟩ := hok.range j hj
    obtain ⟨h3, h4⟩ := hok'.range j hj
    exact ⟨rfl, hok.next.disjoint hok'.next ha ha' h1 h2 h3 h4⟩
  | internal hok =>
    have hok' := CellOk.internal_iff.1 hc'
    exact ⟨hok.level.symm.trans hok'.level, hok.lowest.symm.trans hok'.lowest⟩

theorem inj_level (hg : TreeOk g) (m : Nat) : ∀ l l' a, g.dir m l = some a → g.dir m l' = some a → l = l' :=
  fun _ _ _ h h' => (hg.inj h h').2

/-- A boundary is a boundary of the level below. -/
theorem nested (hg : TreeOk g) (ha : g.dir (m + 1) k = some a) : ∃ b, g.dir m k = some b := by
  obtain ⟨nd, locked, -, hok⟩ := hg.internal (Nat.le_add_left 1 m) ha
  obtain ⟨b, hb, -⟩ := hok.routes.leftmost
  rw [hok.level, hok.lowest] at hb
  exact ⟨b, hb⟩

theorem nested_le (hg : TreeOk g) (hm : m' ≤ m) : ∀ {a}, g.dir m k = some a → ∃ b, g.dir m' k = some b := by
  induction m, hm using Nat.le_induction with
  | base => exact fun h => ⟨_, h⟩
  | succ m _ ih =>
    intro a ha
    obtain ⟨b, hb⟩ := hg.nested ha
    exact ih hb

/-- A boundary of a higher level at or below a key of a range begins at or below the range. -/
theorem le_of_nested (hg : TreeOk g) (hm : m' ≤ m) (hl : g.dir m l = some a) {h : Nat}
    (hn : Next (g.dir m') L.keyFull l' h) (hk : l ≤ k) (hkh : k < h) : l ≤ l' := by
  obtain ⟨b, hb⟩ := hg.nested_le hm hl
  exact hn.le_of_mem hb hk hkh

end TreeOk

/-! ## What clients own -/

/-- What a client can own: a node, a separator on its way to a level, the root entry. -/
inductive Resource
  | addr (a : Nat)
  | sep (level key : Nat)
  | root
  deriving DecidableEq

/-- What a client owns where it stands. -/
def TreePc.owned : TreePc L → List Resource
  | .leafLocked a _ _ | .leafUnlock a _ _ | .leafWrite a _ => [.addr a]
  | .leafSplitSibling a new _ | .leafSplitWrite a new _ => [.addr a, .addr new]
  | .newRoot level _ splitKey _ => [.root, .sep (level + 1) splitKey]
  | .rootCas level _ root splitKey _ => [.root, .sep (level + 1) splitKey, .addr root]
  | .parent e | .readRoot e | .insertInternal e _ _ | .internal e _ _ => [.sep e.level e.key]
  | .internalLocked e a _ | .internalUnlock e a _ | .internalWrite e a _ => [.sep e.level e.key, .addr a]
  | .internalSplitSibling e a new _ | .internalSplitWrite e a new _ => [.sep e.level e.key, .addr a, .addr new]
  | .start | .visit _ | .leaf _ | .done _ | .crashed _ => []

def Cell.isLocked : Cell L → Bool
  | .leaf _ lock => lock.isNone
  | .internal _ locked => locked
  | .free => false

/-- The key is neither a boundary of the level nor a separator in a node of the level. -/
structure Fresh (g : Charted L) (m k : Nat) : Prop where
  one_lt : 1 < k
  boundary : g.dir m k = none
  record : ∀ {l a nd locked}, g.dir m l = some a → g.store.mem a = .internal nd locked → ∀ e ∈ nd.records, e.key ≠ k

/-- The node is allocated and not linked. -/
def Private (g : Charted L) (a : Nat) : Prop := a < g.store.next ∧ ∀ m l, g.dir m l ≠ some a

/-- What a client with the given resources relies on. -/
structure Rely (g g' : Charted L) (O : Resource → Prop) : Prop where
  dir : g.dir.Le g'.dir
  next : g.store.next ≤ g'.store.next
  mem : ∀ a, O (.addr a) → g'.store.mem a = g.store.mem a
  linked : ∀ a, O (.addr a) → ∀ m l, g'.dir m l = some a → g.dir m l = some a
  sep : ∀ m k, 1 ≤ m → O (.sep m k) → Fresh g m k → Fresh g' m k
  root : O .root → g'.store.root = g.store.root

/-! ## Where clients stand -/

/-- A separator on its way to its level: it begins a node below, and the level does not have it. -/
structure SepOk (g : Charted L) (e : Separator) : Prop where
  level_pos : 1 ≤ e.level
  key_lt : e.key < L.keyFull
  points : Points (g.dir (e.level - 1)) e.key e.ptr
  fresh : Fresh g e.level e.key

/-- The entries of `path_stack` from a level on lead to nodes that begin at or before `k`. -/
def PathOk (g : Charted L) (path : Nat → GlobalAddress) (k level : Nat) : Prop :=
  ∀ j, level ≤ j → path j ≠ .null → ∃ l ≤ k, Points (g.dir j) l (path j)

/-- At the label `next`: the node begins at or before `k`, its neighbor after it. -/
structure VisitOk (g : Charted L) (k : Nat) (p : Position) : Prop where
  level_pos : 1 ≤ p.level
  node : Held L (g.dir (p.level - 1)) k p.nodeAddr
  sibling : Neighbor L (g.dir (p.level - 1)) k p.siblingAddr

/-- At a leaf: the leaf begins before the neighbor, which begins after the key. An insert does not pass its key. -/
def LeafPos (g : Charted L) (cl : Client L) (p : Position) : Prop :=
  (p.nodeAddr = .null ∧ L.internalSpanSize < 3) ∨
  ∃ l h', Points (g.dir 0) l p.nodeAddr ∧ Target L (g.dir 0) h' p.siblingAddr ∧ l < h' ∧ cl.key < h' ∧
    (∀ v, cl.request = .insert v → l ≤ cl.key)

/-- The leaf `a` is locked; its lock word was `w`. -/
def LeafLocked (g : Charted L) (a : Nat) (w : Valock L) : Prop :=
  (∃ l, g.dir 0 l = some a) ∧ ∃ lf, g.store.mem a = .leaf lf none ∧ LockTells w lf.records

/-- The leaf `a` is locked, and the key of the client belongs to it. -/
structure AtLeaf (g : Charted L) (cl : Client L) (a : Nat) (lf : LeafNode L) : Prop where
  linked : ∃ l ≤ cl.key, g.dir 0 l = some a
  mem : g.store.mem a = .leaf lf none
  routed : Routed lf cl.key

/-- The internal node `a` is locked, and the separator does not start before it. -/
structure AtInternal (g : Charted L) (e : Separator) (a : Nat) (nd : InternalNode) : Prop where
  linked : ∃ l ≤ e.key, g.dir e.level l = some a
  mem : g.store.mem a = .internal nd true

/-- The assertions that a client can fail, as far as this invariant tells. -/
def Assertion.tolerated : Assertion → Bool
  | .noEmpty | .hopFails | .keyMissing | .levelOne | .parentNull => true
  | _ => false

/-- What holds of a client by its place. -/
def PcOk (g : Charted L) (cl : Client L) : TreePc L → Prop
  | .start => PathOk g cl.path cl.key 0
  | .visit p => PathOk g cl.path cl.key 0 ∧ VisitOk g cl.key p
  | .leaf p => PathOk g cl.path cl.key 0 ∧ LeafPos g cl p
  | .leafLocked a p w => PathOk g cl.path cl.key 0 ∧ LeafPos g cl p ∧ p.nodeAddr = .at a ∧ LeafLocked g a w ∧
      cl.request ≠ .search
  | .leafUnlock a w next => PathOk g cl.path cl.key 0 ∧ LeafLocked g a w ∧ ∀ p, next = some p → LeafPos g cl p
  | .leafWrite a w => ∃ lf r', AtLeaf g cl a lf ∧ Upserted lf.records cl.key cl.request.value r' ∧
      w.apply lf = { lf with records := r' } ∧ LockTells w.lock r' ∧
      (∀ v, cl.request = .update v → r'.keys = lf.records.keys)
  | .leafSplitSibling a new x => PathOk g cl.path cl.key 0 ∧ Private g new ∧ (∃ v, cl.request = .insert v) ∧
      ∃ lf, AtLeaf g cl a lf ∧ SplitOf lf cl.key cl.request.value (.at new) x
  | .leafSplitWrite a new x => PathOk g cl.path cl.key 0 ∧ Private g new ∧ (∃ v, cl.request = .insert v) ∧
      (∃ lf, AtLeaf g cl a lf ∧ SplitOf lf cl.key cl.request.value (.at new) x) ∧
      g.store.mem new = .leaf x.right (some x.rightLock)
  | .newRoot level a splitKey sibling => SepOk g ⟨level + 1, splitKey, .at sibling⟩ ∧ g.dir level 1 = some a ∧
      g.store.root = ⟨level + 1, .at a⟩
  | .rootCas level a root splitKey sibling => SepOk g ⟨level + 1, splitKey, .at sibling⟩ ∧ g.dir level 1 = some a ∧
      g.store.root = ⟨level + 1, .at a⟩ ∧ Private g root ∧
      g.store.mem root = .internal (InternalNode.newRoot L level (.at a) splitKey (.at sibling)) false
  | .parent e | .readRoot e => SepOk g e ∧ PathOk g cl.path e.key e.level
  | .insertInternal e level nodeAddr => SepOk g e ∧ PathOk g cl.path e.key e.level ∧ 1 ≤ level ∧
      Held L (g.dir (level - 1)) e.key nodeAddr
  | .internal e nodeAddr _ => SepOk g e ∧ PathOk g cl.path e.key e.level ∧ Held L (g.dir e.level) e.key nodeAddr
  | .internalLocked e a _ => SepOk g e ∧ PathOk g cl.path e.key e.level ∧ ∃ nd, AtInternal g e a nd
  | .internalUnlock e a next => SepOk g e ∧ PathOk g cl.path e.key e.level ∧ (∃ nd, AtInternal g e a nd) ∧
      ∀ p, next = some p → Held L (g.dir e.level) e.key p
  | .internalWrite e a nd' => SepOk g e ∧ ∃ nd, AtInternal g e a nd ∧ e.key < nd.highest ∧
      nd' = { nd with records := shiftAndInsert nd.records e.key e.ptr }
  | .internalSplitSibling e a new x => SepOk g e ∧ PathOk g cl.path e.key e.level ∧ Private g new ∧
      ∃ nd, AtInternal g e a nd ∧ e.key < nd.highest ∧ SplitNodes L g.dir nd e.key (.at new) x
  | .internalSplitWrite e a new x => SepOk g e ∧ PathOk g cl.path e.key e.level ∧ Private g new ∧
      (∃ nd, AtInternal g e a nd ∧ e.key < nd.highest ∧ SplitNodes L g.dir nd e.key (.at new) x) ∧
      g.store.mem new = .internal x.right false
  | .done _ => True
  | .crashed a => a.tolerated = true

/-- The invariant of a client. -/
structure ClientOk (g : Charted L) (cl : Client L) : Prop where
  key_pos : 1 ≤ cl.key
  key_lt : cl.key < L.keyFull
  pc : PcOk g cl cl.pc

/-! ## Stability -/

section Stability

variable {g g' : Charted L} {O : Resource → Prop} {cl : Client L}

omit [Arithmetic] in
theorem SepOk.rely {e : Separator} (h : SepOk g e) (hr : Rely g g' O) (ho : O (.sep e.level e.key)) : SepOk g' e :=
  ⟨h.level_pos, h.key_lt, h.points.mono (hr.dir _), hr.sep _ _ h.level_pos ho h.fresh⟩

omit [Arithmetic] in
theorem PathOk.mono {path : Nat → GlobalAddress} {k level : Nat} (h : PathOk g path k level) (hd : g.dir.Le g'.dir) :
    PathOk g' path k level := fun j hj hne =>
  let ⟨l, hl, hp⟩ := h j hj hne
  ⟨l, hl, hp.mono (hd j)⟩

omit [Arithmetic] in
theorem VisitOk.mono {k : Nat} {p : Position} (h : VisitOk g k p) (hd : g.dir.Le g'.dir) : VisitOk g' k p :=
  ⟨h.level_pos, h.node.mono (hd _), h.sibling.mono (hd _)⟩

omit [Arithmetic] in
theorem LeafPos.mono {p : Position} (h : LeafPos g cl p) (hd : g.dir.Le g'.dir) : LeafPos g' cl p :=
  h.imp_right fun ⟨l, h', hp, ht, hlt⟩ => ⟨l, h', hp.mono (hd 0), ht.mono (hd 0), hlt⟩

omit [Arithmetic] in
theorem Private.rely {a : Nat} (h : Private g a) (hr : Rely g g' O) (ho : O (.addr a)) : Private g' a :=
  ⟨Nat.lt_of_lt_of_le h.1 hr.next, fun m l hl => h.2 m l (hr.linked a ho m l hl)⟩

theorem LeafLocked.rely {a : Nat} {w : Valock L} (h : LeafLocked g a w) (hr : Rely g g' O) (ho : O (.addr a)) :
    LeafLocked g' a w := by
  obtain ⟨⟨l, hl⟩, lf, hm, ht⟩ := h
  exact ⟨⟨l, hr.dir _ _ _ hl⟩, lf, (hr.mem a ho).trans hm, ht⟩

omit [Arithmetic] in
theorem AtLeaf.rely {a : Nat} {lf : LeafNode L} (h : AtLeaf g cl a lf) (hr : Rely g g' O) (ho : O (.addr a)) :
    AtLeaf g' cl a lf := by
  obtain ⟨l, hl, ha⟩ := h.linked
  exact ⟨⟨l, hl, hr.dir _ _ _ ha⟩, (hr.mem a ho).trans h.mem, h.routed⟩

omit [Arithmetic] in
theorem AtInternal.rely {e : Separator} {a : Nat} {nd : InternalNode} (h : AtInternal g e a nd) (hr : Rely g g' O)
    (ho : O (.addr a)) : AtInternal g' e a nd := by
  obtain ⟨l, hl, ha⟩ := h.linked
  exact ⟨⟨l, hl, hr.dir _ _ _ ha⟩, (hr.mem a ho).trans h.mem⟩

omit [Arithmetic] in
theorem SplitNodes.mono {d d' : Directory} (hd : d.Le d') {nd : InternalNode} {k : Nat} {g : GlobalAddress}
    {x : InternalSplit} (h : SplitNodes L d nd k g x) : SplitNodes L d' nd k g x :=
  ⟨h.isRoot, h.splitKey, h.left.mono hd, h.right.mono hd, h.left_eq, h.right_eq, h.keys, h.kept⟩

/-- **The invariant of a client** survives what the others do. -/
theorem ClientOk.rely (h : ClientOk g cl) (hr : Rely g g' (· ∈ cl.pc.owned)) : ClientOk g' cl := by
  obtain ⟨hk, hkf, hpc⟩ := h
  refine ⟨hk, hkf, ?_⟩
  revert hpc hr
  cases cl.pc with
  | start => exact fun hr h => h.mono hr.dir
  | visit p => exact fun hr ⟨hp, hv⟩ => ⟨hp.mono hr.dir, hv.mono hr.dir⟩
  | leaf p => exact fun hr ⟨hp, hv⟩ => ⟨hp.mono hr.dir, hv.mono hr.dir⟩
  | leafLocked a p w =>
    exact fun hr ⟨hp, hv, ha, hl, hs⟩ => ⟨hp.mono hr.dir, hv.mono hr.dir, ha, hl.rely hr (by simp [TreePc.owned]), hs⟩
  | leafUnlock a w next =>
    exact fun hr ⟨hp, hl, hn⟩ =>
      ⟨hp.mono hr.dir, hl.rely hr (by simp [TreePc.owned]), fun p hp => (hn p hp).mono hr.dir⟩
  | leafWrite a w =>
    exact fun hr ⟨lf, r', hl, hu⟩ => ⟨lf, r', hl.rely hr (by simp [TreePc.owned]), hu⟩
  | leafSplitSibling a new x =>
    exact fun hr ⟨hp, hn, hv, lf, hl, hx⟩ => ⟨hp.mono hr.dir, hn.rely hr (by simp [TreePc.owned]), hv, lf,
      hl.rely hr (by simp [TreePc.owned]), hx⟩
  | leafSplitWrite a new x =>
    exact fun hr ⟨hp, hn, hv, ⟨lf, hl, hx⟩, hm⟩ => ⟨hp.mono hr.dir, hn.rely hr (by simp [TreePc.owned]), hv,
      ⟨lf, hl.rely hr (by simp [TreePc.owned]), hx⟩, (hr.mem new (by simp [TreePc.owned])).trans hm⟩
  | newRoot level a k sib =>
    exact fun hr ⟨hs, ha, hroot⟩ => ⟨hs.rely hr (by simp [TreePc.owned]), hr.dir _ _ _ ha,
      (hr.root (by simp [TreePc.owned])).trans hroot⟩
  | rootCas level a root k sib =>
    exact fun hr ⟨hs, ha, hroot, hn, hm⟩ => ⟨hs.rely hr (by simp [TreePc.owned]), hr.dir _ _ _ ha,
      (hr.root (by simp [TreePc.owned])).trans hroot, hn.rely hr (by simp [TreePc.owned]),
      (hr.mem root (by simp [TreePc.owned])).trans hm⟩
  | parent e => exact fun hr ⟨hs, hp⟩ => ⟨hs.rely hr (by simp [TreePc.owned]), hp.mono hr.dir⟩
  | readRoot e => exact fun hr ⟨hs, hp⟩ => ⟨hs.rely hr (by simp [TreePc.owned]), hp.mono hr.dir⟩
  | insertInternal e level p =>
    exact fun hr ⟨hs, hp, hl, hn⟩ => ⟨hs.rely hr (by simp [TreePc.owned]), hp.mono hr.dir, hl, hn.mono (hr.dir _)⟩
  | internal e p fc =>
    exact fun hr ⟨hs, hp, hn⟩ => ⟨hs.rely hr (by simp [TreePc.owned]), hp.mono hr.dir, hn.mono (hr.dir _)⟩
  | internalLocked e a fc =>
    exact fun hr ⟨hs, hp, nd, hl⟩ => ⟨hs.rely hr (by simp [TreePc.owned]), hp.mono hr.dir, nd,
      hl.rely hr (by simp [TreePc.owned])⟩
  | internalUnlock e a next =>
    exact fun hr ⟨hs, hp, ⟨nd, hl⟩, hn⟩ => ⟨hs.rely hr (by simp [TreePc.owned]), hp.mono hr.dir,
      ⟨nd, hl.rely hr (by simp [TreePc.owned])⟩, fun p hp => (hn p hp).mono (hr.dir _)⟩
  | internalWrite e a nd' =>
    exact fun hr ⟨hs, nd, hl, hn⟩ => ⟨hs.rely hr (by simp [TreePc.owned]), nd, hl.rely hr (by simp [TreePc.owned]), hn⟩
  | internalSplitSibling e a new x =>
    exact fun hr ⟨hs, hp, hn, nd, hl, hk, hx⟩ => ⟨hs.rely hr (by simp [TreePc.owned]), hp.mono hr.dir,
      hn.rely hr (by simp [TreePc.owned]), nd, hl.rely hr (by simp [TreePc.owned]), hk, hx.mono hr.dir⟩
  | internalSplitWrite e a new x =>
    exact fun hr ⟨hs, hp, hn, ⟨nd, hl, hk, hx⟩, hm⟩ => ⟨hs.rely hr (by simp [TreePc.owned]), hp.mono hr.dir,
      hn.rely hr (by simp [TreePc.owned]), ⟨nd, hl.rely hr (by simp [TreePc.owned]), hk, hx.mono hr.dir⟩,
      (hr.mem new (by simp [TreePc.owned])).trans hm⟩
  | done v => exact fun _ h => h
  | crashed a => exact fun _ h => h

end Stability

end Chime

import Chime.InternalNode
import Chime.Lib.Boundary

/-!
# Routing by internal nodes

A directory tells, for every level, which node begins at which boundary; the nodes of level 0 are the leaves. `Routes`
says that the pointers of an internal node agree with the directory. The child that a covered key is routed to begins at
or before the key, and its neighbor begins after it (`Routes.childPtr`). An insert and a split keep `Routes`
(`Routes.insert`, `Routes.split`).
-/

namespace Chime

open Boundary (Next Extends)

variable {L : Layout}

/-- For every level, the addresses of the nodes by the boundaries where they begin. -/
abbrev Directory := Nat → Nat → Option Nat

/-- Begin the node `a` at the boundary `k` of level `m`. -/
def Directory.insert (d : Directory) (m k a : Nat) : Directory := Function.update d m (Function.update (d m) k (some a))

/-- `d'` has the nodes of `d`, and perhaps more. -/
def Directory.Le (d d' : Directory) : Prop := ∀ m, Extends (d m) (d' m)

/-- The pointer to the node that begins at `l`. -/
def Points (d : Nat → Option Nat) (l : Nat) (g : GlobalAddress) : Prop := ∃ a, d l = some a ∧ g = .at a

/-- The pointer to the node that begins at `h`; null at the upper end. -/
def Target (L : Layout) (d : Nat → Option Nat) (h : Nat) (g : GlobalAddress) : Prop :=
  (h = L.keyFull ∧ g = .null) ∨ Points d h g

/-- A pointer that an operation on `k` may follow. It can be null in layouts whose internal nodes can lose all
records. -/
def Held (L : Layout) (d : Nat → Option Nat) (k : Nat) (g : GlobalAddress) : Prop :=
  (∃ l ≤ k, Points d l g) ∨ (g = .null ∧ L.internalSpanSize < 3)

/-- The pointer to a node that begins after `k`. -/
def Neighbor (L : Layout) (d : Nat → Option Nat) (k : Nat) (g : GlobalAddress) : Prop := ∃ h, k < h ∧ Target L d h g

/-! ## Growing directories -/

namespace Directory

variable {d d' d'' : Directory} {m k a : Nat}

theorem Le.refl (d : Directory) : d.Le d := fun _ => .refl _

theorem Le.trans (h : d.Le d') (h' : d'.Le d'') : d.Le d'' := fun m k a hk => h' m k a (h m k a hk)

theorem insert_le (hk : d m k = none) : d.Le (d.insert m k a) := by
  intro j
  rw [insert]
  by_cases hj : j = m
  · subst hj
    rw [Function.update_self]
    exact .cut hk
  · rw [Function.update_of_ne hj]
    exact .refl _

@[simp] theorem insert_level : d.insert m k a m = Function.update (d m) k (some a) := Function.update_self ..

theorem insert_of_ne {j : Nat} (hj : j ≠ m) : d.insert m k a j = d j := Function.update_of_ne hj ..

/-- The nodes after an insert. -/
theorem insert_cases {j l b : Nat} (h : d.insert m k a j l = some b) : (j = m ∧ l = k ∧ b = a) ∨ d j l = some b := by
  by_cases hj : j = m
  · subst hj
    rw [insert_level] at h
    by_cases hl : l = k
    · subst hl
      rw [Function.update_self] at h
      exact .inl ⟨rfl, rfl, (Option.some.inj h).symm⟩
    · rw [Function.update_of_ne hl] at h
      exact .inr h
  · rw [insert_of_ne hj] at h
    exact .inr h

end Directory

section Mono

variable {d d' : Nat → Option Nat} {k h : Nat} {g : GlobalAddress}

theorem Points.mono (hd : Extends d d') : Points d h g → Points d' h g
  | ⟨a, ha, hg⟩ => ⟨a, hd h a ha, hg⟩

theorem Target.mono (hd : Extends d d') : Target L d h g → Target L d' h g := Or.imp_right (Points.mono hd)

theorem Held.mono (hd : Extends d d') : Held L d k g → Held L d' k g :=
  Or.imp_left fun ⟨l, hl, hp⟩ => ⟨l, hl, hp.mono hd⟩

theorem Neighbor.mono (hd : Extends d d') : Neighbor L d k g → Neighbor L d' k g
  | ⟨h, hk, ht⟩ => ⟨h, hk, ht.mono hd⟩

theorem neighbor_null (hk : k < L.keyFull) : Neighbor L d k .null := ⟨_, hk, .inl ⟨rfl, rfl⟩⟩

/-- A pointer into a level without nodes at the upper end determines where it points. -/
theorem Target.points (ht : Target L d h g) (hh : h ≠ L.keyFull) : Points d h g :=
  ht.elim (fun h => absurd h.1 hh) id

end Mono

section Targets

open Boundary (Below)

variable {d : Nat → Option Nat} {l h h' : Nat} {g g' : GlobalAddress}

theorem Target.eq (hb : Below d L.keyFull) (ht : Target L d h g) (ht' : Target L d h g') : g = g' := by
  rcases ht with ⟨rfl, rfl⟩ | ⟨a, ha, rfl⟩ <;> rcases ht' with ⟨hh, rfl⟩ | ⟨b, hb', rfl⟩
  · rfl
  · exact absurd (hb _ _ hb') (lt_irrefl _)
  · exact absurd (hb _ _ ha) (hh ▸ lt_irrefl _)
  · exact congrArg GlobalAddress.at (Option.some.inj (ha.symm.trans hb'))

/-- Different boundaries have different pointers. -/
theorem Target.unique (hinj : ∀ l l' a, d l = some a → d l' = some a → l = l') (ht : Target L d h g)
    (ht' : Target L d h' g) : h = h' := by
  rcases ht with ⟨rfl, rfl⟩ | ⟨a, ha, rfl⟩ <;> rcases ht' with ⟨hh, hg⟩ | ⟨b, hb', hg⟩
  · exact hh.symm
  · cases hg
  · cases hg
  · cases hg
    exact hinj h h' a ha hb'

theorem Target.le (hb : Below d L.keyFull) (ht : Target L d h g) : h ≤ L.keyFull := by
  rcases ht with ⟨rfl, -⟩ | ⟨a, ha, -⟩
  · exact le_rfl
  · exact (hb _ _ ha).le

/-- From a range whose end is not yet the target, the walk goes on at the next range, before the target. -/
theorem Target.walk (hb : Below d L.keyFull) (hn : Next d L.keyFull l h) (ht : Target L d h g) (ht' : Target L d h' g')
    (hl : l < h') (hg : g' ≠ g) : h < h' ∧ Points d h g := by
  have hle : h ≤ h' := by
    rcases ht' with ⟨rfl, -⟩ | ⟨a, ha, -⟩
    · exact hn.le_top hb
    · exact hn.le ha hl
  have hlt : h < h' := by
    refine lt_of_le_of_ne hle ?_
    rintro rfl
    exact hg (ht'.eq hb ht)
  exact ⟨hlt, ht.points (hlt.trans_le (ht'.le hb)).ne⟩

end Targets

/-! ## Nodes that route -/

/-- The node has a record with the key. -/
def InternalNode.Separates (nd : InternalNode) (k : Nat) : Prop := ∃ e ∈ nd.records, e.key = k

/-- The pointers of the node agree with the directory. -/
structure Routes (L : Layout) (d : Directory) (nd : InternalNode) : Prop where
  level_pos : 1 ≤ nd.level
  leftmost : Points (d (nd.level - 1)) nd.lowest nd.leftmostPtr
  records : ∀ e ∈ nd.records, Points (d (nd.level - 1)) e.key e.ptr ∧ nd.lowest < e.key ∧ e.key < nd.highest
  sorted : nd.records.Pairwise fun a b => a.key < b.key
  siblingLeftmost : Target L (d (nd.level - 1)) nd.highest nd.siblingLeftmostPtr
  nonempty : 3 ≤ L.internalSpanSize → nd.records ≠ []

/-- The node of level `m` that begins at `l`. -/
structure InternalOk (L : Layout) (d : Directory) (m l : Nat) (nd : InternalNode) : Prop where
  routes : Routes L d nd
  level : nd.level = m
  valid : nd.valid = true
  lowest : nd.lowest = l
  next : Next (d m) L.keyFull l nd.highest
  sibling : Target L (d m) nd.highest nd.siblingPtr

theorem Routes.mono {d d' : Directory} (hd : d.Le d') {nd : InternalNode} (h : Routes L d nd) : Routes L d' nd where
  level_pos := h.level_pos
  leftmost := h.leftmost.mono (hd _)
  records := fun e he => ⟨(h.records e he).1.mono (hd _), (h.records e he).2⟩
  sorted := h.sorted
  siblingLeftmost := h.siblingLeftmost.mono (hd _)
  nonempty := h.nonempty

theorem nextPtr_spec {d : Nat → Option Nat} {k : Nat} {sib : GlobalAddress} (hsib : Neighbor L d k sib)
    {es : List InternalEntry} : ∀ {ptr}, (∃ l ≤ k, Points d l ptr) → (∀ e ∈ es, Points d e.key e.ptr) →
    (∃ l ≤ k, Points d l (InternalNode.nextPtr sib k ptr es).1) ∧
      Neighbor L d k (InternalNode.nextPtr sib k ptr es).2 := by
  induction es with
  | nil => exact fun hptr _ => ⟨hptr, hsib⟩
  | cons e es ih =>
    intro ptr hptr hes
    have he := hes e List.mem_cons_self
    rw [InternalNode.nextPtr]
    split
    · exact ⟨hptr, e.key, ‹_›, .inr he⟩
    · exact ih ⟨e.key, by omega, he⟩ fun e' he' => hes e' (List.mem_cons_of_mem _ he')

/-- **Routing**: the child begins at or before the key, its neighbor after it. -/
theorem Routes.childPtr {d : Directory} {nd : InternalNode} (h : Routes L d nd) {k : Nat} (hl : nd.lowest ≤ k)
    (hh : k < nd.highest) : Held L (d (nd.level - 1)) k (nd.childPtr k).1 ∧
      Neighbor L (d (nd.level - 1)) k (nd.childPtr k).2 := by
  have hsib : Neighbor L (d (nd.level - 1)) k nd.siblingLeftmostPtr := ⟨_, hh, h.siblingLeftmost⟩
  have hne := h.nonempty
  have hrec := h.records
  rw [InternalNode.childPtr]
  cases hr : nd.records with
  | nil =>
    rw [hr] at hne
    exact ⟨.inr ⟨rfl, by by_contra hN; exact hne (by omega) rfl⟩, hsib⟩
  | cons e es =>
    rw [hr] at hrec
    have he := (hrec e List.mem_cons_self).1
    simp only
    split
    · exact ⟨.inl ⟨_, hl, h.leftmost⟩, e.key, ‹_›, .inr he⟩
    · obtain ⟨h1, h2⟩ := nextPtr_spec hsib ⟨e.key, by omega, he⟩
        fun e' he' => (hrec e' (List.mem_cons_of_mem _ he')).1
      exact ⟨.inl h1, h2⟩

theorem nextPtr_between {d : Nat → Option Nat} {k h : Nat} {sib : GlobalAddress} (hsib : Target L d h sib) (hk : k < h)
    {es : List InternalEntry} : ∀ {l : Nat} {ptr}, Points d l ptr → l ≤ k →
    (∀ e ∈ es, Points d e.key e.ptr ∧ l < e.key ∧ e.key < h) →
    es.Pairwise (fun a b => a.key < b.key) →
    ∃ l' h', Points d l' (InternalNode.nextPtr sib k ptr es).1 ∧ Target L d h' (InternalNode.nextPtr sib k ptr es).2 ∧
      l ≤ l' ∧ l' ≤ k ∧ k < h' ∧ h' ≤ h ∧ ∀ e ∈ es, e.key ≤ l' ∨ h' ≤ e.key := by
  induction es with
  | nil => exact fun hptr hl _ _ => ⟨_, _, hptr, hsib, le_rfl, hl, hk, le_rfl, nofun⟩
  | cons e es ih =>
    intro l ptr hptr hl hes hsort
    obtain ⟨hpe, hle, heh⟩ := hes e List.mem_cons_self
    obtain ⟨hmin, hsort⟩ := List.pairwise_cons.1 hsort
    have hrest : ∀ a ∈ es, Points d a.key a.ptr ∧ e.key < a.key ∧ a.key < h := fun a ha =>
      ⟨(hes a (List.mem_cons_of_mem _ ha)).1, hmin a ha, (hes a (List.mem_cons_of_mem _ ha)).2.2⟩
    rw [InternalNode.nextPtr]
    split
    · rename_i hlt
      refine ⟨l, e.key, hptr, .inr hpe, le_rfl, hl, hlt, heh.le, fun e' he' => .inr ?_⟩
      rcases List.mem_cons.1 he' with rfl | he'
      · exact le_rfl
      · exact (hmin e' he').le
    · rename_i hge
      obtain ⟨l', h', h1, h2, h3, h4, h5, h6, h7⟩ :=
        ih hpe (not_lt.1 hge) hrest hsort
      refine ⟨l', h', h1, h2, by omega, h4, h5, h6, fun e' he' => ?_⟩
      rcases List.mem_cons.1 he' with rfl | he'
      · exact .inl h3
      · exact h7 e' he'

/-- **Routing**, by the separators of the node: none of them is between the child and its neighbor. -/
theorem Routes.childPtr_between {d : Directory} {nd : InternalNode} (h : Routes L d nd) (h3 : 3 ≤ L.internalSpanSize)
    {k : Nat} (hl : nd.lowest ≤ k) (hh : k < nd.highest) : ∃ l' h', Points (d (nd.level - 1)) l' (nd.childPtr k).1 ∧
      Target L (d (nd.level - 1)) h' (nd.childPtr k).2 ∧ nd.lowest ≤ l' ∧ l' ≤ k ∧ k < h' ∧ h' ≤ nd.highest ∧
      ∀ j, nd.Separates j → j ≤ l' ∨ h' ≤ j := by
  have hne := h.nonempty h3
  have hrec := h.records
  have hsort := h.sorted
  simp only [InternalNode.Separates]
  rw [InternalNode.childPtr]
  cases hr : nd.records with
  | nil => exact absurd hr hne
  | cons e es =>
    rw [hr] at hrec hsort
    obtain ⟨hpe, hle, heh⟩ := hrec e List.mem_cons_self
    obtain ⟨hmin, hsort⟩ := List.pairwise_cons.1 hsort
    simp only
    split
    · rename_i hlt
      refine ⟨nd.lowest, e.key, h.leftmost, .inr hpe, le_rfl, hl, hlt, heh.le, ?_⟩
      rintro j ⟨e', he', rfl⟩
      rcases List.mem_cons.1 he' with rfl | he'
      · exact .inr le_rfl
      · exact .inr (hmin e' he').le
    · rename_i hge
      obtain ⟨l', h', h1, h2, h3, h4, h5, h6, h7⟩ := nextPtr_between h.siblingLeftmost hh hpe (not_lt.1 hge)
        (fun a ha => ⟨(hrec a (List.mem_cons_of_mem _ ha)).1, hmin a ha, (hrec a (List.mem_cons_of_mem _ ha)).2.2⟩) hsort
      refine ⟨l', h', h1, h2, by omega, h4, h5, h6, ?_⟩
      rintro j ⟨e', he', rfl⟩
      rcases List.mem_cons.1 he' with rfl | he'
      · exact .inl h3
      · exact h7 e' he'

/-- `internal_node_search` on a node that does not start above the key. -/
theorem internalNodeSearch_eq {nd : InternalNode} {k : Nat} (hl : nd.lowest ≤ k) (hv : nd.valid = true)
    (fromCache : Bool) :
    internalNodeSearch nd k fromCache =
      if fromCache = true ∧ k ≥ nd.highest then .ok .invalid
      else if k ≥ nd.highest then .ok (.turnRight nd.siblingPtr)
      else .ok (.next nd.level (nd.childPtr k).1 (nd.childPtr k).2) := by
  simp only [internalNodeSearch, hv, not_true, Nat.not_lt.2 hl, false_or, Checked.assert_of hl, Checked.ok_bind,
    Checked.pure_eq_ok]

/-! ## Inserts -/

/-- A separator that may be inserted into the node. -/
structure Insertable (d : Directory) (nd : InternalNode) (k : Nat) (v : GlobalAddress) : Prop where
  points : Points (d (nd.level - 1)) k v
  lowest_lt : nd.lowest < k
  lt_highest : k < nd.highest
  new : ∀ e ∈ nd.records, e.key ≠ k

theorem Routes.insert {d : Directory} {nd : InternalNode} (h : Routes L d nd) {k : Nat} {v : GlobalAddress}
    (hk : Insertable d nd k v) : Routes L d { nd with records := shiftAndInsert nd.records k v } where
  level_pos := h.level_pos
  leftmost := h.leftmost
  records := fun e he => by
    rcases mem_shiftAndInsert.1 he with rfl | he
    · exact ⟨hk.points, hk.lowest_lt, hk.lt_highest⟩
    · exact h.records e he
  sorted := sorted_shiftAndInsert h.sorted hk.new
  siblingLeftmost := h.siblingLeftmost
  nonempty := fun _ => List.ne_nil_of_mem (mem_shiftAndInsert.2 (.inl rfl))

theorem InternalOk.insert {d : Directory} {m l : Nat} {nd : InternalNode} (h : InternalOk L d m l nd) {k : Nat}
    {v : GlobalAddress} (hk : Insertable d nd k v) :
    InternalOk L d m l { nd with records := shiftAndInsert nd.records k v } :=
  ⟨h.routes.insert hk, h.level, h.valid, h.lowest, h.next, h.sibling⟩

/-! ## Splits -/

/-- What a split makes of a node that has got a separator `k`. -/
structure SplitNodes (L : Layout) (d : Directory) (nd : InternalNode) (k : Nat) (siblingAddr : GlobalAddress)
    (x : InternalSplit) : Prop where
  isRoot : x.isRoot = nd.isRoot L
  splitKey : ∃ e ∈ nd.records, e.key = x.splitKey
  left : Routes L d x.left
  right : Routes L d x.right
  left_eq : x.left.level = nd.level ∧ x.left.valid = nd.valid ∧ x.left.lowest = nd.lowest ∧
    x.left.highest = x.splitKey ∧ x.left.siblingPtr = siblingAddr
  right_eq : x.right.level = nd.level ∧ x.right.valid = true ∧ x.right.lowest = x.splitKey ∧
    x.right.highest = nd.highest ∧ x.right.siblingPtr = nd.siblingPtr
  keys : ∀ e, e ∈ x.left.records ∨ e ∈ x.right.records → e ∈ nd.records ∨ e.key = k
  kept : ∀ j, nd.Separates j ∨ j = k → j = x.splitKey ∨ x.left.Separates j ∨ x.right.Separates j

/-- **A split** of a node with records. -/
theorem Routes.split {d : Directory} {nd : InternalNode} (h : Routes L d nd) {k : Nat} {v : GlobalAddress}
    (hk : Insertable d nd k v) (hN : L.internalSpanSize ≤ nd.records.length) (siblingAddr : GlobalAddress) :
    ∃ x, nodeSplitAndUnlock L nd k v nd.level siblingAddr = .ok x ∧ SplitNodes L d nd k siblingAddr x := by
  have hpos := L.internalSpanSize_pos
  have hm : nd.records.length / 2 < nd.records.length := by omega
  have hsort : nd.records.insertionSort (fun a b => a.key ≤ b.key) = nd.records :=
    List.Pairwise.insertionSort_eq (h.sorted.imp Nat.le_of_lt)
  obtain ⟨e, he⟩ : ∃ e, nd.records[nd.records.length / 2]? = some e := ⟨_, List.getElem?_eq_getElem hm⟩
  have hget : nd.records.getD (nd.records.length / 2) ⟨kkeyNull, .null⟩ = e := by
    rw [List.getD_eq_getElem?_getD, he, Option.getD_some]
  have hmem : e ∈ nd.records := List.mem_of_getElem? he
  -- the records are those on the left of `e`, `e`, and those on its right
  set l := nd.records.take (nd.records.length / 2) with hl
  set r := nd.records.drop (nd.records.length / 2 + 1) with hr
  have hcut : nd.records = l ++ e :: r := by
    have hdrop : nd.records.drop (nd.records.length / 2) = e :: r := by
      rw [List.drop_eq_getElem?_toList_append, he]
      rfl
    rw [hl, ← hdrop, List.take_append_drop]
  have hsorted : (l ++ e :: r).Pairwise fun a b => a.key < b.key := hcut ▸ h.sorted
  obtain ⟨hsl, hser, hlr⟩ := List.pairwise_append.1 hsorted
  obtain ⟨her, hsr⟩ := List.pairwise_cons.1 hser
  have hml : ∀ a ∈ l, a ∈ nd.records := fun a ha => hcut ▸ List.mem_append_left _ ha
  have hmr : ∀ a ∈ r, a ∈ nd.records := fun a ha => hcut ▸ List.mem_append_right _ (List.mem_cons_of_mem _ ha)
  have hcutmem : ∀ a ∈ nd.records, a ∈ l ∨ a = e ∨ a ∈ r := fun a ha => by
    rw [hcut, List.mem_append, List.mem_cons] at ha
    exact ha
  obtain ⟨hep, helow, hehigh⟩ := h.records e hmem
  have hek : e.key ≠ k := hk.new e hmem
  have hnonl : 3 ≤ L.internalSpanSize → l ≠ [] := by
    intro h3 h0
    have := congrArg List.length h0
    simp only [hl, List.length_take, List.length_nil] at this
    omega
  have hnonr : 3 ≤ L.internalSpanSize → r ≠ [] := by
    intro h3 h0
    have := congrArg List.length h0
    simp only [hr, List.length_drop, List.length_nil] at this
    omega
  -- the two nodes before the new separator is inserted
  have hleft : Routes L d
      { nd with records := l, highest := e.key, siblingPtr := siblingAddr, siblingLeftmostPtr := e.ptr } :=
    ⟨h.level_pos, h.leftmost, fun a ha => ⟨(h.records a (hml a ha)).1, (h.records a (hml a ha)).2.1,
      hlr a ha e List.mem_cons_self⟩, hsl, .inr hep, hnonl⟩
  have hright : Routes L d ⟨nd.level, true, nd.siblingPtr, e.ptr, nd.siblingLeftmostPtr, e.key, nd.highest, r⟩ :=
    ⟨h.level_pos, hep, fun a ha => ⟨(h.records a (hmr a ha)).1, her a ha, (h.records a (hmr a ha)).2.2⟩, hsr,
      h.siblingLeftmost, hnonr⟩
  have hne : e.key ≠ kkeyNull := by
    rw [kkeyNull_eq]
    omega
  simp only [nodeSplitAndUnlock, hsort, hget, ← hl, ← hr, Checked.assert_of hne, Checked.ok_bind, Checked.pure_eq_ok]
  refine ⟨_, rfl, ?_⟩
  by_cases hke : k < e.key
  · simp only [if_pos hke]
    refine ⟨rfl, ⟨e, hmem, rfl⟩, ?_, hright, ⟨rfl, rfl, rfl, rfl, rfl⟩, ⟨rfl, rfl, rfl, rfl, rfl⟩, ?_, ?_⟩
    · exact hleft.insert ⟨hk.points, hk.lowest_lt, hke, fun a ha => hk.new a (hml a ha)⟩
    · rintro a (ha | ha)
      · exact (mem_shiftAndInsert.1 ha).elim (fun ha => .inr (ha ▸ rfl)) fun ha => .inl (hml a ha)
      · exact .inl (hmr a ha)
    · rintro j (⟨a, ha, rfl⟩ | rfl)
      · rcases hcutmem a ha with ha | rfl | ha
        · exact .inr (.inl ⟨a, mem_shiftAndInsert.2 (.inr ha), rfl⟩)
        · exact .inl rfl
        · exact .inr (.inr ⟨a, ha, rfl⟩)
      · exact .inr (.inl ⟨_, mem_shiftAndInsert.2 (.inl rfl), rfl⟩)
  · simp only [if_neg hke]
    refine ⟨rfl, ⟨e, hmem, rfl⟩, hleft, ?_, ⟨rfl, rfl, rfl, rfl, rfl⟩, ⟨rfl, rfl, rfl, rfl, rfl⟩, ?_, ?_⟩
    · exact hright.insert ⟨hk.points, by show e.key < k; omega, hk.lt_highest, fun a ha => hk.new a (hmr a ha)⟩
    · rintro a (ha | ha)
      · exact .inl (hml a ha)
      · exact (mem_shiftAndInsert.1 ha).elim (fun ha => .inr (ha ▸ rfl)) fun ha => .inl (hmr a ha)
    · rintro j (⟨a, ha, rfl⟩ | rfl)
      · rcases hcutmem a ha with ha | rfl | ha
        · exact .inr (.inl ⟨a, ha, rfl⟩)
        · exact .inl rfl
        · exact .inr (.inr ⟨a, mem_shiftAndInsert.2 (.inr ha), rfl⟩)
      · exact .inr (.inr ⟨_, mem_shiftAndInsert.2 (.inl rfl), rfl⟩)

/-- A node in a larger directory. -/
theorem InternalOk.grow {d d' : Directory} (hd : d.Le d') {m l : Nat} {nd : InternalNode} (h : InternalOk L d m l nd)
    (hn : Next (d' m) L.keyFull l nd.highest) : InternalOk L d' m l nd :=
  ⟨h.routes.mono hd, h.level, h.valid, h.lowest, hn, h.sibling.mono (hd _)⟩

section SplitNodes

variable {d : Directory} {m l k new : Nat} {nd : InternalNode} {siblingAddr : GlobalAddress} {x : InternalSplit}

/-- The split key lies inside of the node. -/
theorem SplitNodes.lt_splitKey (hx : SplitNodes L d nd k siblingAddr x) (h : Routes L d nd) :
    nd.lowest < x.splitKey ∧ x.splitKey < nd.highest := by
  obtain ⟨e, he, hk⟩ := hx.splitKey
  exact hk ▸ (h.records e he).2

/-- **The two nodes of a split**, once the right one is in the directory. -/
theorem SplitNodes.ok (hx : SplitNodes L d nd k (.at new) x) (h : InternalOk L d m l nd) :
    InternalOk L (d.insert m x.splitKey new) m l x.left ∧
      InternalOk L (d.insert m x.splitKey new) m x.splitKey x.right := by
  obtain ⟨h1, h2⟩ := hx.lt_splitKey h.routes
  rw [h.lowest] at h1
  have hd : d.Le (d.insert m x.splitKey new) := Directory.insert_le (h.next.free _ h1 h2)
  obtain ⟨hll, hlv, hllow, hlhigh, hlsib⟩ := hx.left_eq
  obtain ⟨hrl, hrv, hrlow, hrhigh, hrsib⟩ := hx.right_eq
  constructor
  · refine ⟨hx.left.mono hd, hll.trans h.level, hlv.trans h.valid, hllow.trans h.lowest, ?_, ?_⟩
    · rw [hlhigh, Directory.insert_level]
      exact h.next.cutLeft h1 h2
    · rw [hlhigh, hlsib, Directory.insert_level]
      exact .inr ⟨new, Function.update_self .., rfl⟩
  · refine ⟨hx.right.mono hd, hrl.trans h.level, hrv, hrlow, ?_, ?_⟩
    · rw [hrhigh, Directory.insert_level]
      exact h.next.cutRight h1 h2
    · rw [hrhigh, hrsib]
      exact h.sibling.mono (hd m)

end SplitNodes

/-- **A new root** over the two nodes of a level. -/
theorem newRoot_ok {d : Directory} {level a k sib : Nat} (ha : d level 1 = some a) (hk : d level k = some sib)
    (h1 : 1 < k) (hb : k < L.keyFull) (hn : Next (d (level + 1)) L.keyFull 1 L.keyFull) :
    InternalOk L d (level + 1) 1 (InternalNode.newRoot L level (.at a) k (.at sib)) where
  routes := {
    level_pos := Nat.le_add_left 1 level
    leftmost := ⟨a, ha, rfl⟩
    records := fun e he => by
      cases List.mem_singleton.1 he
      exact ⟨⟨sib, hk, rfl⟩, h1, hb⟩
    sorted := List.pairwise_singleton _ _
    siblingLeftmost := .inl ⟨rfl, rfl⟩
    nonempty := fun _ => List.cons_ne_nil _ _ }
  level := rfl
  valid := rfl
  lowest := rfl
  next := hn
  sibling := .inl ⟨rfl, rfl⟩

end Chime

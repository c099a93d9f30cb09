import Chime.CacheLookup
import Chime.TreeInv

/-!
# Which ancestors the index cache finds

`search_from_cache` takes the first entry with a node from the place of the key on, `search_ptr_from_cache` walks over
the entries that contain the key up to the level asked for. In a cache of one tree state (`OfOneTree`) the entries that
contain a key come in the order of their levels, but an entry inside of one of them, to the right of the key, comes
before it. The lookups find the cached ancestor exactly if there is no such entry (`cached_ancestor_iff`).
-/

namespace Chime

open TreeCacheEntry

variable {L : Layout}

/-! ## The children of a node -/

namespace InternalNode

/-- The boundaries of the children, each with the child that begins there; the last one is the neighbor's first
child. -/
def fences (nd : InternalNode) : List InternalEntry :=
  ⟨nd.lowest, nd.leftmostPtr⟩ :: nd.records ++ [⟨nd.highest, nd.siblingLeftmostPtr⟩]

/-- The child that covers `k`, and the child to its right. -/
def ChildAt (nd : InternalNode) (k : Nat) (child right : GlobalAddress) : Prop :=
  ∃ pre post lo hi, nd.fences = pre ++ ⟨lo, child⟩ :: ⟨hi, right⟩ :: post ∧ lo ≤ k ∧ k < hi

theorem nextPtr_childAt {k hi : Nat} (right : GlobalAddress) (hk : k < hi) (es : List InternalEntry) :
    ∀ {lo : Nat} (child : GlobalAddress), lo ≤ k →
      ∃ pre post lo' hi', ⟨lo, child⟩ :: es ++ [⟨hi, right⟩] =
        pre ++ ⟨lo', (nextPtr right k child es).1⟩ :: ⟨hi', (nextPtr right k child es).2⟩ :: post ∧ lo' ≤ k ∧
          k < hi' := by
  induction es with
  | nil => exact fun _ hlo => ⟨[], [], _, _, rfl, hlo, hk⟩
  | cons e es ih =>
    intro lo child hlo
    rw [nextPtr]
    split
    · rename_i hlt
      exact ⟨[], es ++ [⟨hi, right⟩], lo, e.key, rfl, hlo, hlt⟩
    · rename_i hge
      obtain ⟨pre, post, lo', hi', heq, hlo', hhi'⟩ := ih e.ptr (not_lt.1 hge)
      exact ⟨⟨lo, child⟩ :: pre, post, lo', hi', congrArg _ heq, hlo', hhi'⟩

/-- The first child of a node without records covers the keys of the node. -/
theorem ChildAt.leftmost {nd : InternalNode} {k : Nat} {child right : GlobalAddress} (hr : nd.records = [])
    (h : nd.ChildAt k child right) : child = nd.leftmostPtr := by
  obtain ⟨pre, post, lo, hi, heq, -, -⟩ := h
  rw [fences, hr] at heq
  rcases pre with _ | ⟨x, _ | ⟨y, pre⟩⟩
  · exact (InternalEntry.mk.inj (List.cons.inj heq).1).2.symm
  · simp at heq
  · simp at heq

/-- **The child of a key** is found in a node that has a record. -/
theorem childAt_childPtr {nd : InternalNode} {k : Nat} (hr : nd.records ≠ []) (hl : nd.lowest ≤ k)
    (hh : k < nd.highest) :
    nd.ChildAt k (nd.childPtr k).1 (nd.childPtr k).2 := by
  unfold ChildAt fences childPtr
  cases hes : nd.records with
  | nil => exact absurd hes hr
  | cons e es =>
    simp only
    split
    · rename_i hlt
      exact ⟨[], es ++ [⟨nd.highest, nd.siblingLeftmostPtr⟩], nd.lowest, e.key, rfl, hl, hlt⟩
    · rename_i hge
      obtain ⟨pre, post, lo', hi', heq, hlo', hhi'⟩ :=
        nextPtr_childAt nd.siblingLeftmostPtr hh es e.ptr (not_lt.1 hge)
      exact ⟨⟨nd.lowest, nd.leftmostPtr⟩ :: pre, post, lo', hi', congrArg _ heq, hlo', hhi'⟩

/-- In a node without records the null entry is read, in place of the first child. -/
theorem records_ne_nil_of_childAt {nd : InternalNode} {k : Nat} {right : GlobalAddress} (hnull : nd.leftmostPtr ≠ .null)
    (h : nd.ChildAt k (nd.childPtr k).1 right) : nd.records ≠ [] := by
  intro hr
  have hchild := h.leftmost hr
  rw [childPtr, hr] at hchild
  exact hnull hchild.symm

end InternalNode

/-! ## The lookups -/

namespace TreeCacheEntry

/-- The entry contains the key. -/
def Contains (e : TreeCacheEntry) (k : Nat) : Prop := e.fromKey ≤ k ∧ k ≤ e.toKey

/-- The range of an entry lies in the range of another one. -/
def Within (e x : TreeCacheEntry) : Prop := x.fromKey ≤ e.fromKey ∧ e.toKey ≤ x.toKey

instance (e : TreeCacheEntry) (k : Nat) : Decidable (e.Contains k) := inferInstanceAs (Decidable (_ ∧ _))

instance (e x : TreeCacheEntry) : Decidable (e.Within x) := inferInstanceAs (Decidable (_ ∧ _))

end TreeCacheEntry

namespace TreeCache

/-- The loop of `search_ptr_from_cache` over the entries: the entry, and the child that `k` is routed to. -/
def ptrFrom (k level : Nat) : List TreeCacheEntry → Option (TreeCacheEntry × GlobalAddress)
  | [] => none
  | e :: es =>
    if e.fromKey > k ∨ e.toKey < k then none
    else
      match e.ptr with
      | some nd => if nd.level = level + 1 then some (e, (nd.childPtr k).1) else ptrFrom k level es
      | none => ptrFrom k level es

/-- The entries from the place of `k` on, which `Seek` comes to. -/
def seek (c : TreeCache) (k : Nat) : List TreeCacheEntry := c.entries.dropWhile (·.before ⟨k, k, none⟩)

/-- `search_ptr_from_cache`. -/
def searchPtrFromCache (c : TreeCache) (k level : Nat) : Option (TreeCacheEntry × GlobalAddress) :=
  ptrFrom k level (c.seek k)

/-- The entries are in the order of the skip list and for the ranges of nodes of one tree state: two ranges are nested
or disjoint, and a range inside of another one belongs to a lower level. An entry with a node has a copy of it. -/
structure OfOneTree (c : TreeCache) : Prop where
  sorted : Sorted c.entries
  range : ∀ e ∈ c.entries, e.fromKey ≤ e.toKey
  nested : ∀ e ∈ c.entries, ∀ x ∈ c.entries,
    e.toKey < x.fromKey ∨ x.toKey < e.fromKey ∨ e.Within x ∨ x.Within e
  lower : ∀ e ∈ c.entries, ∀ x ∈ c.entries, ∀ nd ∈ e.ptr, ∀ nd' ∈ x.ptr, e.Within x → e ≠ x → nd.level < nd'.level
  copies : ∀ e ∈ c.entries, ∀ nd ∈ e.ptr, e.fromKey = nd.lowest ∧ e.toKey + 1 = nd.highest ∧ nd.leftmostPtr ≠ .null

/-- The entry of a cached node of the lowest level among those that contain `k`. -/
structure Lowest (c : TreeCache) (k : Nat) (e : TreeCacheEntry) (nd : InternalNode) : Prop where
  mem : e ∈ c.entries
  ptr : e.ptr = some nd
  contains : e.Contains k
  least : ∀ x ∈ c.entries, ∀ nd' ∈ x.ptr, x.Contains k → nd.level ≤ nd'.level

/-- The entry of a cached node of a level that contains `k`. -/
structure AtLevel (c : TreeCache) (k level : Nat) (e : TreeCacheEntry) (nd : InternalNode) : Prop where
  mem : e ∈ c.entries
  ptr : e.ptr = some nd
  contains : e.Contains k
  level : nd.level = level

/-- `search_from_cache` finds the lowest cached ancestor of `k`, if there is one, with the child that covers `k` and the
child to its right. -/
def FindsLowest (c : TreeCache) (k : Nat) : Prop :=
  (∃ e ∈ c.entries, e.ptr.isSome ∧ e.Contains k) →
    ∃ e nd, c.searchFromCache k = some (e, nd) ∧ c.Lowest k e nd ∧
      nd.ChildAt k (nd.childPtr k).1 (nd.childPtr k).2

/-- `search_ptr_from_cache` finds the cached node above `level` that contains `k`, if there is one, with the child that
covers `k`. -/
def FindsParent (c : TreeCache) (k level : Nat) : Prop :=
  ∀ e nd, c.AtLevel k (level + 1) e nd →
    ∃ child right, c.searchPtrFromCache k level = some (e, child) ∧ nd.ChildAt k child right

/-- The lowest cached ancestor of `k` has a record, and no entry with a node lies inside of it to the right of `k`. -/
def LowestIsFirst (c : TreeCache) (k : Nat) : Prop :=
  ∀ e nd, c.Lowest k e nd → nd.records ≠ [] ∧
    ¬∃ x ∈ c.entries, x.ptr.isSome ∧ k < x.fromKey ∧ x.toKey ≤ e.toKey

/-- A cached node above `level` that contains `k` has a record, and no entry at all, an invalidated one included, lies
inside of it to the right of `k`. -/
def ParentIsFirst (c : TreeCache) (k level : Nat) : Prop :=
  ∀ e nd, c.AtLevel k (level + 1) e nd → nd.records ≠ [] ∧ ¬∃ x ∈ c.entries, k < x.fromKey ∧ x.toKey ≤ e.toKey

/-! ## The entries from the place of a key on -/

section Seek

variable {c : TreeCache} {e x : TreeCacheEntry} {nd : InternalNode} {k level : Nat}

theorem seek_eq_filter (h : c.OfOneTree) (k : Nat) : c.seek k = c.entries.filter fun e => k ≤ e.toKey := by
  unfold seek
  have hs := h.sorted
  have hr := h.range
  generalize c.entries = entries at hs hr
  induction hs with
  | nil => rfl
  | @cons a as hhead htail ih =>
    have hra := hr a List.mem_cons_self
    rw [List.dropWhile_cons]
    split
    · rename_i hb
      have hlt : ¬k ≤ a.toKey := by
        rw [before_iff] at hb
        simp only at hb
        omega
      rw [List.filter_cons_of_neg (by simpa using hlt)]
      exact ih fun x hx => hr x (List.mem_cons_of_mem _ hx)
    · rename_i hb
      have hle : k ≤ a.toKey := by
        rw [before_iff] at hb
        simp only at hb
        omega
      -- the entries after it end after it
      refine (List.filter_eq_self.2 fun x hx => ?_).symm
      rcases List.mem_cons.1 hx with rfl | hx
      · simpa using hle
      · have := before_iff.1 (hhead x hx)
        simp only [decide_eq_true_eq]
        omega

theorem mem_seek (h : c.OfOneTree) : x ∈ c.seek k ↔ x ∈ c.entries ∧ k ≤ x.toKey := by
  rw [seek_eq_filter h, List.mem_filter, decide_eq_true_eq]

theorem sorted_seek (h : c.OfOneTree) : Sorted (c.seek k) := h.sorted.sublist (List.dropWhile_sublist _)

/-- Of two entries that contain a key, the first one lies within the other one. -/
theorem OfOneTree.within (h : c.OfOneTree) (hx : x ∈ c.entries) (he : e ∈ c.entries) (hxk : x.Contains k)
    (hek : e.Contains k) (hb : x.before e = true) : x.Within e := by
  rcases h.nested x hx e he with hlt | hlt | hw | hw
  · exact absurd (hlt.trans_le hek.1) (not_lt.2 hxk.2)
  · exact absurd (hlt.trans_le hxk.1) (not_lt.2 hek.2)
  · exact hw
  · have := before_iff.1 hb
    have := hw.1
    have := hw.2
    exact ⟨by omega, by omega⟩

/-- What comes before an entry that contains the key, from the place of the key on, lies inside of it. -/
theorem OfOneTree.before_iff (h : c.OfOneTree) (hx : x ∈ c.entries) (hek : e.Contains k) (hxk : k < x.fromKey) :
    x.before e = true ↔ x.toKey ≤ e.toKey := by
  have := h.range x hx
  have := hek.1
  rw [TreeCache.before_iff]
  omega

/-- **The first of its kind**: a search through the entries finds one exactly if the ones before it are passed over. -/
theorem find?_first (p : TreeCacheEntry → Bool) {es : List TreeCacheEntry} (hs : Sorted es) (he : e ∈ es)
    (hp : p e = true) : es.find? p = some e ↔ ∀ x ∈ es, x.before e = true → p x = false := by
  induction hs with
  | nil => cases he
  | @cons a as hhead htail ih =>
    have hirr : e.before e = false := before_irrefl ⟨rfl, rfl⟩
    rw [List.find?_cons]
    rcases List.mem_cons.1 he with rfl | he'
    · rw [hp]
      refine iff_of_true rfl fun x hx hb => ?_
      rcases List.mem_cons.1 hx with rfl | hx
      · rw [hirr] at hb
        cases hb
      · rw [before_trans (hhead x hx) hb] at hirr
        cases hirr
    · have ha := hhead e he'
      cases hpa : p a with
      | true =>
        refine iff_of_false (fun heq => ?_) fun hall => ?_
        · rw [Option.some.inj heq, hirr] at ha
          cases ha
        · have := hall a List.mem_cons_self ha
          rw [hpa] at this
          cases this
      | false =>
        refine (ih he').trans ⟨fun hall x hx hb => ?_, fun hall x hx hb => hall x (List.mem_cons_of_mem _ hx) hb⟩
        rcases List.mem_cons.1 hx with rfl | hx
        · exact hpa
        · exact hall x hx hb

theorem seekEntry_eq (c : TreeCache) (k : Nat) :
    c.seekEntry k = ((c.seek k).find? (·.ptr.isSome)).bind fun e => e.ptr.map fun nd => (e, nd) := by
  unfold seekEntry seek
  generalize c.entries.dropWhile (·.before ⟨k, k, none⟩) = es
  induction es with
  | nil => rfl
  | cons a as ih =>
    rw [List.findSome?_cons, List.find?_cons]
    cases ha : a.ptr with
    | none => simpa using ih
    | some nd => simp [ha]

/-- The loop of `search_ptr_from_cache` ends at the first entry that does not contain the key or has a node of the
level. -/
theorem ptrFrom_eq (k level : Nat) (es : List TreeCacheEntry) : ptrFrom k level es =
    (es.find? fun e => ¬e.Contains k ∨ ∃ nd ∈ e.ptr, nd.level = level + 1).bind fun e =>
      if e.Contains k then e.ptr.map fun nd => (e, (nd.childPtr k).1) else none := by
  induction es with
  | nil => rfl
  | cons a as ih =>
    unfold ptrFrom
    rw [List.find?_cons]
    by_cases hk : a.Contains k
    · have hno : ¬(a.fromKey > k ∨ a.toKey < k) := by
        have := hk.1
        have := hk.2
        omega
      rw [if_neg hno]
      cases ha : a.ptr with
      | none => simpa [hk, ha] using ih
      | some nd =>
        by_cases hl : nd.level = level + 1
        · simp [hk, ha, hl]
        · simpa [hk, ha, hl] using ih
    · have hyes : a.fromKey > k ∨ a.toKey < k := by
        unfold Contains at hk
        omega
      rw [if_pos hyes]
      simp [hk]

end Seek

/-! ## Which ancestors are found -/

section Ancestors

variable {c : TreeCache} {e e' x : TreeCacheEntry} {nd nd' : InternalNode} {k level : Nat}

theorem OfOneTree.ne_of_before (hb : x.before e = true) : x ≠ e := by
  rintro rfl
  rw [before_irrefl ⟨rfl, rfl⟩] at hb
  cases hb

/-- An entry before one that contains the key ends inside of it. If it contains the key as well, its level is lower. -/
theorem OfOneTree.lower_of_before (h : c.OfOneTree) (hx : x ∈ c.entries) (he : e ∈ c.entries) (hptr : e.ptr = some nd)
    (hek : e.Contains k) (hb : x.before e = true) (hxk : x.Contains k) (hnd' : x.ptr = some nd') :
    nd'.level < nd.level :=
  h.lower x hx e he nd' hnd' nd hptr (h.within hx he hxk hek hb) (OfOneTree.ne_of_before hb)

/-- There is one lowest cached ancestor. -/
theorem Lowest.unique (h : c.OfOneTree) (hl : c.Lowest k e nd) (hl' : c.Lowest k e' nd') : e = e' ∧ nd = nd' := by
  suffices hee : e = e' by
    subst hee
    exact ⟨rfl, Option.some.inj (hl.ptr.symm.trans hl'.ptr)⟩
  -- neither comes before the other one
  by_contra hne
  have hless : ∀ {e e' : TreeCacheEntry} {nd nd' : InternalNode}, c.Lowest k e nd → c.Lowest k e' nd' →
      e.before e' = true → False := by
    intro e e' nd nd' hl hl' hb
    have hlt := h.lower_of_before hl.mem hl'.mem hl'.ptr hl'.contains hb hl.contains hl.ptr
    exact absurd (hl'.least e hl.mem nd hl.ptr hl.contains) (not_le.2 hlt)
  cases hb : e.before e' with
  | true => exact hless hl hl' hb
  | false =>
    refine hless hl' hl (before_total hb fun hr => hne ?_)
    exact (h.sorted.eq_of_isFor hl.mem hl'.mem (isFor_iff.2 ⟨hr.1.symm, hr.2.symm⟩)).symm

theorem exists_lowest (he : e ∈ c.entries) (hptr : e.ptr.isSome) (hk : e.Contains k) : ∃ e nd, c.Lowest k e nd := by
  classical
  obtain ⟨nd, hnd⟩ := Option.isSome_iff_exists.1 hptr
  have hex : ∃ n e nd, c.AtLevel k n e nd := ⟨nd.level, e, nd, he, hnd, hk, rfl⟩
  obtain ⟨e₁, nd₁, h₁⟩ := Nat.find_spec hex
  refine ⟨e₁, nd₁, h₁.mem, h₁.ptr, h₁.contains, fun x hx nd' hnd' hxk => ?_⟩
  rw [h₁.level]
  exact Nat.find_min' hex ⟨x, nd', hx, hnd', hxk, rfl⟩

/-- **`search_from_cache`** takes the lowest ancestor if no node lies inside of it to the right of the key. -/
theorem searchFromCache_iff (h : c.OfOneTree) (hl : c.Lowest k e nd) : c.searchFromCache k = some (e, nd) ↔
    ¬∃ x ∈ c.entries, x.ptr.isSome ∧ k < x.fromKey ∧ x.toKey ≤ e.toKey := by
  have hlive : e.ptr.isSome = true := by rw [hl.ptr]; rfl
  have hmem : e ∈ c.seek k := (mem_seek h).2 ⟨hl.mem, hl.contains.2⟩
  have hfirst := find?_first (fun e => e.ptr.isSome) (sorted_seek h) hmem hlive
  rw [searchFromCache, seekEntry_eq]
  constructor
  · rintro hsearch ⟨x, hx, hsome, hkx, hto⟩
    obtain ⟨hbind, -⟩ := Option.filter_eq_some_iff.1 hsearch
    obtain ⟨e', hfind, hmap⟩ := Option.bind_eq_some_iff.1 hbind
    obtain ⟨nd', -, heq⟩ := Option.map_eq_some_iff.1 hmap
    obtain rfl : e' = e := (Prod.mk.inj heq).1
    have hb : x.before e' = true := (h.before_iff hx hl.contains hkx).2 hto
    have := h.range x hx
    rw [hfirst.1 hfind x ((mem_seek h).2 ⟨hx, by omega⟩) hb] at hsome
    cases hsome
  · intro hno
    have hfind : (c.seek k).find? (·.ptr.isSome) = some e := by
      refine hfirst.2 fun x hxs hb => Bool.eq_false_iff.2 fun hsome => ?_
      obtain ⟨hx, hkto⟩ := (mem_seek h).1 hxs
      by_cases hxk : x.fromKey ≤ k
      · obtain ⟨nd', hnd'⟩ := Option.isSome_iff_exists.1 hsome
        have hlt := h.lower_of_before hx hl.mem hl.ptr hl.contains hb ⟨hxk, hkto⟩ hnd'
        exact absurd (hl.least x hx nd' hnd' ⟨hxk, hkto⟩) (not_le.2 hlt)
      · have hkx := not_le.1 hxk
        exact hno ⟨x, hx, hsome, hkx, (h.before_iff hx hl.contains hkx).1 hb⟩
    rw [hfind]
    have := hl.contains.1
    have := hl.contains.2
    simp [hl.ptr, Option.filter]
    omega

/-- **`search_ptr_from_cache`** comes to the node of a level if nothing lies inside of it to the right of the key. -/
theorem searchPtrFromCache_iff {child : GlobalAddress} (h : c.OfOneTree) (hl : c.AtLevel k (level + 1) e nd) :
    c.searchPtrFromCache k level = some (e, child) ↔
      child = (nd.childPtr k).1 ∧ ¬∃ x ∈ c.entries, k < x.fromKey ∧ x.toKey ≤ e.toKey := by
  have hmem : e ∈ c.seek k := (mem_seek h).2 ⟨hl.mem, hl.contains.2⟩
  have hstop : decide (¬e.Contains k ∨ ∃ nd ∈ e.ptr, nd.level = level + 1) = true :=
    decide_eq_true (.inr ⟨nd, hl.ptr, hl.level⟩)
  have hfirst := find?_first (fun e => decide (¬e.Contains k ∨ ∃ nd ∈ e.ptr, nd.level = level + 1))
    (sorted_seek h) hmem hstop
  rw [searchPtrFromCache, ptrFrom_eq]
  constructor
  · intro hsearch
    obtain ⟨e', hfind, hmap⟩ := Option.bind_eq_some_iff.1 hsearch
    split at hmap
    · obtain ⟨nd', hnd', heq⟩ := Option.map_eq_some_iff.1 hmap
      obtain ⟨rfl, rfl⟩ := Prod.mk.inj heq
      obtain rfl : nd' = nd := Option.some.inj (hnd'.symm.trans hl.ptr)
      refine ⟨rfl, ?_⟩
      rintro ⟨x, hx, hkx, hto⟩
      have hb : x.before e' = true := (h.before_iff hx hl.contains hkx).2 hto
      have := h.range x hx
      have hpass := hfirst.1 hfind x ((mem_seek h).2 ⟨hx, by omega⟩) hb
      simp only [decide_eq_false_iff_not, not_or, not_not] at hpass
      exact absurd hpass.1.1 (not_le.2 hkx)
    · cases hmap
  · rintro ⟨rfl, hno⟩
    have hfind := hfirst.2 fun x hxs hb => by
      obtain ⟨hx, hkto⟩ := (mem_seek h).1 hxs
      have hxk : x.fromKey ≤ k := by
        by_contra hkx
        have hkx := not_le.1 hkx
        exact hno ⟨x, hx, hkx, (h.before_iff hx hl.contains hkx).1 hb⟩
      refine decide_eq_false (not_or.2 ⟨not_not.2 ⟨hxk, hkto⟩, ?_⟩)
      rintro ⟨nd', hnd', hlevel⟩
      have hlt := h.lower_of_before hx hl.mem hl.ptr hl.contains hb ⟨hxk, hkto⟩ hnd'
      rw [hlevel, hl.level] at hlt
      exact lt_irrefl _ hlt
    rw [hfind, Option.bind_some, if_pos hl.contains, hl.ptr]
    rfl

/-- The node of an entry that contains the key covers it. -/
theorem OfOneTree.covers (h : c.OfOneTree) (he : e ∈ c.entries) (hptr : e.ptr = some nd) (hk : e.Contains k) :
    nd.lowest ≤ k ∧ k < nd.highest ∧ nd.leftmostPtr ≠ .null := by
  obtain ⟨hlow, hhigh, hnull⟩ := h.copies e he nd hptr
  have := hk.1
  have := hk.2
  exact ⟨by omega, by omega, hnull⟩

theorem findsLowest_iff (h : c.OfOneTree) (k : Nat) : c.FindsLowest k ↔ c.LowestIsFirst k := by
  constructor
  · intro hfinds e nd hl
    obtain ⟨e', nd', hsearch, hl', hchild⟩ := hfinds ⟨e, hl.mem, by rw [hl.ptr]; rfl, hl.contains⟩
    obtain ⟨rfl, rfl⟩ := hl'.unique h hl
    obtain ⟨-, -, hnull⟩ := h.covers hl.mem hl.ptr hl.contains
    exact ⟨InternalNode.records_ne_nil_of_childAt hnull hchild, (searchFromCache_iff h hl).1 hsearch⟩
  · rintro hfirst ⟨x, hx, hsome, hxk⟩
    obtain ⟨e, nd, hl⟩ := exists_lowest hx hsome hxk
    obtain ⟨hrec, hno⟩ := hfirst e nd hl
    obtain ⟨hlow, hhigh, -⟩ := h.covers hl.mem hl.ptr hl.contains
    exact ⟨e, nd, (searchFromCache_iff h hl).2 hno, hl, InternalNode.childAt_childPtr hrec hlow hhigh⟩

theorem findsParent_iff (h : c.OfOneTree) (k level : Nat) : c.FindsParent k level ↔ c.ParentIsFirst k level := by
  constructor
  · intro hfinds e nd hl
    obtain ⟨child, right, hsearch, hchild⟩ := hfinds e nd hl
    obtain ⟨rfl, hno⟩ := (searchPtrFromCache_iff h hl).1 hsearch
    obtain ⟨-, -, hnull⟩ := h.covers hl.mem hl.ptr hl.contains
    exact ⟨InternalNode.records_ne_nil_of_childAt hnull hchild, hno⟩
  · intro hfirst e nd hl
    obtain ⟨hrec, hno⟩ := hfirst e nd hl
    obtain ⟨hlow, hhigh, -⟩ := h.covers hl.mem hl.ptr hl.contains
    exact ⟨_, _, (searchPtrFromCache_iff h hl).2 ⟨rfl, hno⟩, InternalNode.childAt_childPtr hrec hlow hhigh⟩

/-- **Cached ancestors** of a key are found exactly if nothing in the cache lies inside of them to the right of the
key. -/
theorem cached_ancestor_iff (c : TreeCache) (h : c.OfOneTree) (k level : Nat) :
    (c.FindsLowest k ∧ c.FindsParent k level) ↔ (c.LowestIsFirst k ∧ c.ParentIsFirst k level) := by
  rw [findsLowest_iff h k, findsParent_iff h k level]

/-! ## A root and one of its children -/

/-- The entry with the root of a small tree, and with the child that begins at 50. -/
def rootAndChild : TreeCache :=
  ⟨[⟨50, 59, some ⟨1, true, .at 70, .at 40, .at 60, 50, 60, [⟨55, .at 45⟩]⟩⟩,
    ⟨1, 99, some ⟨2, true, .null, .at 10, .null, 1, 100, [⟨50, .at 50⟩, ⟨60, .at 70⟩]⟩⟩], 0⟩

theorem rootAndChild_ofOneTree : rootAndChild.OfOneTree where
  sorted := by unfold Sorted; decide
  range := by decide
  nested := by decide
  lower := by decide
  copies := by decide

/-- In the range of the child, both are found. -/
theorem cached_ancestor_child : rootAndChild.FindsLowest 52 ∧ rootAndChild.FindsParent 52 1 := by
  have hrec : ∀ e ∈ rootAndChild.entries, ∀ nd ∈ e.ptr, nd.records ≠ [] := by decide
  have hright : ∀ x ∈ rootAndChild.entries, ¬52 < x.fromKey := by decide
  refine (cached_ancestor_iff rootAndChild rootAndChild_ofOneTree 52 1).2 ⟨?_, ?_⟩
  · refine fun e nd hl => ⟨hrec e hl.mem nd hl.ptr, ?_⟩
    rintro ⟨x, hx, -, hkx, -⟩
    exact hright x hx hkx
  · refine fun e nd hl => ⟨hrec e hl.mem nd hl.ptr, ?_⟩
    rintro ⟨x, hx, hkx, -⟩
    exact hright x hx hkx

/-- **A cached ancestor is missed**: to the left of the child, both lookups come to the child and give up. -/
theorem not_cached_ancestor :
    rootAndChild.OfOneTree ∧ ¬rootAndChild.FindsLowest 35 ∧ ¬rootAndChild.FindsParent 35 1 := by
  refine ⟨rootAndChild_ofOneTree, fun h => ?_, fun h => ?_⟩
  · obtain ⟨e, nd, hsearch, -⟩ := h (by decide)
    have hnone : rootAndChild.searchFromCache 35 = none := by decide
    rw [hnone] at hsearch
    cases hsearch
  · obtain ⟨child, right, hsearch, -⟩ :=
      h ⟨1, 99, some ⟨2, true, .null, .at 10, .null, 1, 100, [⟨50, .at 50⟩, ⟨60, .at 70⟩]⟩⟩
      _ ⟨by decide, rfl, by decide, rfl⟩
    have hnone : rootAndChild.searchPtrFromCache 35 1 = none := by decide
    rw [hnone] at hsearch
    cases hsearch

end Ancestors

/-! ## The caches of a tree -/

section Tree

open Boundary (Next)

variable {c : TreeCache} {g : Charted L}

/-- The entries are for internal nodes of the tree, and have a copy of the node or none. -/
structure Mirrors (g : Charted L) (c : TreeCache) : Prop where
  sorted : Sorted c.entries
  entries : ∀ e ∈ c.entries, ∃ m a nd locked, 1 ≤ m ∧ g.dir m e.fromKey = some a ∧
    g.store.mem a = .internal nd locked ∧ e.toKey + 1 = nd.highest ∧ (e.ptr = none ∨ e.ptr = some nd)

/-- Of the ranges of two nodes, the one of the lower level lies inside of the other one or apart from it. -/
theorem range_within (hg : TreeOk g) {m m' l l' h h' a : Nat} (hm : m ≤ m') (ha : g.dir m' l' = some a)
    (hn : Next (g.dir m) L.keyFull l h) (hn' : Next (g.dir m') L.keyFull l' h') :
    h ≤ l' ∨ h' ≤ l ∨ (l' ≤ l ∧ h ≤ h') := by
  obtain ⟨b, hb⟩ := hg.nested_le hm ha
  by_cases hl : l < l'
  · exact .inl (hn.le hb hl)
  · by_cases hh : h' ≤ l
    · exact .inr (.inl hh)
    · refine .inr (.inr ⟨not_lt.1 hl, ?_⟩)
      -- the end of the upper range is a boundary of the lower level
      rcases hn'.bound with rfl | ⟨b₁, hb₁⟩
      · exact hn.le_top (hg.below m)
      · obtain ⟨b₂, hb₂⟩ := hg.nested_le hm hb₁
        exact hn.le hb₂ (not_le.1 hh)

/-- The node that an entry is for. -/
theorem Mirrors.node (hg : TreeOk g) (hc : c.Mirrors g) {e : TreeCacheEntry} (he : e ∈ c.entries) :
    ∃ m a nd, g.dir m e.fromKey = some a ∧ InternalOk L g.dir m e.fromKey nd ∧ e.toKey + 1 = nd.highest ∧
      (e.ptr = none ∨ e.ptr = some nd) := by
  obtain ⟨m, a, nd, locked, hm, ha, hmem, hto, hptr⟩ := hc.entries e he
  obtain ⟨nd', locked', hmem', hok⟩ := hg.internal hm ha
  rw [hmem] at hmem'
  cases hmem'
  exact ⟨m, a, nd, ha, hok, hto, hptr⟩

/-- **The caches of a tree** have the ranges of one tree state. -/
theorem Mirrors.ofOneTree (hg : TreeOk g) (hc : c.Mirrors g) : c.OfOneTree where
  sorted := hc.sorted
  range e he := by
    obtain ⟨m, a, nd, -, hok, hto, -⟩ := hc.node hg he
    have := hok.next.lt
    omega
  nested e he x hx := by
    obtain ⟨m, a, nd, ha, hok, hto, -⟩ := hc.node hg he
    obtain ⟨m', a', nd', ha', hok', hto', -⟩ := hc.node hg hx
    unfold Within
    rcases le_total m m' with hm | hm
    · have := range_within hg hm ha' hok.next hok'.next
      omega
    · have := range_within hg hm ha hok'.next hok.next
      omega
  lower e he x hx nd₁ h₁ nd₁' h₁' hw hne := by
    obtain ⟨m, a, nd, ha, hok, hto, hptr⟩ := hc.node hg he
    obtain ⟨m', a', nd', ha', hok', hto', hptr'⟩ := hc.node hg hx
    rw [Option.mem_def] at h₁ h₁'
    rw [h₁] at hptr
    rw [h₁'] at hptr'
    obtain rfl : nd₁ = nd := by simpa using hptr
    obtain rfl : nd₁' = nd' := by simpa using hptr'
    rw [hok.level, hok'.level]
    -- otherwise the ranges are the same
    by_contra hlt
    have := range_within hg (not_lt.1 hlt) ha hok'.next hok.next
    have := hok.next.lt
    have := hok'.next.lt
    have hfrom := hw.1
    have hto := hw.2
    have hrange : e.fromKey = x.fromKey ∧ e.toKey = x.toKey := by omega
    exact hne (hc.sorted.eq_of_isFor hx he (isFor_iff.2 hrange))
  copies e he nd₁ h₁ := by
    obtain ⟨m, a, nd, -, hok, hto, hptr⟩ := hc.node hg he
    rw [Option.mem_def] at h₁
    rw [h₁] at hptr
    obtain rfl : nd₁ = nd := by simpa using hptr
    refine ⟨hok.lowest.symm, hto, fun hnull => ?_⟩
    obtain ⟨b, -, hb⟩ := hok.routes.leftmost
    rw [hnull] at hb
    cases hb

end Tree

end TreeCache

end Chime

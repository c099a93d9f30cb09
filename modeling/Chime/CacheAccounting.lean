import Chime.TreeCache
import Mathlib.Data.List.TakeWhile

/-!
# The accounting of the index cache

`free_size` should be the capacity less what the nodes in the cache consume (`Accounted`). Adding a node to a fresh
entry or to an invalidated one, invalidation and eviction keep it so. A node that replaces a live one of the same range
is not accounted for, so that the count stays right exactly if both have as many records (`cache_accounting`).
-/

namespace Chime

open TreeCacheEntry

namespace TreeCache

variable {L : Layout}

/-! ## The order of the skip list -/

section Order

variable {a b c : TreeCacheEntry}

theorem before_iff : a.before b = true ↔ a.toKey < b.toKey ∨ (a.toKey = b.toKey ∧ b.fromKey < a.fromKey) := by
  rw [before, decide_eq_true_eq]

theorem isFor_iff {l h : Nat} : isFor l h a = true ↔ a.fromKey = l ∧ a.toKey = h := by
  rw [isFor, decide_eq_true_eq]

theorem before_trans (hab : a.before b = true) (hbc : b.before c = true) : a.before c = true := by
  rw [before_iff] at *
  omega

theorem before_irrefl (h : a.fromKey = b.fromKey ∧ a.toKey = b.toKey) : a.before b = false := by
  rw [Bool.eq_false_iff, ne_eq, before_iff]
  omega

theorem before_total (h : a.before b = false) (hne : ¬(a.fromKey = b.fromKey ∧ a.toKey = b.toKey)) :
    b.before a = true := by
  rw [Bool.eq_false_iff, ne_eq, before_iff] at h
  rw [before_iff]
  omega

/-- Entries in order are for different ranges. -/
theorem isFor_of_before (h : a.before b = true) : isFor b.fromKey b.toKey a = false := by
  rw [Bool.eq_false_iff, ne_eq, isFor_iff]
  intro he
  rw [before_irrefl he] at h
  cases h

end Order

/-- The entries are in the order of the skip list, which has one entry for each range. -/
def Sorted (entries : List TreeCacheEntry) : Prop := entries.Pairwise fun a b => a.before b = true

section Lists

variable {entries : List TreeCacheEntry} {e x : TreeCacheEntry}

/-- An entry is the one for its range. -/
theorem Sorted.eq_of_isFor (hs : Sorted entries) (he : e ∈ entries) (hx : x ∈ entries)
    (hf : isFor e.fromKey e.toKey x = true) : x = e := by
  by_contra hne
  have hrange : x.fromKey = e.fromKey ∧ x.toKey = e.toKey := isFor_iff.1 hf
  have hirr : ∀ a b : TreeCacheEntry, a.fromKey = b.fromKey ∧ a.toKey = b.toKey → ¬a.before b = true := fun a b h => by
    rw [before_irrefl h]
    simp
  induction hs with
  | nil => cases he
  | cons hhead htail ih =>
    rcases List.mem_cons.1 he with rfl | he' <;> rcases List.mem_cons.1 hx with rfl | hx'
    · exact hne rfl
    · exact hirr _ _ ⟨hrange.1.symm, hrange.2.symm⟩ (hhead x hx')
    · exact hirr _ _ hrange (hhead e he')
    · exact ih he' hx'

theorem Sorted.setPtr (hs : Sorted entries) (l h : Nat) (p : Option InternalNode) : Sorted (setPtr entries l h p) := by
  have hkeys : ∀ e : TreeCacheEntry, (if isFor l h e then { e with ptr := p } else e).fromKey = e.fromKey ∧
      (if isFor l h e then { e with ptr := p } else e).toKey = e.toKey := fun e => by split <;> exact ⟨rfl, rfl⟩
  refine List.pairwise_map.2 (hs.imp fun {a b} hab => ?_)
  rw [before_iff] at hab ⊢
  rw [(hkeys a).1, (hkeys a).2, (hkeys b).1, (hkeys b).2]
  exact hab

theorem dropWhile_not_before (hs : Sorted entries) (hx : x ∈ entries.dropWhile (·.before e)) : x.before e = false := by
  induction hs with
  | nil => cases hx
  | @cons a as hhead htail ih =>
    rw [List.dropWhile_cons] at hx
    split at hx
    · exact ih hx
    · rename_i ha
      rcases List.mem_cons.1 hx with rfl | hx
      · exact Bool.eq_false_iff.2 ha
      · exact Bool.eq_false_iff.2 fun hxe => ha (before_trans (hhead x hx) hxe)

/-- `add_entry` puts the entry in its place. -/
theorem addEntry_some {c : TreeCache} (hs : Sorted c.entries) {es : List TreeCacheEntry} (h : c.addEntry e = some es) :
    Sorted es ∧ es.Perm (e :: c.entries) ∧ ∀ x ∈ c.entries, isFor e.fromKey e.toKey x = false := by
  rw [addEntry] at h
  split at h
  · cases h
  rename_i hno
  obtain rfl := Option.some.inj h
  have hfree : ∀ x ∈ c.entries, isFor e.fromKey e.toKey x = false := by
    intro x hx
    refine Bool.eq_false_iff.2 fun hf => hno ?_
    exact List.any_eq_true.2 ⟨x, hx, hf⟩
  have hperm : (c.entries.takeWhile (·.before e) ++ e :: c.entries.dropWhile (·.before e)).Perm (e :: c.entries) := by
    refine List.perm_middle.trans (List.Perm.cons e ?_)
    rw [List.takeWhile_append_dropWhile]
  refine ⟨?_, hperm, hfree⟩
  have hafter : ∀ x ∈ c.entries.dropWhile (·.before e), e.before x = true := by
    intro x hx
    refine before_total (dropWhile_not_before hs hx) fun hr => ?_
    have := hfree x ((List.dropWhile_suffix _).subset hx)
    rw [isFor_iff.2 hr] at this
    cases this
  have hbefore : ∀ x ∈ c.entries.takeWhile (·.before e), x.before e = true := by
    intro x hx
    have := List.mem_takeWhile_imp hx
    exact this
  refine List.pairwise_append.2 ⟨hs.sublist (List.takeWhile_sublist _), ?_, ?_⟩
  · exact List.pairwise_cons.2 ⟨hafter, hs.sublist (List.dropWhile_sublist _)⟩
  · intro x hx y hy
    rcases List.mem_cons.1 hy with rfl | hy
    · exact hbefore x hx
    · exact before_trans (hbefore x hx) (hafter y hy)

/-- The range of a new entry is there already, in one entry. -/
theorem addEntry_none {c : TreeCache} (hs : Sorted c.entries) (h : c.addEntry e = none) :
    ∃ x ∈ c.entries, isFor e.fromKey e.toKey x = true ∧ ∀ y ∈ c.entries, isFor e.fromKey e.toKey y = true → y = x := by
  rw [addEntry] at h
  split at h
  · rename_i hany
    obtain ⟨x, hx, hf⟩ := List.any_eq_true.1 hany
    have hr := isFor_iff.1 hf
    exact ⟨x, hx, hf, fun y hy hfy => hs.eq_of_isFor hx hy (hr.1 ▸ hr.2 ▸ hfy)⟩
  · cases h

/-- `find_entry` finds the entry for a range. -/
theorem findEntry_eq {c : TreeCache} (hs : Sorted c.entries) (he : e ∈ c.entries) :
    c.findEntry e.fromKey e.toKey = some e := by
  have hself : (!e.before ⟨e.fromKey, e.toKey, none⟩) = true := by
    rw [before_irrefl (a := e) (b := ⟨e.fromKey, e.toKey, none⟩) ⟨rfl, rfl⟩]
    rfl
  rw [findEntry]
  generalize c.entries = entries at hs he
  induction hs with
  | nil => cases he
  | @cons a as hhead htail ih =>
    rcases List.mem_cons.1 he with rfl | he'
    · rw [List.find?_cons, hself]
    · have ha : a.before ⟨e.fromKey, e.toKey, none⟩ = true := by
        have := hhead e he'
        rw [before_iff] at this ⊢
        exact this
      rw [List.find?_cons, ha]
      exact ih he'

end Lists

/-! ## The accounting -/

variable (L) in
/-- What an entry consumes. -/
def nodeSize (ptr : Option InternalNode) : Nat := ptr.elim 0 (·.consumedCacheSize L)

variable (L) in
/-- What the nodes in the cache consume. -/
def used (entries : List TreeCacheEntry) : Nat := (entries.map fun e => nodeSize L e.ptr).sum

variable (L) in
/-- `free_size` is the capacity less what the nodes in the cache consume. -/
def Accounted (capacity : Nat) (c : TreeCache) : Prop := c.freeSize = capacity - used L c.entries

/-- In a cache without nodes, the whole capacity is free. -/
theorem Accounted.free {capacity : Nat} {c : TreeCache} (h : c.Accounted L capacity)
    (hno : ∀ e ∈ c.entries, e.ptr = none) :
    c.freeSize = capacity := by
  have h0 : used L c.entries = 0 := by
    refine List.sum_eq_zero_iff_forall_eq_nat.2 fun n hn => ?_
    obtain ⟨e, he, rfl⟩ := List.mem_map.1 hn
    rw [hno e he]
    rfl
  rw [h, h0]
  simp

theorem used_cons (e : TreeCacheEntry) (es : List TreeCacheEntry) :
    used L (e :: es) = nodeSize L e.ptr + used L es := by
  rw [used, List.map_cons, List.sum_cons]
  rfl

/-- A swap of the pointer of an entry. -/
theorem used_setPtr {entries : List TreeCacheEntry} {e : TreeCacheEntry} (hs : Sorted entries) (he : e ∈ entries)
    (p : Option InternalNode) :
    used L (setPtr entries e.fromKey e.toKey p) + nodeSize L e.ptr = used L entries + nodeSize L p := by
  induction hs with
  | nil => cases he
  | @cons a as hhead htail ih =>
    have hcons : setPtr (a :: as) e.fromKey e.toKey p =
        (if isFor e.fromKey e.toKey a then { a with ptr := p } else a) :: setPtr as e.fromKey e.toKey p := rfl
    rw [hcons, used_cons, used_cons]
    rcases List.mem_cons.1 he with rfl | he'
    · -- the other entries are for other ranges
      have hrest : setPtr as e.fromKey e.toKey p = as := by
        rw [setPtr, List.map_congr_left, List.map_id]
        intro x hx
        have hne : ¬isFor e.fromKey e.toKey x = true := fun hf => by
          have hr := isFor_iff.1 hf
          have := hhead x hx
          rw [before_irrefl ⟨hr.1.symm, hr.2.symm⟩] at this
          cases this
        rw [if_neg hne]
        rfl
      rw [hrest, if_pos (isFor_iff.2 ⟨rfl, rfl⟩)]
      simp only
      omega
    · have hne : ¬isFor e.fromKey e.toKey a = true := by
        rw [isFor_of_before (hhead e he')]
        simp
      rw [if_neg hne]
      have := ih he'
      omega

/-! ## The operations -/

variable {capacity : Nat} {c c' : TreeCache}

/-- What holds of a cache whose count is right. -/
structure Sound (L : Layout) (capacity : Nat) (c : TreeCache) : Prop where
  sorted : Sorted c.entries
  accounted : c.Accounted L capacity

theorem Sound.invalidate (h : Sound L capacity c) (fromKey toKey : Nat) :
    Sound L capacity (c.invalidate L fromKey toKey) := by
  rw [TreeCache.invalidate]
  split
  · exact h
  · rename_i e hf
    split
    · exact h
    · rename_i nd hp
      have he := List.mem_of_find?_eq_some hf
      obtain ⟨rfl, rfl⟩ := isFor_iff.1 (List.find?_some hf)
      have hused := used_setPtr (L := L) h.sorted he none
      refine ⟨h.sorted.setPtr _ _ _, ?_⟩
      have hacc := h.accounted
      simp only [Accounted, hp, nodeSize, Option.elim] at hacc hused ⊢
      omega

theorem Sound.evictOne (h : Sound L capacity c) {pick : Nat × Nat} (he : c.evictOne L pick = some c') :
    Sound L capacity c' := by
  rw [TreeCache.evictOne] at he
  split at he
  · obtain rfl := Option.some.inj he
    exact h.invalidate _ _
  · cases he

theorem Sound.evict {picks : List (Nat × Nat)} (h : Sound L capacity c) (he : c.evict L picks = some c') :
    Sound L capacity c' := by
  induction picks generalizing c with
  | nil => cases he
  | cons pick picks ih =>
    rw [TreeCache.evict] at he
    split at he
    · cases he
    · rename_i c₁ h1
      have h1 := h.evictOne h1
      split at he
      · exact ih h1 he
      · exact Option.some.inj he ▸ h1

/-- The eviction after an insertion, if the count was negative before. -/
theorem Sound.evict_if (h : Sound L capacity c) {v : Int} {picks : List (Nat × Nat)}
    (he : (if v < 0 then c.evict L picks else some c) = some c') : Sound L capacity c' := by
  split at he
  · exact h.evict he
  · exact Option.some.inj he ▸ h

/-- An operation that puts a node in the place of a live one puts one with as many records. -/
def SameSize (c : TreeCache) : Op → Prop
  | .add page _ => ∀ e ∈ c.entries, isFor page.lowest (page.highest - 1) e = true → ∀ nd ∈ e.ptr,
      nd.records.length = page.records.length
  | .invalidate _ _ => True
  | .evict _ => True

instance (c : TreeCache) (op : Op) : Decidable (SameSize c op) := by
  cases op with
  | add page picks =>
    exact inferInstanceAs (Decidable (∀ e ∈ c.entries, isFor page.lowest (page.highest - 1) e = true → ∀ nd ∈ e.ptr,
      nd.records.length = page.records.length))
  | invalidate l t => exact inferInstanceAs (Decidable True)
  | evict picks => exact inferInstanceAs (Decidable True)

/-- Nodes consume the same if they have as many records. -/
theorem consumedCacheSize_eq_iff (nd nd' : InternalNode) :
    nd.consumedCacheSize L = nd'.consumedCacheSize L ↔ nd.records.length = nd'.records.length := by
  have hpos : 0 < L.internalEntrySize := by
    unfold Layout.internalEntrySize
    omega
  rw [InternalNode.consumedCacheSize, InternalNode.consumedCacheSize, Nat.add_left_cancel_iff]
  exact Nat.mul_left_inj hpos.ne'

/-- **One step**: the count stays right exactly if a replaced live node has as many records as the new one. -/
theorem Sound.step (h : Sound L capacity c) {op : Op} (hstep : c.step L op = some c') :
    Sorted c'.entries ∧ (c'.Accounted L capacity ↔ SameSize c op) := by
  have hdone : ∀ {c'}, Sound L capacity c' → SameSize c op → Sorted c'.entries ∧
      (c'.Accounted L capacity ↔ SameSize c op) :=
    fun h' hs => ⟨h'.sorted, iff_of_true h'.accounted hs⟩
  cases op with
  | invalidate l t =>
    obtain rfl := Option.some.inj hstep
    exact hdone (h.invalidate l t) trivial
  | evict picks => exact hdone (h.evict hstep) trivial
  | add page picks =>
    have hacc := h.accounted
    simp only [TreeCache.step, addToCache] at hstep
    split at hstep
    · -- a fresh entry
      rename_i es hadd
      obtain ⟨hsorted, hperm, hfree⟩ := addEntry_some h.sorted hadd
      refine hdone (Sound.evict_if ⟨hsorted, ?_⟩ hstep) fun e he hf => absurd hf (by rw [hfree e he]; simp)
      have hused : used L es = used L (⟨page.lowest, page.highest - 1, some page⟩ :: c.entries) := (hperm.map _).sum_nat
      rw [used_cons] at hused
      simp only [Accounted, nodeSize, Option.elim] at hacc hused ⊢
      omega
    · rename_i hadd
      obtain ⟨e, he, hf, huniq⟩ := addEntry_none h.sorted hadd
      have hr := isFor_iff.1 hf
      have hfind := findEntry_eq h.sorted he
      rw [hr.1, hr.2] at hfind
      have hused := used_setPtr (L := L) h.sorted he (some page)
      rw [hr.1, hr.2] at hused
      rw [hfind] at hstep
      simp only [hr, and_self, if_true] at hstep
      split at hstep
      · -- an invalidated entry
        rename_i hp
        refine hdone (Sound.evict_if ⟨h.sorted.setPtr _ _ _, ?_⟩ hstep) ?_
        · simp only [Accounted, hp, nodeSize, Option.elim] at hacc hused ⊢
          omega
        · intro x hx hfx nd hnd
          rw [Option.mem_def, huniq x hx hfx, hp] at hnd
          cases hnd
      · -- a live entry: the old node goes, and the count stays
        rename_i nd hp
        obtain rfl := Option.some.inj hstep
        refine ⟨h.sorted.setPtr _ _ _, ?_⟩
        have hsame : SameSize c (.add page picks) ↔ nd.consumedCacheSize L = page.consumedCacheSize L := by
          rw [consumedCacheSize_eq_iff]
          constructor
          · exact fun hs => hs e he hf nd hp
          · intro hs x hx hfx nd' hnd'
            rw [Option.mem_def, huniq x hx hfx, hp] at hnd'
            obtain rfl := Option.some.inj hnd'
            exact hs
        rw [hsame]
        simp only [Accounted, hp, nodeSize, Option.elim] at hacc hused ⊢
        omega

theorem sound_empty (L : Layout) (capacity : Nat) : Sound L capacity (empty capacity) :=
  ⟨List.Pairwise.nil, by simp [empty, Accounted, used]⟩

/-- **Index cache accounting.** In a run that puts no node in the place of a live one with another number of records,
`free_size` is the capacity less what the nodes in the cache consume, and the capacity once all entries are
invalidated; a further step keeps it so exactly if it does not either. -/
theorem cache_accounting {es : List Empty} (hrun : (machine L capacity).Run SameSize c es) :
    c.Accounted L capacity ∧ ((∀ e ∈ c.entries, e.ptr = none) → c.freeSize = capacity) ∧
      ∀ op c', c.step L op = some c' → (c'.Accounted L capacity ↔ SameSize c op) := by
  have hsound : Sound L capacity c := by
    refine hrun.invariant (I := fun c _ => Sound L capacity c) (sound_empty L capacity) ?_
    intro c es op c' es' _ h hs hstep
    obtain ⟨c₁, hc₁, he⟩ := Option.map_eq_some_iff.1 hstep
    obtain ⟨rfl, rfl⟩ := Prod.mk.inj he
    obtain ⟨hsorted, hacc⟩ := h.step hc₁
    exact ⟨hsorted, hacc.2 hs⟩
  exact ⟨hsound.accounted, hsound.accounted.free, fun op c' hstep => (hsound.step hstep).2⟩

/-- A node of the small build with the given records. -/
def page (records : List InternalEntry) : InternalNode := ⟨1, true, .null, .at 1, .null, 5, 9, records⟩

/-- The operations of a run, in which the node is read again. -/
def rereads (records records' : List InternalEntry) : List Op :=
  [.add (page records) [], .add (page records') [], .invalidate 5 8]

/-- With as many records, the count comes back to the capacity. -/
theorem cache_accounting_page : ∃ c es, (machine .small 1000).Run SameSize c es ∧ (∀ e ∈ c.entries, e.ptr = none) ∧
    c.freeSize = 1000 := by
  have hrun : ∃ c es, (machine .small 1000).exec (fun c op => decide (SameSize c op)) (empty 1000) []
      (rereads [⟨6, .at 2⟩] [⟨6, .at 2⟩]) = some (c, es) ∧ ∀ e ∈ c.entries, e.ptr = none := by
    refine ⟨_, _, rfl, by decide +kernel⟩
  obtain ⟨c, es, hexec, hno⟩ := hrun
  have hr : (machine .small 1000).Run SameSize c es :=
    Machine.Run.of_exec (I := fun _ => True) (fun _ h => of_decide_eq_true h) (fun _ _ _ => trivial) trivial .init hexec
  exact ⟨c, es, hr, hno, (cache_accounting hr).2.1 hno⟩

/-- After the node got one more record, the count ends above the capacity. -/
theorem cache_accounting_drifts : ∃ c es, (machine .small 1000).Run (fun _ _ => True) c es ∧
    (∀ e ∈ c.entries, e.ptr = none) ∧ c.freeSize ≠ 1000 ∧ ¬c.Accounted .small 1000 := by
  have hrun : ∃ c es, (machine .small 1000).exec (fun _ _ => true) (empty 1000) []
      (rereads [⟨6, .at 2⟩] [⟨6, .at 2⟩, ⟨7, .at 3⟩]) = some (c, es) ∧ (∀ e ∈ c.entries, e.ptr = none) ∧
        c.freeSize ≠ 1000 := by
    refine ⟨_, _, rfl, by decide +kernel, by decide +kernel⟩
  obtain ⟨c, es, hexec, hno, hne⟩ := hrun
  exact ⟨c, es,
    Machine.Run.of_exec (I := fun _ => True) (fun _ _ => trivial) (fun _ _ _ => trivial) trivial .init hexec, hno,
    hne, fun hacc => hne (hacc.free hno)⟩

end TreeCache

end Chime

import Chime.IdxCache
import Mathlib.Data.List.ReduceOption
import Mathlib.Tactic.Ring

/-!
# The ownership of the entries of the hotspot cache

An entry should be in the hash table or in the hands of the garbage queue, never in both (`Owned`). Filling an empty
slot keeps this. The replacement in a full bucket hands over the new entry in place of the old one, and the eviction
hands over a null pointer, so that the ownership is kept exactly by the operations that neither replace nor erase an
entry (`entry_ownership`).
-/

namespace Chime

namespace IdxCache

variable {S : IdxCacheSizes} {c c' : IdxCache} {id htIdx i : Nat}

variable (S) in
/-- The entry is in the hash table. -/
def InTable (c : IdxCache) (id : Nat) : Prop := ∃ htIdx < S.hashTableSize, some id ∈ c.hashTable htIdx

variable (S) in
/-- The number of entries in the hash table. -/
def entries (c : IdxCache) : Nat := ∑ htIdx ∈ Finset.range S.hashTableSize, (c.hashTable htIdx).countP (·.isSome)

variable (S) in
/-- What is in the table is neither retired nor deleted, what was removed is retired once, and `free_size` is the
capacity less what the entries consume. -/
structure Owned (c : IdxCache) : Prop where
  apart : ∀ id, c.InTable S id → some id ∉ c.cacheEntryGc ∧ .deleted id ∉ c.log
  retired : ∀ id, .removed id ∈ c.log → c.log.count (.retired (some id)) = 1
  free : c.freeSize = S.capacity - sizeofIdxCacheEntry * c.entries S

/-- There is nothing to evict: `free_size` is not negative, and the first two buckets that are picked have no entry to
erase. -/
def NothingToEvict (c : IdxCache) (picks : List (Nat × Nat)) : Prop :=
  0 ≤ c.freeSize ∧ ∀ pick ∈ picks.head?,
    (c.findLfuIdx (c.hashTable pick.1)).1 = none ∧ (c.findLfuIdx (c.hashTable pick.2)).1 = none

variable (S) in
/-- The operation neither replaces an entry of a full bucket nor erases one: an entry that is added finds an empty
slot, and `free_size` not negative; an eviction finds nothing to evict. -/
def KeepsEntries (c : IdxCache) : Op → Prop
  | .add leafAddr kvIdx _ _ =>
    let bucket := c.hashTable (getHashedCacheTableIndex S leafAddr kvIdx)
    isDisabled S ∨ (c.findEntry bucket leafAddr kvIdx).isSome ∨ 0 < c.delayCnt ∨ (none ∈ bucket ∧ 0 ≤ c.freeSize)
  | .search _ _ _ _ _ => True
  | .evict picks => c.NothingToEvict picks

instance (c : IdxCache) (picks : List (Nat × Nat)) : Decidable (c.NothingToEvict picks) := by
  unfold NothingToEvict
  infer_instance

instance (c : IdxCache) (op : Op) : Decidable (c.KeepsEntries S op) := by
  cases op with
  | add leafAddr kvIdx k picks => unfold KeepsEntries; infer_instance
  | search leafAddr lIdx rIdx k kvIdx => exact inferInstanceAs (Decidable True)
  | evict picks => exact inferInstanceAs (Decidable (c.NothingToEvict picks))

/-! ## Filling a slot -/

theorem setSlot_self (e : Option Nat) : (c.setSlot htIdx i e).hashTable htIdx = (c.hashTable htIdx).set i e :=
  Function.update_self ..

theorem setSlot_of_ne {ht : Nat} (h : ht ≠ htIdx) (e : Option Nat) :
    (c.setSlot htIdx i e).hashTable ht = c.hashTable ht :=
  Function.update_of_ne h ..

theorem countP_set_some {l : List (Option Nat)} (h : l[i]? = some none) (id : Nat) :
    (l.set i (some id)).countP (·.isSome) = l.countP (·.isSome) + 1 := by
  obtain ⟨hi, hget⟩ := List.getElem?_eq_some_iff.1 h
  rw [List.countP_set hi, hget]
  rfl

/-- An empty slot is filled. -/
theorem entries_setSlot (hht : htIdx < S.hashTableSize) (h : (c.hashTable htIdx)[i]? = some none) (id : Nat) :
    (c.setSlot htIdx i (some id)).entries S = c.entries S + 1 := by
  have hmem : htIdx ∈ Finset.range S.hashTableSize := Finset.mem_range.2 hht
  have hrest : ∀ x ∈ (Finset.range S.hashTableSize).erase htIdx,
      ((c.setSlot htIdx i (some id)).hashTable x).countP (·.isSome) = (c.hashTable x).countP (·.isSome) := by
    intro x hx
    rw [setSlot_of_ne (Finset.ne_of_mem_erase hx)]
  unfold entries
  rw [← Finset.add_sum_erase _ _ hmem, ← Finset.add_sum_erase _ _ hmem, setSlot_self, countP_set_some h,
    Finset.sum_congr rfl hrest]
  omega

variable (S) in
/-- Nothing was removed yet, and `free_size` is right. -/
structure Untouched (c : IdxCache) : Prop where
  gc : c.cacheEntryGc = []
  log : c.log = []
  free : c.freeSize = S.capacity - sizeofIdxCacheEntry * c.entries S

theorem Untouched.owned (h : c.Untouched S) : c.Owned S where
  apart id _ := by simp [h.gc, h.log]
  retired id hid := by simp [h.log] at hid
  free := h.free

theorem untouched_init (S : IdxCacheSizes) : (init S).Untouched S where
  gc := rfl
  log := rfl
  free := by simp [init, entries, List.countP_replicate]

/-! ## What an eviction leaves behind -/

/-- An entry was removed, and none was retired. -/
def Leaks (c : IdxCache) : Prop := (∃ id, .removed id ∈ c.log) ∧ ∀ id, .retired (some id) ∉ c.log

theorem Leaks.not_owned (h : c.Leaks) : ¬c.Owned S := by
  obtain ⟨⟨id, hid⟩, hno⟩ := h
  intro ho
  have hone := ho.retired id hid
  rw [List.count_eq_zero_of_not_mem (hno id)] at hone
  cases hone

/-- The slot of the least frequency has an entry. -/
theorem findLfuIdx_some {bucket : List (Option Nat)} (h : (c.findLfuIdx bucket).1 = some i) :
    ∃ id, bucket[i]? = some (some id) := by
  have hfold : ∀ i, (c.findLfuIdx bucket).1 = some i → ∃ id, (some id, i) ∈ bucket.zipIdx := by
    unfold findLfuIdx
    refine List.foldlRecOn (motive := fun best : Option Nat × Int => ∀ i, best.1 = some i →
      ∃ id, (some id, i) ∈ bucket.zipIdx)
      bucket.zipIdx _ (fun i hi => by cases hi) ?_
    rintro best ih ⟨e, j⟩ hx i hi
    cases e with
    | none => exact ih i hi
    | some id =>
      simp only at hi
      split at hi
      · cases hi
        exact ⟨id, hx⟩
      · exact ih i hi
  obtain ⟨id, hid⟩ := hfold i h
  exact ⟨id, List.mk_mem_zipIdx_iff_getElem?.1 hid⟩

theorem mem_log_safelyDelete {e : Option Nat} {ev : HeapEvent} : ev ∈ (c.safelyDelete S e).log ↔
    (∃ id, ev = .deleted id ∧
      some id ∈ (c.cacheEntryGc ++ [e]).take ((c.cacheEntryGc ++ [e]).length - S.safelyFreeEpoch)) ∨
    ev = .retired e ∨ ev ∈ c.log := by
  simp only [safelyDelete, List.mem_append, List.mem_reverse, List.mem_map, List.reduceOption_mem_iff, List.mem_cons]
  constructor
  · rintro (⟨id, hid, rfl⟩ | h)
    · exact .inl ⟨id, rfl, hid⟩
    · exact .inr h
  · rintro (⟨id, rfl, hid⟩ | h)
    · exact .inl ⟨id, hid, rfl⟩
    · exact .inr h

/-- An erased entry is removed and not retired. -/
theorem erase_leaks (hi : i < (c.hashTable htIdx).length) (hno : ∀ id, .retired (some id) ∉ c.log) (id : Nat) :
    (c.erase S htIdx i id).Leaks := by
  have hslot : ((c.setSlot htIdx i none).hashTable htIdx).getD i none = none := by
    simp [setSlot_self, hi]
  constructor
  · exact ⟨id, mem_log_safelyDelete.2 (.inr (.inr List.mem_cons_self))⟩
  · intro id' hret
    rcases mem_log_safelyDelete.1 hret with ⟨id₁, heq, -⟩ | heq | hold
    · cases heq
    · simp only [HeapEvent.retired.injEq] at heq
      rw [hslot] at heq
      cases heq
    · rcases List.mem_cons.1 hold with heq | hold
      · cases heq
      · exact hno id' hold

/-- The entry of the least frequency is erased. -/
theorem erase_lfu_leaks {htIdx i : Nat} (hno : ∀ id, .retired (some id) ∉ c.log)
    (hlfu : (c.findLfuIdx (c.hashTable htIdx)).1 = some i) :
    ∃ id, (c.hashTable htIdx).getD i none = some id ∧ (c.erase S htIdx i id).Leaks := by
  obtain ⟨id, hid⟩ := findLfuIdx_some hlfu
  obtain ⟨hi, -⟩ := List.getElem?_eq_some_iff.1 hid
  refine ⟨id, ?_, erase_leaks hi hno id⟩
  rw [List.getD_eq_getElem?_getD, hid, Option.getD_some]

/-- **An eviction of one entry** leaks, unless there is nothing to erase. -/
theorem evictOne_cases {pick : Nat × Nat} (hno : ∀ id, .retired (some id) ∉ c.log) (h : c.evictOne S pick = some c') :
    (c' = c ∧ (c.findLfuIdx (c.hashTable pick.1)).1 = none ∧ (c.findLfuIdx (c.hashTable pick.2)).1 = none) ∨
      (c'.Leaks ∧ ¬((c.findLfuIdx (c.hashTable pick.1)).1 = none ∧ (c.findLfuIdx (c.hashTable pick.2)).1 = none)) := by
  unfold evictOne at h
  split at h
  · simp only at h
    split at h
    · rename_i hnone
      exact .inl ⟨(Option.some.inj h).symm, hnone⟩
    · rename_i hsome
      refine .inr ⟨?_, hsome⟩
      split at h
      · cases h
      · rename_i i hmin
        by_cases hlt : (c.findLfuIdx (c.hashTable pick.1)).2 < (c.findLfuIdx (c.hashTable pick.2)).2
        · simp only [hlt, if_true] at h hmin
          obtain ⟨id, hid, hleaks⟩ := erase_lfu_leaks (S := S) hno hmin
          simp only [hid] at h
          cases h
          exact hleaks
        · simp only [hlt, if_false] at h hmin
          obtain ⟨id, hid, hleaks⟩ := erase_lfu_leaks (S := S) hno hmin
          simp only [hid] at h
          cases h
          exact hleaks
  · cases h

theorem Leaks.evictLoop {picks : List (Nat × Nat)} (hl : c.Leaks) (h : evictLoop S c picks = some c') : c'.Leaks := by
  induction picks generalizing c with
  | nil => cases h
  | cons pick picks ih =>
    unfold IdxCache.evictLoop at h
    split at h
    · cases h
    · rename_i c₁ hone
      have hl₁ : c₁.Leaks := by
        rcases evictOne_cases hl.2 hone with ⟨rfl, -⟩ | ⟨hl₁, -⟩
        · exact hl
        · exact hl₁
      split at h
      · exact ih hl₁ h
      · cases h
        exact hl₁

/-- **The loop of evictions** leaks, unless there is nothing to evict. -/
theorem evictLoop_cases {picks : List (Nat × Nat)} (hno : ∀ id, .retired (some id) ∉ c.log)
    (h : evictLoop S c picks = some c') :
    (c' = c ∧ c.NothingToEvict picks) ∨ (c'.Leaks ∧ ¬c.NothingToEvict picks) := by
  induction picks with
  | nil => cases h
  | cons pick picks ih =>
    unfold evictLoop at h
    split at h
    · cases h
    · rename_i c₁ hone
      rcases evictOne_cases hno hone with ⟨rfl, hnone⟩ | ⟨hl₁, hsome⟩
      · split at h
        · -- the loop goes on with what it has
          rename_i hneg
          refine .inr ⟨?_, fun hnot => absurd hnot.1 (not_le.2 hneg)⟩
          rcases ih h with ⟨-, hnot⟩ | ⟨hl, -⟩
          · exact absurd hnot.1 (not_le.2 hneg)
          · exact hl
        · rename_i hpos
          cases h
          refine .inl ⟨rfl, not_lt.1 hpos, fun p hp => ?_⟩
          cases hp
          exact hnone
      · refine .inr ⟨?_, fun hnot => hsome (hnot.2 pick rfl)⟩
        split at h
        · exact hl₁.evictLoop h
        · cases h
          exact hl₁

/-! ## The operations -/

/-- The new entry is in the table, and retired. -/
theorem replaceLfu_not_owned (hht : htIdx < S.hashTableSize) (hi : i < (c.hashTable htIdx).length) (id : Nat) :
    ¬(c.replaceLfu S htIdx i id).Owned S := by
  have hslot : ((c.setSlot htIdx i (some id)).hashTable htIdx).getD i none = some id := by
    simp [setSlot_self, hi]
  have htable : (c.replaceLfu S htIdx i id).InTable S id := by
    refine ⟨htIdx, hht, ?_⟩
    unfold replaceLfu safelyDelete
    simp only [setSlot_self]
    exact List.mem_set hi (some id)
  intro ho
  obtain ⟨hgc, hlog⟩ := ho.apart id htable
  unfold replaceLfu at hgc hlog
  simp only [hslot] at hgc hlog
  -- the queue holds it, or has let go of it
  have hqueue : some id ∈ c.cacheEntryGc ++ [some id] := List.mem_append_right _ List.mem_cons_self
  rw [← List.take_append_drop ((c.cacheEntryGc ++ [some id]).length - S.safelyFreeEpoch)
    (c.cacheEntryGc ++ [some id])] at hqueue
  rcases List.mem_append.1 hqueue with hpop | hkept
  · exact hlog (mem_log_safelyDelete.2 (.inl ⟨id, rfl, hpop⟩))
  · exact hgc hkept

theorem Untouched.evict (h : c.Untouched S) {picks : List (Nat × Nat)} (he : c.evict S picks = some c') :
    (c.NothingToEvict picks ∧ c'.Untouched S) ∨ (¬c.NothingToEvict picks ∧ ¬c'.Owned S) := by
  have hno : ∀ id, .retired (some id) ∉ ({ c with delayCnt := 10 } : IdxCache).log := by simp [h.log]
  rcases evictLoop_cases hno he with ⟨rfl, hnot⟩ | ⟨hl, hsome⟩
  · exact .inl ⟨hnot, h.gc, h.log, h.free⟩
  · exact .inr ⟨hsome, hl.not_owned⟩

/-- **An empty slot is filled**; where `free_size` was negative already, an entry is erased. -/
theorem Untouched.insertEmpty (h : c.Untouched S) (hht : htIdx < S.hashTableSize)
    (hi : (c.hashTable htIdx)[i]? = some none)
    {picks : List (Nat × Nat)} (he : c.insertEmpty S htIdx i id picks = some c') :
    (0 ≤ c.freeSize ∧ c'.Untouched S) ∨ (¬0 ≤ c.freeSize ∧ ¬c'.Owned S) := by
  have hcount := entries_setSlot hht hi id
  have hfree := h.free
  -- the count has one entry more
  have hfilled : Untouched S { c.setSlot htIdx i (some id) with freeSize := c.freeSize - sizeofIdxCacheEntry } := by
    refine ⟨h.gc, h.log, ?_⟩
    have hentries : entries S { c.setSlot htIdx i (some id) with freeSize := c.freeSize - sizeofIdxCacheEntry } =
        c.entries S + 1 := hcount
    rw [hentries, hfree]
    push_cast
    ring
  unfold IdxCache.insertEmpty at he
  simp only at he
  split at he
  · rename_i hneg
    refine .inr ⟨not_le.2 hneg, ?_⟩
    rcases hfilled.evict he with ⟨hnot, -⟩ | ⟨-, howned⟩
    · have := hnot.1
      have hsize : (0 : Int) ≤ sizeofIdxCacheEntry := Int.natCast_nonneg _
      simp only at this
      omega
    · exact howned
  · rename_i hpos
    cases he
    exact .inl ⟨not_lt.1 hpos, hfilled⟩

/-- No entry is inserted: the cache is disabled, the slot of the leaf has an entry, or the delay is not over. -/
def SkipsInsertion (S : IdxCacheSizes) (c : IdxCache) (leafAddr : UInt64) (kvIdx : Nat) : Prop :=
  isDisabled S ∨ (c.findEntry (c.hashTable (getHashedCacheTableIndex S leafAddr kvIdx)) leafAddr kvIdx).isSome ∨
    0 < c.delayCnt

/-- **An insertion**: without one the table and the queue are left; the new entry fills an empty slot, or it takes the
place of an entry of a full bucket. -/
theorem addToCache_cases {leafAddr : UInt64} {kvIdx k : Nat} {picks : List (Nat × Nat)} {found : Bool}
    (h : c.addToCache S leafAddr kvIdx k picks = some (c', found)) :
    (SkipsInsertion S c leafAddr kvIdx ∧ c'.hashTable = c.hashTable ∧ c'.cacheEntryGc = c.cacheEntryGc ∧
      c'.log = c.log ∧ c'.freeSize = c.freeSize) ∨
    (¬SkipsInsertion S c leafAddr kvIdx ∧ ∃ i,
      ((c.hashTable (getHashedCacheTableIndex S leafAddr kvIdx))[i]? = some none ∧
        (alloc { c with delayCnt := c.delayCnt - 1 } leafAddr kvIdx k).insertEmpty S
          (getHashedCacheTableIndex S leafAddr kvIdx) i c.fresh picks = some c') ∨
      (none ∉ c.hashTable (getHashedCacheTableIndex S leafAddr kvIdx) ∧
        i < (c.hashTable (getHashedCacheTableIndex S leafAddr kvIdx)).length ∧
        c' = (alloc { c with delayCnt := c.delayCnt - 1 } leafAddr kvIdx k).replaceLfu S
          (getHashedCacheTableIndex S leafAddr kvIdx) i c.fresh)) := by
  unfold addToCache at h
  simp only at h
  split at h
  · rename_i hdis
    cases h
    exact .inl ⟨.inl hdis, rfl, rfl, rfl, rfl⟩
  · rename_i hdis
    split at h
    · rename_i id hfind
      cases h
      exact .inl ⟨.inr (.inl (by rw [hfind]; rfl)), rfl, rfl, rfl, rfl⟩
    · rename_i hfind
      split at h
      · rename_i hdelay
        cases h
        exact .inl ⟨.inr (.inr hdelay), rfl, rfl, rfl, rfl⟩
      · rename_i hdelay
        have hskip : ¬SkipsInsertion S c leafAddr kvIdx := by
          simp [SkipsInsertion, hdis, hfind, hdelay]
        refine .inr ⟨hskip, ?_⟩
        split at h
        · rename_i i hidx
          obtain ⟨c₂, hins, hc₂⟩ := Option.map_eq_some_iff.1 h
          cases hc₂
          obtain ⟨hlen, hnone, -⟩ := List.findIdx?_eq_some_iff_getElem.1 hidx
          exact ⟨i, .inl ⟨List.getElem?_eq_some_iff.2 ⟨hlen, Option.isNone_iff_eq_none.1 hnone⟩, hins⟩⟩
        · rename_i hfull
          have hno : none ∉ c.hashTable (getHashedCacheTableIndex S leafAddr kvIdx) := fun hmem => by
            have := List.findIdx?_eq_none_iff.1 hfull none hmem
            cases this
          split at h
          · cases h
          · rename_i i hlfu
            cases h
            obtain ⟨id, hid⟩ := findLfuIdx_some hlfu
            obtain ⟨hlen, -⟩ := List.getElem?_eq_some_iff.1 hid
            exact ⟨i, .inr ⟨hno, hlen, rfl⟩⟩

theorem keepsEntries_add_iff {leafAddr : UInt64} {kvIdx k : Nat} {picks : List (Nat × Nat)} :
    c.KeepsEntries S (.add leafAddr kvIdx k picks) ↔ SkipsInsertion S c leafAddr kvIdx ∨
      (none ∈ c.hashTable (getHashedCacheTableIndex S leafAddr kvIdx) ∧ 0 ≤ c.freeSize) := by
  simp only [KeepsEntries, SkipsInsertion, or_assoc]

theorem Untouched.congr (h : c.Untouched S) (htable : c'.hashTable = c.hashTable)
    (hgc : c'.cacheEntryGc = c.cacheEntryGc) (hlog : c'.log = c.log) (hfree : c'.freeSize = c.freeSize) :
    c'.Untouched S where
  gc := hgc.trans h.gc
  log := hlog.trans h.log
  free := by rw [hfree, h.free, entries, entries, htable]

/-- **One operation** keeps the ownership exactly if it neither replaces nor erases an entry. -/
theorem Untouched.step (h : c.Untouched S) {op : Op} (hstep : c.step S op = some c') :
    (c.KeepsEntries S op ∧ c'.Untouched S) ∨ (¬c.KeepsEntries S op ∧ ¬c'.Owned S) := by
  cases op with
  | search leafAddr lIdx rIdx k kvIdx =>
    simp only [IdxCache.step] at hstep
    split at hstep
    · cases hstep
      exact .inl ⟨trivial, h⟩
    · cases hstep
  | evict picks => exact h.evict hstep
  | add leafAddr kvIdx k picks =>
    obtain ⟨⟨c₁, found⟩, hadd, rfl⟩ := Option.map_eq_some_iff.1 hstep
    have hht : getHashedCacheTableIndex S leafAddr kvIdx < S.hashTableSize := Nat.mod_lt _ S.hashTableSize_pos
    have hnew : Untouched S (alloc { c with delayCnt := c.delayCnt - 1 } leafAddr kvIdx k) :=
      h.congr rfl rfl rfl rfl
    rw [keepsEntries_add_iff]
    rcases addToCache_cases hadd with ⟨hskip, htable, hgc, hlog, hfree⟩ | ⟨hskip, i, ⟨hslot, hins⟩ | ⟨hno, hi, rfl⟩⟩
    · exact .inl ⟨.inl hskip, h.congr htable hgc hlog hfree⟩
    · rcases hnew.insertEmpty hht hslot hins with ⟨hpos, h'⟩ | ⟨hneg, hnot⟩
      · exact .inl ⟨.inr ⟨List.mem_of_getElem? hslot, hpos⟩, h'⟩
      · exact .inr ⟨not_or.2 ⟨hskip, fun hk => hneg hk.2⟩, hnot⟩
    · have hnot := replaceLfu_not_owned (c := alloc { c with delayCnt := c.delayCnt - 1 } leafAddr kvIdx k) hht hi c.fresh
      exact .inr ⟨not_or.2 ⟨hskip, fun hk => hno hk.1⟩, hnot⟩

/-- **Hotspot cache ownership.** In a run that neither replaces an entry of a full bucket nor erases one, no entry of
the table is retired or deleted, what was removed is retired once, and `free_size` is right; a further operation keeps
it so exactly if it does not either. -/
theorem entry_ownership {es : List Empty} (hrun : (machine S).Run (fun c op => c.KeepsEntries S op) c es) :
    c.Owned S ∧ ∀ op c', c.step S op = some c' → (c'.Owned S ↔ c.KeepsEntries S op) := by
  obtain ⟨howned, hnext⟩ := hrun.exact_guard (I := fun c _ => Untouched S c) (P := fun c _ => Owned S c)
    (untouched_init S) Untouched.owned fun h he => by
      obtain ⟨c', hc', heq⟩ := Option.map_eq_some_iff.1 he
      obtain ⟨rfl, rfl⟩ := Prod.mk.inj heq
      exact h.step hc'
  refine ⟨howned, fun op c' hstep => hnext op c' [] ?_⟩
  simp only [machine, hstep, Option.map_some]

/-- Insertions of slots of different leaves into one bucket of the default build. -/
def fillBucket (n : Nat) : List Op := (List.range n).map fun i => .add (.ofNat (1000000 * i)) 0 1 []

/-- Two entries of one bucket, and a hit. -/
theorem entry_ownership_two : ∃ c es, (machine .default).Run (fun c op => c.KeepsEntries .default op) c es ∧
    c.Owned .default ∧ c.freeSize = 30 * 1024 * 1024 - 32 := by
  have hexec : ∃ c es, (machine .default).exec (fun c op => decide (c.KeepsEntries .default op)) (init .default) []
      (fillBucket 2 ++ [.search 0 0 3 1 (some 0)]) = some (c, es) ∧ c.freeSize = 30 * 1024 * 1024 - 32 := by
    refine ⟨_, _, rfl, by decide +kernel⟩
  obtain ⟨c, es, hexec, hfree⟩ := hexec
  have hrun : (machine .default).Run (fun c op => c.KeepsEntries .default op) c es :=
    Machine.Run.of_exec (I := fun _ => True) (fun _ h => of_decide_eq_true h) (fun _ _ _ => trivial) trivial .init hexec
  exact ⟨c, es, hrun, (entry_ownership hrun).1, hfree⟩

/-- **A retired entry is in the table**: the seventeenth entry of a bucket takes the place of the first one, and is put
into the garbage queue. -/
theorem not_entry_ownership : ∃ c es, (machine .default).Run (fun _ _ => True) c es ∧
    c.InTable .default 16 ∧ some 16 ∈ c.cacheEntryGc ∧ .removed 0 ∈ c.log ∧ .retired (some 0) ∉ c.log ∧
    ¬c.Owned .default := by
  have hexec : ∃ c es, (machine .default).exec (fun _ _ => true) (init .default) [] (fillBucket 17) = some (c, es) ∧
      some 16 ∈ c.hashTable 0 ∧ some 16 ∈ c.cacheEntryGc ∧ .removed 0 ∈ c.log ∧ .retired (some 0) ∉ c.log := by
    refine ⟨_, _, rfl, by decide +kernel, by decide +kernel, by decide +kernel, by decide +kernel⟩
  obtain ⟨c, es, hexec, hslot, hgc, hremoved, hretired⟩ := hexec
  have htable : c.InTable .default 16 := ⟨0, by decide, hslot⟩
  have hrun : (machine .default).Run (fun _ _ => True) c es :=
    Machine.Run.of_exec (I := fun _ => True) (fun _ _ => trivial) (fun _ _ _ => trivial) trivial .init hexec
  exact ⟨c, es, hrun, htable, hgc, hremoved, hretired, fun ho => (ho.apart 16 htable).1 hgc⟩

end IdxCache

end Chime

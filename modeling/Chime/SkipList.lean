import Chime.CacheAccounting
import Chime.Lib.Linearizability
import Mathlib.Data.List.Sort
import Mathlib.Data.Prod.Lex

/-!
# The skip list of the index cache (`inlineskiplist.h`)

Any number of threads insert keys and read at the same time. Each step is an atomic access to `max_height_` or to a link
of a node; a relaxed load of `max_height_` may return an old value, and a weak compare-and-swap may fail without a
reason. Heights are chosen at random, and are an argument here.

What the calls stand for is a sorted list of keys (`orderedList`), as the index cache has it (`addEntry_eq`,
`findEntry_eq`, `next_eq`).
-/

namespace Chime
namespace SkipList

open SeqObject

def kMaxPossibleHeight : Nat := 32

/-- `Node*`, other than `nullptr`. -/
abbrev Node := Nat

/-- `head_` -/
def head : Node := 0

/-- `Splice`. Entries that are not set yet are those of an empty list. -/
structure Splice where
  height : Nat
  prev : Nat → Node
  next : Nat → Option Node

/-- The splice of a level is found. -/
def Splice.set (sp : Splice) (i : Nat) (prev : Node) (next : Option Node) : Splice :=
  { sp with prev := Function.update sp.prev i prev, next := Function.update sp.next i next }

/-- The calls that the index cache makes; `next` is a call of `Iterator::Next` at a node with this key. -/
inductive Op (α : Type)
  | insert (key : α)
  | seek (target : α)
  | next (key : α)
  deriving DecidableEq, Repr

/-- What `InsertConcurrently` returns, and where an iterator stands. -/
inductive Res (α : Type)
  | inserted (b : Bool)
  | at (key : Option α)
  deriving DecidableEq, Repr

variable {α : Type}

/-- Where a thread stands. In an insertion `x` is the new node. -/
inductive Pc (α : Type)
  | idle
  /-- `max_height_.load()` -/
  | load (x : Node)
  /-- `max_height_.compare_exchange_weak` -/
  | raise (x : Node) (maxHeight : Nat)
  /-- `FindSpliceForLevel` in `RecomputeSpliceLevels` -/
  | recompute (x : Node) (sp : Splice) (i : Nat) (before : Node)
  /-- the tests for duplicates, and `NoBarrier_SetNext` -/
  | link (x : Node) (sp : Splice) (i : Nat) (valid : Bool)
  /-- `CASNext` -/
  | cas (x : Node) (sp : Splice) (i : Nat) (valid : Bool)
  /-- `FindSpliceForLevel` after a `CASNext` that failed -/
  | refind (x : Node) (sp : Splice) (i : Nat) (before : Node) (valid : Bool)
  | inserted (key : α) (res : Bool)
  /-- `GetMaxHeight` of `FindGreaterOrEqual` -/
  | height (target : α)
  | seek (target : α) (x : Node) (level : Nat) (lastBigger : Option Node)
  /-- `Iterator::Next` -/
  | advance (n : Node)
  | found (op : Op α) (n : Option Node)
  /-- an assertion has failed -/
  | failed

/-- The nodes, with `head_`, and what is in them. -/
structure Memory (α : Type) where
  size : Nat
  key : Node → α
  height : Node → Nat
  /-- `Next(level)` -/
  next : Node → Nat → Option Node
  maxHeight : Nat

structure State (α : Type) where
  mem : Memory α
  pcs : Nat → Pc α
  /-- `node_` of the iterator of a thread -/
  iter : Nat → Option Node

/-- A call of a thread, its next step, or its return. -/
inductive Action (α : Type)
  /-- `AllocateKey`, and `InsertConcurrently` of the key; `height` is what `RandomHeight` returns -/
  | insert (t : Nat) (key : α) (height : Nat)
  | seek (t : Nat) (target : α)
  | next (t : Nat)
  /-- `loaded`: what a load of `max_height_` returns; `fails`: a weak compare-and-swap fails -/
  | step (t : Nat) (loaded : Nat) (fails : Bool)
  | ret (t : Nat)
  deriving DecidableEq, Repr

namespace Memory

/-- `NoBarrier_SetNext`, and a `CASNext` that succeeds. -/
def setNext (m : Memory α) (n : Node) (level : Nat) (next : Option Node) : Memory α :=
  { m with next := Function.update m.next n (Function.update (m.next n) level next) }

/-- `AllocateNode`, with the key that is filled in. -/
def allocate (m : Memory α) (key : α) (height : Nat) : Memory α :=
  { m with
    size := m.size + 1
    key := Function.update m.key m.size key
    height := Function.update m.height m.size height }

variable [LinearOrder α] (m : Memory α)

/-- The assertions about a link that is read in a search for a key. -/
def ordered (key : α) (x : Node) (next : Option Node) : Bool :=
  x = head ∨ (next.all (fun n => m.key x < m.key n) ∧ m.key x < key)

/-- One turn of `FindSpliceForLevel`: where the search goes on; `none`: the splice is found. -/
def findSpliceForLevel (key : α) (next after : Option Node) : Option Node :=
  next.filter fun n => some n ≠ after ∧ m.key n < key

/-- The key is in the list. -/
def duplicate (x : Node) (sp : Splice) : Bool :=
  (sp.next 0).any (fun n => m.key n ≤ m.key x) ∨ (sp.prev 0 ≠ head ∧ m.key x ≤ m.key (sp.prev 0))

/-- The assertions before a link. -/
def brackets (x : Node) (sp : Splice) (i : Nat) : Bool :=
  (sp.next i).all (fun n => m.key x < m.key n) ∧ (sp.prev i = head ∨ m.key (sp.prev i) < m.key x)

/-- The assertions about a splice that is valid after an insertion. -/
def bracketed (x : Node) (sp : Splice) : Bool :=
  sp.prev sp.height = head ∧ sp.next sp.height = none ∧ ∀ i < sp.height,
    (sp.next i).all (fun n => m.key x < m.key n) ∧ (sp.prev i = head ∨ m.key (sp.prev i) ≤ m.key x) ∧
    (sp.prev (i + 1) = sp.prev i ∨ sp.prev (i + 1) = head ∨ m.key (sp.prev (i + 1)) < m.key (sp.prev i)) ∧
    (sp.next (i + 1) = sp.next i ∨ (sp.next (i + 1)).all fun n' => (sp.next i).any fun n => m.key n < m.key n')

/-- `cmp` of `FindGreaterOrEqual`. -/
def cmp (target : α) (next lastBigger : Option Node) : Ordering :=
  match next with
  | none => .gt
  | some n => if next = lastBigger then .gt else compare (m.key n) target

/-- The next step of a call. -/
def step (loaded : Nat) (fails : Bool) : Pc α → Option (Memory α × Pc α)
  | .load x => if 1 ≤ loaded ∧ loaded ≤ m.maxHeight then some (m, .raise x loaded) else none
  | .raise x maxHeight =>
    if maxHeight < m.height x then
      if m.maxHeight = maxHeight ∧ !fails then
        some ({ m with maxHeight := m.height x }, .raise x (m.height x))
      else some (m, .raise x m.maxHeight)
    -- the assertion about the height, and the length of `prev_` and `next_`
    else if maxHeight < kMaxPossibleHeight then
      some (m, .recompute x ⟨maxHeight, fun _ => head, fun _ => none⟩ (maxHeight - 1) head)
    else some (m, .failed)
  | .recompute x sp i before =>
    let next := m.next before i
    if m.ordered (m.key x) before next ∧ next ≠ some head then
      match m.findSpliceForLevel (m.key x) next (sp.next (i + 1)) with
      | some n => some (m, .recompute x sp i n)
      | none =>
        let sp := sp.set i before next
        match i with
        | 0 => some (m, .link x sp 0 true)
        | i + 1 => some (m, .recompute x sp i (sp.prev (i + 1)))
    else some (m, .failed)
  | .link x sp i valid =>
    if i < m.height x then
      if i = 0 ∧ m.duplicate x sp then some (m, .inserted (m.key x) false)
      else if m.brackets x sp i then some (m.setNext x i (sp.next i), .cas x sp i valid)
      else some (m, .failed)
    else if valid ∧ ¬m.bracketed x { sp with prev := fun i => if i < m.height x then x else sp.prev i } then
      some (m, .failed)
    else some (m, .inserted (m.key x) true)
  | .cas x sp i valid =>
    if m.next (sp.prev i) i = sp.next i then some (m.setNext (sp.prev i) i (some x), .link x sp (i + 1) valid)
    else some (m, .refind x sp i (sp.prev i) valid)
  | .refind x sp i before valid =>
    let next := m.next before i
    if m.ordered (m.key x) before next ∧ next ≠ some head then
      match m.findSpliceForLevel (m.key x) next none with
      | some n => some (m, .refind x sp i n valid)
      | none => some (m, .link x (sp.set i before next) i (valid && i = 0))
    else some (m, .failed)
  | .height target => if 1 ≤ loaded ∧ loaded ≤ m.maxHeight then some (m, .seek target head (loaded - 1) none) else none
  | .seek target x level lastBigger =>
    let next := m.next x level
    if m.ordered target x next then
      let cmp := m.cmp target next lastBigger
      if cmp = .eq ∨ (cmp = .gt ∧ level = 0) then some (m, .found (.seek target) next)
      else
        match cmp, next with
        | .lt, some n => some (m, .seek target n level lastBigger)
        | _, _ => some (m, .seek target x (level - 1) next)
    else some (m, .failed)
  | .advance n => some (m, .found (.next (m.key n)) (m.next n 0))
  | .idle | .inserted _ _ | .found _ _ | .failed => none

end Memory

variable [LinearOrder α]

/-- A step of a thread; the events are the calls and the returns. -/
def step (kMaxHeight : Nat) (s : State α) : Action α → Option (State α × List (Call (Op α) (Res α)))
  | .insert t key height =>
    match s.pcs t with
    | .idle =>
      if 1 ≤ height ∧ height ≤ kMaxHeight then
        some ({ s with mem := s.mem.allocate key height, pcs := Function.update s.pcs t (.load s.mem.size) },
          [.invoke t (.insert key)])
      else none
    | _ => none
  | .seek t target =>
    match s.pcs t with
    | .idle => some ({ s with pcs := Function.update s.pcs t (.height target) }, [.invoke t (.seek target)])
    | _ => none
  | .next t =>
    match s.pcs t, s.iter t with
    | .idle, some n =>
      some ({ s with pcs := Function.update s.pcs t (.advance n) }, [.invoke t (.next (s.mem.key n))])
    | _, _ => none
  | .step t loaded fails =>
    (s.mem.step loaded fails (s.pcs t)).map fun x => ({ s with mem := x.1, pcs := Function.update s.pcs t x.2 }, [])
  | .ret t =>
    match s.pcs t with
    | .inserted key res => some ({ s with pcs := Function.update s.pcs t .idle }, [.ret t (.insert key) (.inserted res)])
    | .found op n =>
      some ({ s with pcs := Function.update s.pcs t .idle, iter := Function.update s.iter t n },
        [.ret t op (.at (n.map s.mem.key))])
    | _ => none

/-- An empty list with heights up to `kMaxHeight`; `unset` is in nodes whose key is not filled in. -/
def machine (kMaxHeight : Nat) (unset : α) : Machine (State α) (Action α) (Call (Op α) (Res α)) :=
  ⟨⟨⟨1, fun _ => unset, fun _ => kMaxHeight, fun _ _ => none, 1⟩, fun _ => .idle, fun _ => none⟩, step kMaxHeight⟩

/-- A list of keys in their order. -/
def orderedList (α : Type) [LinearOrder α] : SeqObject (List α) (Op α) (Res α) where
  init := []
  apply
    | .insert key, keys =>
      if key ∈ keys then some (keys, .inserted false) else some (keys.orderedInsert (· ≤ ·) key, .inserted true)
    | .seek target, keys => some (keys, .at (keys.find? (target ≤ ·)))
    | .next key, keys => some (keys, .at (keys.find? (key < ·)))

/-! ## The entries of the index cache -/

/-- The key of an entry, in the order of `TreeCacheEntryComparator`. -/
def entryKey (e : TreeCacheEntry) : Nat ×ₗ Natᵒᵈ := toLex (e.toKey, .toDual e.fromKey)

theorem before_iff_lt {a b : TreeCacheEntry} : a.before b = true ↔ entryKey a < entryKey b := by
  rw [TreeCacheEntry.before, decide_eq_true_eq, entryKey, entryKey, Prod.Lex.toLex_lt_toLex]
  rfl

theorem isFor_iff_eq {a b : TreeCacheEntry} : a.isFor b.fromKey b.toKey = true ↔ entryKey a = entryKey b := by
  rw [TreeCacheEntry.isFor, decide_eq_true_eq, entryKey, entryKey, toLex_inj, Prod.mk.injEq, OrderDual.toDual_inj]
  exact and_comm

/-- **`add_entry`** of the index cache is the insert of the sorted list. -/
theorem addEntry_eq (c : TreeCache) (e : TreeCacheEntry) :
    (orderedList _).apply (.insert (entryKey e)) (c.entries.map entryKey) =
      some (match c.addEntry e with
        | some entries => (entries.map entryKey, .inserted true)
        | none => (c.entries.map entryKey, .inserted false)) := by
  have hmem : entryKey e ∈ c.entries.map entryKey ↔ c.entries.any (TreeCacheEntry.isFor e.fromKey e.toKey) = true := by
    rw [List.mem_map, List.any_eq_true]
    exact exists_congr fun a => and_congr_right fun _ => isFor_iff_eq.symm
  rw [TreeCache.addEntry]
  by_cases hany : c.entries.any (TreeCacheEntry.isFor e.fromKey e.toKey) = true
  · rw [if_pos hany]
    exact if_pos (hmem.2 hany)
  · rw [if_neg hany]
    refine (if_neg fun h => hany (hmem.1 h)).trans ?_
    have hp : (fun b => decide ¬entryKey e ≤ b) ∘ entryKey = fun a => a.before e := by
      funext a
      rw [Function.comp_apply, Bool.eq_iff_iff, decide_eq_true_eq, not_le, before_iff_lt]
    simp only [List.orderedInsert_eq_take_drop, List.takeWhile_map, List.dropWhile_map, hp, List.map_append, List.map_cons]

/-- **`find_entry`** of the index cache is the `Seek` of the sorted list. -/
theorem findEntry_eq (c : TreeCache) (fromKey toKey : Nat) :
    (orderedList _).apply (.seek (entryKey ⟨fromKey, toKey, none⟩)) (c.entries.map entryKey) =
      some (c.entries.map entryKey, .at ((c.findEntry fromKey toKey).map entryKey)) := by
  have hp : (fun b => decide (entryKey ⟨fromKey, toKey, none⟩ ≤ b)) ∘ entryKey =
      fun e => !e.before ⟨fromKey, toKey, none⟩ := by
    funext a
    rw [Function.comp_apply, Bool.eq_iff_iff, decide_eq_true_eq, Bool.not_eq_true', ← Bool.not_eq_true, before_iff_lt,
      not_lt]
  simp only [orderedList, TreeCache.findEntry, List.find?_map, hp]

/-- **`Next`** leads to the entry behind, as `seek_entry` and `search_range_from_cache` go through the entries. -/
theorem next_eq {c : TreeCache} (hs : TreeCache.Sorted c.entries) {passed rest : List TreeCacheEntry}
    {e : TreeCacheEntry} (h : c.entries = passed ++ e :: rest) :
    (orderedList _).apply (.next (entryKey e)) (c.entries.map entryKey) =
      some (c.entries.map entryKey, .at (rest.head?.map entryKey)) := by
  have hfind : (c.entries.map entryKey).find? (entryKey e < ·) = rest.head?.map entryKey := by
    rw [TreeCache.Sorted, h, List.pairwise_append, List.pairwise_cons] at hs
    obtain ⟨-, ⟨hrest, -⟩, hpassed⟩ := hs
    have hnone : (passed.map entryKey).find? (entryKey e < ·) = none := by
      rw [List.find?_eq_none]
      intro k hk
      obtain ⟨a, ha, rfl⟩ := List.mem_map.1 hk
      rw [decide_eq_true_eq, not_lt]
      exact (before_iff_lt.1 (hpassed a ha e List.mem_cons_self)).le
    rw [h, List.map_append, List.find?_append, hnone, Option.none_or, List.map_cons, List.find?_cons_of_neg (by simp)]
    cases rest with
    | nil => rfl
    | cons a rest =>
      exact List.find?_cons_of_pos (decide_eq_true (before_iff_lt.1 (hrest a List.mem_cons_self)))
  simp only [orderedList, hfind]

end SkipList
end Chime

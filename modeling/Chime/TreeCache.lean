import Chime.InternalNode
import Chime.Lib.Machine

/-!
# The index cache of internal nodes (`TreeCache.h`)

The skip list is a list of entries in the order of `TreeCacheEntryComparator`, with at most one entry for each range of
keys. An entry points to a copy of a node, or is invalidated. The eviction picks entries at random: the picks are an
argument here. `free_size` is a count of bytes.
-/

namespace Chime

variable (L : Layout)

/-- `define::internalMetadataSize`. -/
def Layout.internalMetadataSize : Nat := 1 + 1 * 2 + 8 * 3 + L.keyLen * 2

/-- `define::internalEntrySize`. -/
def Layout.internalEntrySize : Nat := 1 + L.keyLen + 8

/-- `InternalNode::consumed_cache_size`. -/
def InternalNode.consumedCacheSize (nd : InternalNode) : Nat :=
  8 + L.internalMetadataSize + nd.records.length * L.internalEntrySize

/-- `TreeCacheEntry`, for the keys from `fromKey` to `toKey`, the last one included. -/
structure TreeCacheEntry where
  fromKey : Nat
  toKey : Nat
  ptr : Option InternalNode
  deriving DecidableEq, Repr

namespace TreeCacheEntry

/-- `TreeCacheEntryComparator::cmp` is negative. -/
def before (a b : TreeCacheEntry) : Bool := a.toKey < b.toKey ∨ (a.toKey = b.toKey ∧ b.fromKey < a.fromKey)

/-- The entry is for this range. -/
def isFor (fromKey toKey : Nat) (e : TreeCacheEntry) : Bool := e.fromKey = fromKey ∧ e.toKey = toKey

end TreeCacheEntry

open TreeCacheEntry

/-- `TreeCache`. -/
structure TreeCache where
  entries : List TreeCacheEntry
  freeSize : Int
  deriving DecidableEq, Repr

namespace TreeCache

/-- The cache as its constructor leaves it, of a capacity in bytes. -/
def empty (capacity : Nat) : TreeCache := ⟨[], capacity⟩

/-- `add_entry`; `none`: there is an entry for the range. -/
def addEntry (c : TreeCache) (e : TreeCacheEntry) : Option (List TreeCacheEntry) :=
  if c.entries.any (isFor e.fromKey e.toKey) then none
  else some (c.entries.takeWhile (·.before e) ++ e :: c.entries.dropWhile (·.before e))

/-- `find_entry(from, to)`, `toKey` being the last key. -/
def findEntry (c : TreeCache) (fromKey toKey : Nat) : Option TreeCacheEntry :=
  c.entries.find? fun e => !e.before ⟨fromKey, toKey, none⟩

/-- The compare-and-swap of the pointer of an entry. -/
def setPtr (entries : List TreeCacheEntry) (fromKey toKey : Nat) (ptr : Option InternalNode) : List TreeCacheEntry :=
  entries.map fun e => if isFor fromKey toKey e then { e with ptr } else e

/-- `invalidate` of the entry for the range, which is one of the skip list. -/
def invalidate (c : TreeCache) (fromKey toKey : Nat) : TreeCache :=
  match c.entries.find? (isFor fromKey toKey) with
  | none => c
  | some e =>
    match e.ptr with
    | none => c
    | some nd => ⟨setPtr c.entries fromKey toKey none, c.freeSize + nd.consumedCacheSize L⟩

/-- `evict_one`: the entry that gets invalidated is one with a node; `none`: `pick` is not. -/
def evictOne (c : TreeCache) (pick : Nat × Nat) : Option TreeCache :=
  if c.entries.any fun e => isFor pick.1 pick.2 e ∧ e.ptr.isSome then some (c.invalidate L pick.1 pick.2) else none

/-- `evict`; `none`: the picks do not suffice. -/
def evict (c : TreeCache) : List (Nat × Nat) → Option TreeCache
  | [] => none
  | pick :: picks =>
    match c.evictOne L pick with
    | none => none
    | some c => if c.freeSize < 0 then c.evict picks else some c

/-- `add_to_cache`; `picks` are the entries to evict. -/
def addToCache (c : TreeCache) (page : InternalNode) (picks : List (Nat × Nat)) : Option TreeCache :=
  let lowest := page.lowest
  let highest := page.highest
  match c.addEntry ⟨lowest, highest - 1, some page⟩ with
  | some entries =>
    let v := c.freeSize
    let c : TreeCache := ⟨entries, v - page.consumedCacheSize L⟩
    if v < 0 then c.evict L picks else some c
  | none =>
    match c.findEntry lowest (highest - 1) with
    | none => some c
    | some e =>
      if e.fromKey = lowest ∧ e.toKey = highest - 1 then
        match e.ptr with
        | none =>
          let v := c.freeSize
          let c : TreeCache := ⟨setPtr c.entries lowest (highest - 1) (some page), v - page.consumedCacheSize L⟩
          if v < 0 then c.evict L picks else some c
        | some _ => some ⟨setPtr c.entries lowest (highest - 1) (some page), c.freeSize⟩
      else some c

/-- The operations on the cache, with the entries they evict. -/
inductive Op
  | add (page : InternalNode) (picks : List (Nat × Nat))
  | invalidate (fromKey toKey : Nat)
  | evict (picks : List (Nat × Nat))
  deriving DecidableEq, Repr

def step (c : TreeCache) : Op → Option TreeCache
  | .add page picks => c.addToCache L page picks
  | .invalidate fromKey toKey => some (c.invalidate L fromKey toKey)
  | .evict picks => c.evict L picks

/-- A cache of this capacity. -/
def machine (capacity : Nat) : Machine TreeCache Op Empty where
  init := empty capacity
  step c op := (c.step L op).map fun c => (c, [])

end TreeCache

end Chime

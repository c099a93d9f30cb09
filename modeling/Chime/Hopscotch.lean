import Chime.LeafNode
import Mathlib.Data.Fin.Basic
import Mathlib.Data.List.Sort

/-!
# Hopscotch hashing in a leaf (`Tree.cpp`)

Slots are addressed by logical indices, as in the source: a table position is a logical index modulo the span. The hop
loop of `hopscotch_insert_and_unlock` and of `hopscotch_insert_locally` is the same code (`hopLoop`); they differ in
what they do when it gets stuck.
-/

namespace Chime

open Cyclic (slot)

variable {L : Layout}

/-- The corner case of the hop loops: a home in `[0, leafSpanSize)` as a logical index not right of `h`. -/
def wrapHome (L : Layout) (h home : Int) : Int :=
  if h - home < 0 then home - L.leafSpanSize
  else if h - home ≥ L.neighborSize then home + L.leafSpanSize
  else home

/-- `h_home` of the hop loops. -/
def homeAt (L : Layout) (h z : Int) : Int := wrapHome L h ((h - z + L.leafSpanSize) % L.leafSpanSize)

namespace Records

/-- The search for the home of the item at `h`, for `z = n - 1, …, 0`: the home, if the item may hop to `j`. -/
def victimHome (r : Records L) (j h : Int) : Nat → Checked (Option Int)
  | 0 => .ok none
  | z + 1 => do
    let hHome := homeAt L h z
    Checked.assert .homeLeft (hHome ≤ h)
    if hHome + L.neighborSize > j ∧ (r.getEntry hHome).hopBit z then return some hHome
    else r.victimHome j h z

/-- The search for an item that may hop to `j`, for `offset = n, …, 1`: the offset less one, and the item's home. -/
def victim (r : Records L) (j : Int) : Nat → Checked (Option (Nat × Int))
  | 0 => .ok none
  | o + 1 => do
    match ← r.victimHome j (j - (o + 1 : Nat)) L.neighborSize with
    | none => r.victim j o
    | some hHashIdx => return some (o, hHashIdx)

/-- Hop `h` to `j`. The entry at `h` keeps its old key until it is overwritten. -/
def hop (r : Records L) (j h hHashIdx : Int) : Checked (Records L) := do
  let r := r.update j (r.getEntry h).key (r.getEntry h).value
  let r ← r.unsetHopBit hHashIdx (h - hHashIdx)
  r.setHopBit hHashIdx (j - hHashIdx)

/-- The loop `next_hop`: from a hole at `j`, the table and the hole once the hole is in the neighborhood of `hash_idx`,
with the slots the hole went through; `none` if it gets stuck before. -/
def hopLoop (r : Records L) (hashIdx j : Int) (hoppedIdxes : List (Fin L.leafSpanSize)) :
    Checked (Option (Records L × Int × List (Fin L.leafSpanSize))) :=
  let hoppedIdxes := hoppedIdxes ++ [slot L.leafSpanSize j]
  if j < hashIdx + L.neighborSize then .ok (some (r, j, hoppedIdxes))
  else
    match r.victim j (L.neighborSize - 1) with
    | .error a => .error a
    | .ok none => .ok none
    | .ok (some (o, hHashIdx)) =>
      match r.hop j (j - (o + 1 : Nat)) hHashIdx with
      | .error a => .error a
      | .ok r => r.hopLoop hashIdx (j - (o + 1 : Nat)) hoppedIdxes
termination_by (j - hashIdx - L.neighborSize + 1).toNat
decreasing_by omega

/-- The first logical index from `hash_idx` on, among `entry_num`, whose slot is empty. -/
def firstEmpty (r : Records L) (hashIdx : Int) (entryNum : Nat) : Option Int :=
  ((List.range entryNum).map fun i : Nat => hashIdx + i).find? fun i => (r.getEntry i).key = kkeyNull

/-- Put the new item into the hole. -/
def settle (r : Records L) (hashIdx j : Int) (k v : Nat) : Checked (Records L) :=
  (r.update j k v).setHopBit hashIdx (j - hashIdx)

end Records

/-- `hopscotch_insert_and_unlock` up to its call of `segment_write_and_unlock`: the records, the last index of the
segment and the hopped slots; `none` where it returns false. -/
def hopscotchInsertAndUnlock (r : Records L) (k v entryNum : Nat) :
    Checked (Option (Records L × Fin L.leafSpanSize × List (Fin L.leafSpanSize))) := do
  let hashIdx : Int := (L.getHashedLeafEntryIndex k).val
  match r.firstEmpty hashIdx entryNum with
  | none => return none
  | some emptyIdx =>
    match ← r.hopLoop hashIdx emptyIdx [] with
    | none => return none
    | some (r, j, hoppedIdxes) =>
      let r ← r.settle hashIdx j k v
      return some (r, slot L.leafSpanSize emptyIdx, hoppedIdxes)

/-- `hopscotch_insert_locally`: the records and the slot of the new item. -/
def hopscotchInsertLocally (r : Records L) (k v : Nat) : Checked (Records L × Fin L.leafSpanSize) := do
  let hashIdx : Int := (L.getHashedLeafEntryIndex k).val
  match r.firstEmpty hashIdx L.leafSpanSize with
  | none => .error .noEmpty
  | some emptyIdx =>
    match ← r.hopLoop hashIdx emptyIdx [] with
    | none => .error .hopFails
    | some (r, j, _) =>
      let r ← r.settle hashIdx j k v
      return (r, slot L.leafSpanSize j)

namespace Records

/-- The offset loop of `hopscotch_get_split_key`: an item that may hop to `j`, for `offset = n, …, 1`. -/
def victimByHash (r : Records L) (j : Int) : Nat → Option Nat
  | 0 => none
  | o + 1 =>
    let h := j - (o + 1 : Nat)
    if wrapHome L h (L.getHashedLeafEntryIndex (r.getEntry h).key).val + L.neighborSize > j then some o
    else r.victimByHash j o

/-- "Try hopping assuming that `get_entry(empty_idx)` is empty": whether the hole reaches the neighborhood. -/
def tryHop (r : Records L) (hashIdx j : Int) : Bool :=
  if j < hashIdx + L.neighborSize then true
  else
    match r.victimByHash j (L.neighborSize - 1) with
    | none => false
    | some o => r.tryHop hashIdx (j - (o + 1 : Nat))
termination_by (j - hashIdx - L.neighborSize + 1).toNat
decreasing_by omega

end Records

/-- The loop of `hopscotch_get_split_key` over `empty_idx`, for the given indices. -/
def criticalKeys (r : Records L) (hashIdx : Int) : List Int → List Nat
  | [] => []
  | emptyIdx :: rest =>
    if (r.getEntry emptyIdx).key = kkeyNull then []
    else if r.tryHop hashIdx emptyIdx then (r.getEntry emptyIdx).key :: criticalKeys r hashIdx rest
    else criticalKeys r hashIdx rest

/-- `hopscotch_get_split_key`. -/
def hopscotchGetSplitKey (r : Records L) (k : Nat) : Checked Nat := do
  let hashIdx : Int := (L.getHashedLeafEntryIndex k).val
  let keys := criticalKeys r hashIdx ((List.range L.leafSpanSize).map fun i : Nat => hashIdx + i)
  Checked.assert .noCritical (keys ≠ [])
  let keys := (keys ++ [k]).insertionSort (· ≤ ·)
  return keys.getD (keys.length / 2) kkeyNull

/-- The body of the loop "move data" of `hopscotch_split_and_unlock` on the slot `i`. -/
def moveEntry (splitKey : Nat) (rs : Records L × Records L) (i : Fin L.leafSpanSize) :
    Checked (Records L × Records L) := do
  let (r, s) := rs
  let e := r i
  if e.key ≠ kkeyNull ∧ e.key ≥ splitKey then
    let hashIdx := L.getHashedLeafEntryIndex e.key
    let s := s.update i.val e.key e.value
    let r := r.update i.val kkeyNull kValueNull
    let offset := if i.val ≥ hashIdx.val then i.val - hashIdx.val else i.val + L.leafSpanSize - hashIdx.val
    let s ← s.setHopBit hashIdx.val offset
    let r ← r.unsetHopBit hashIdx.val offset
    return (r, s)
  else return (r, s)

/-- The loop "move data" of `hopscotch_split_and_unlock`. -/
def moveData (splitKey : Nat) (r s : Records L) : Checked (Records L × Records L) :=
  (List.finRange L.leafSpanSize).foldlM (moveEntry splitKey) (r, s)

end Chime

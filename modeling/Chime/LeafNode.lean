import Chime.Metadata
import Mathlib.Data.Fintype.Pi

/-!
# Leaf nodes (`LeafNode.h`)

A leaf has its metadata and a circular table of entries; an entry holds a key with its value and, apart from these, the
hop bitmap of its slot. The versions and the byte layout are left to the codec.
-/

namespace Chime

open Cyclic (slot)

/-- `LeafEntry` with `neighborSize = H`: bit `i` of the source's `hop_bitmap`, counted from the left, is `hopBit i`. -/
structure LeafEntry (H : Nat) where
  hopBitmap : BitVec H
  key : Nat
  value : Nat
  deriving DecidableEq, Repr

namespace LeafEntry

variable {H : Nat}

/-- `LeafEntry::LeafEntry()`. -/
def null : LeafEntry H := ⟨0, kkeyNull, kValueNull⟩

/-- `LeafEntry::update`. -/
def update (e : LeafEntry H) (k v : Nat) : LeafEntry H := { e with key := k, value := v }

def hopBit (e : LeafEntry H) (idx : Nat) : Bool := e.hopBitmap.getLsbD (H - idx - 1)

/-- `LeafEntry::set_hop_bit`. -/
def setHopBit (e : LeafEntry H) (idx : Int) : Checked (LeafEntry H) := do
  Checked.assert .setHopBit (0 ≤ idx ∧ idx < H ∧ ¬e.hopBit idx.toNat)
  return { e with hopBitmap := e.hopBitmap ||| BitVec.twoPow H (H - idx.toNat - 1) }

/-- `LeafEntry::unset_hop_bit`. -/
def unsetHopBit (e : LeafEntry H) (idx : Int) : Checked (LeafEntry H) := do
  Checked.assert .unsetHopBit (0 ≤ idx ∧ idx < H ∧ e.hopBit idx.toNat)
  return { e with hopBitmap := e.hopBitmap &&& ~~~BitVec.twoPow H (H - idx.toNat - 1) }

end LeafEntry

/-- The entries of a leaf. -/
abbrev Records (L : Layout) := Fin L.leafSpanSize → LeafEntry L.neighborSize

namespace Records

variable {L : Layout}

/-- `get_entry`: the entry at a logical index. -/
def getEntry (r : Records L) (i : Int) : LeafEntry L.neighborSize := r (slot L.leafSpanSize i)

/-- `get_entry(i).update(k, v)`. -/
def update (r : Records L) (i : Int) (k v : Nat) : Records L :=
  Function.update r (slot L.leafSpanSize i) ((r.getEntry i).update k v)

/-- `get_entry(i).set_hop_bit(idx)`. -/
def setHopBit (r : Records L) (i idx : Int) : Checked (Records L) := do
  let e ← (r.getEntry i).setHopBit idx
  return Function.update r (slot L.leafSpanSize i) e

/-- `get_entry(i).unset_hop_bit(idx)`. -/
def unsetHopBit (r : Records L) (i idx : Int) : Checked (Records L) := do
  let e ← (r.getEntry i).unsetHopBit idx
  return Function.update r (slot L.leafSpanSize i) e

/-- `get_max_key_idx` of the split: the first slot with the largest key. -/
def getMaxKeyIdx (r : Records L) : Fin L.leafSpanSize :=
  ((List.finRange L.leafSpanSize).foldl (fun (acc : Nat × Fin L.leafSpanSize) i =>
    if (r i).key > acc.1 then ((r i).key, i) else acc) (kkeyNull, 0)).2

end Records

/-- `LeafMetadata`, without the fields that are constant in a leaf or not stored under `SIBLING_BASED_VALIDATION`. -/
structure LeafMetadata where
  valid : Bool
  siblingPtr : GlobalAddress
  deriving DecidableEq, Repr

/-- `LeafNode`. -/
structure LeafNode (L : Layout) where
  metadata : LeafMetadata
  records : Records L
  deriving DecidableEq

namespace LeafNode

variable {L : Layout}

/-- `LeafNode::LeafNode()`. -/
def empty : LeafNode L := ⟨⟨true, .null⟩, fun _ => LeafEntry.null⟩

/-- A buffer after `memset(leaf_buffer, 0, …)`. -/
def zeroed : LeafNode L := ⟨⟨false, .null⟩, fun _ => LeafEntry.null⟩

/-- `LeafNode::is_root`. -/
def isRoot (lf : LeafNode L) : Bool := lf.metadata.siblingPtr = .widest

/-- The sibling pointer with the root tag read as `Null`. -/
def siblingPtr (lf : LeafNode L) : GlobalAddress :=
  if lf.metadata.siblingPtr = .widest then .null else lf.metadata.siblingPtr

end LeafNode
end Chime

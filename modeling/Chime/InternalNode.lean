import Chime.Common
import Mathlib.Data.List.Sort

/-!
# Internal nodes (`InternalNode.h`, `Tree.cpp`)

The records of an internal node are the entries before the first null key: the array is kept in the order of its keys,
and its other entries are null. `internal_node_search` and `internal_node_insert` are given here on one node; the
operation on the tree reads the node, and hands over the writes that are issued together with the unlock.
-/

namespace Chime

variable {L : Layout}

/-- `InternalEntry`. -/
structure InternalEntry where
  key : Nat
  ptr : GlobalAddress
  deriving DecidableEq, Repr

/-- `InternalNode`; `level`, …, `highest` are its metadata. -/
structure InternalNode where
  level : Nat
  valid : Bool
  siblingPtr : GlobalAddress
  leftmostPtr : GlobalAddress
  siblingLeftmostPtr : GlobalAddress
  lowest : Nat
  highest : Nat
  records : List InternalEntry
  deriving DecidableEq, Repr

namespace InternalNode

/-- `InternalNode::InternalNode()`. -/
def empty (L : Layout) : InternalNode := ⟨1, true, .null, .null, .null, kKeyMin, L.keyFull, []⟩

/-- `InternalNode::is_root`. -/
def isRoot (L : Layout) (nd : InternalNode) : Bool := nd.lowest = kKeyMin ∧ nd.highest = L.keyFull

/-- `k` is between the fences. -/
def covers (nd : InternalNode) (k : Nat) : Bool := nd.lowest ≤ k ∧ k < nd.highest

/-- The loop "search for the next pointer" over the entries after `ptr`. -/
def nextPtr (siblingLeftmostPtr : GlobalAddress) (k : Nat) : GlobalAddress → List InternalEntry →
    GlobalAddress × GlobalAddress
  | ptr, [] => (ptr, siblingLeftmostPtr)
  | ptr, e :: es => if k < e.key then (ptr, e.ptr) else nextPtr siblingLeftmostPtr k e.ptr es

/-- The child that `k` is routed to, and the child's neighbor on the right. In a node without records the entry that is
read is null. -/
def childPtr (nd : InternalNode) (k : Nat) : GlobalAddress × GlobalAddress :=
  match nd.records with
  | [] => (.null, nd.siblingLeftmostPtr)
  | e :: es => if k < e.key then (nd.leftmostPtr, e.ptr) else nextPtr nd.siblingLeftmostPtr k e.ptr es

/-- The root of height `level + 1` over a split node of `level`. -/
def newRoot (L : Layout) (level : Nat) (nodeAddr : GlobalAddress) (splitKey : Nat) (siblingAddr : GlobalAddress) :
    InternalNode :=
  { empty L with level := level + 1, leftmostPtr := nodeAddr, records := [⟨splitKey, siblingAddr⟩] }

end InternalNode

/-- How a read of `internal_node_search` ends. -/
inductive InternalSearch
  | invalid
  | turnRight (siblingPtr : GlobalAddress)
  /-- the next level with the child and its neighbor -/
  | next (level : Nat) (nodeAddr siblingAddr : GlobalAddress)
  deriving DecidableEq, Repr

/-- `internal_node_search` on the node it has read. -/
def internalNodeSearch (nd : InternalNode) (k : Nat) (fromCache : Bool) : Checked InternalSearch := do
  if fromCache ∧ (¬nd.valid ∨ k < nd.lowest ∨ k ≥ nd.highest) then return .invalid
  else if k ≥ nd.highest then return .turnRight nd.siblingPtr
  else
    Checked.assert .fenceLowest (k ≥ nd.lowest)
    return .next nd.level (nd.childPtr k).1 (nd.childPtr k).2

/-- "search for the insert position" and "shift and insert". -/
def shiftAndInsert (records : List InternalEntry) (k : Nat) (v : GlobalAddress) : List InternalEntry :=
  records.takeWhile (fun e => e.key ≤ k) ++ ⟨k, v⟩ :: records.dropWhile (fun e => e.key ≤ k)

theorem shiftAndInsert_nil (k : Nat) (v : GlobalAddress) : shiftAndInsert [] k v = [⟨k, v⟩] := rfl

theorem shiftAndInsert_cons (e : InternalEntry) (es : List InternalEntry) (k : Nat) (v : GlobalAddress) :
    shiftAndInsert (e :: es) k v = if e.key ≤ k then e :: shiftAndInsert es k v else ⟨k, v⟩ :: e :: es := by
  by_cases h : e.key ≤ k <;> simp [shiftAndInsert, h]

theorem mem_shiftAndInsert {es : List InternalEntry} {k : Nat} {v : GlobalAddress} {e : InternalEntry} :
    e ∈ shiftAndInsert es k v ↔ e = ⟨k, v⟩ ∨ e ∈ es := by
  induction es with
  | nil => simp [shiftAndInsert_nil]
  | cons e' es ih =>
    rw [shiftAndInsert_cons]
    split
    · rw [List.mem_cons, ih, List.mem_cons]
      tauto
    · rw [List.mem_cons]

theorem sorted_shiftAndInsert {es : List InternalEntry} {k : Nat} {v : GlobalAddress}
    (hs : es.Pairwise fun a b => a.key < b.key) (hk : ∀ e ∈ es, e.key ≠ k) :
    (shiftAndInsert es k v).Pairwise fun a b => a.key < b.key := by
  induction es with
  | nil => exact List.pairwise_singleton _ _
  | cons e es ih =>
    obtain ⟨he, hs⟩ := List.pairwise_cons.1 hs
    have hne := hk e List.mem_cons_self
    rw [shiftAndInsert_cons]
    split
    · rename_i hle
      refine List.pairwise_cons.2 ⟨fun b hb => ?_, ih hs fun e' he' => hk e' (List.mem_cons_of_mem _ he')⟩
      rcases mem_shiftAndInsert.1 hb with rfl | hb
      · exact lt_of_le_of_ne hle hne
      · exact he b hb
    · rename_i hle
      refine List.pairwise_cons.2 ⟨fun b hb => ?_, List.pairwise_cons.2 ⟨he, hs⟩⟩
      rcases List.mem_cons.1 hb with rfl | hb
      · exact not_le.1 hle
      · exact (not_le.1 hle).trans (he b hb)

/-- For a new separator it is the insertion into a sorted list. -/
theorem shiftAndInsert_eq {es : List InternalEntry} {k : Nat} (hk : ∀ e ∈ es, e.key ≠ k) (v : GlobalAddress) :
    shiftAndInsert es k v = es.orderedInsert (fun a b => a.key ≤ b.key) ⟨k, v⟩ := by
  induction es with
  | nil => rfl
  | cons e es ih =>
    have hne := hk e List.mem_cons_self
    rw [shiftAndInsert_cons, List.orderedInsert_cons, ih fun e' he' => hk e' (List.mem_cons_of_mem _ he')]
    by_cases h : e.key ≤ k
    · rw [if_pos h, if_neg (show ¬k ≤ e.key by omega)]
    · rw [if_neg h, if_pos (show k ≤ e.key by omega)]

/-- The two nodes of `node_split_and_unlock`, and what its parent update needs. -/
structure InternalSplit where
  isRoot : Bool
  splitKey : Nat
  left : InternalNode
  right : InternalNode
  deriving DecidableEq, Repr

/-- `node_split_and_unlock` of an internal node, up to its writes. -/
def nodeSplitAndUnlock (L : Layout) (nd : InternalNode) (k : Nat) (v : GlobalAddress) (level : Nat)
    (siblingAddr : GlobalAddress) : Checked InternalSplit := do
  let records := nd.records.insertionSort fun a b => a.key ≤ b.key
  let m := records.length / 2
  let e := records.getD m ⟨kkeyNull, .null⟩
  Checked.assert .splitKeyNull (e.key ≠ kkeyNull)
  let left := records.take m
  let right := records.drop (m + 1)
  let (left, right) := if k < e.key then (shiftAndInsert left k v, right) else (left, shiftAndInsert right k v)
  return {
    isRoot := nd.isRoot L
    splitKey := e.key
    left := { nd with records := left, highest := e.key, siblingPtr := siblingAddr, siblingLeftmostPtr := e.ptr }
    right := {
      level, valid := true, siblingPtr := nd.siblingPtr, leftmostPtr := e.ptr,
      siblingLeftmostPtr := nd.siblingLeftmostPtr, lowest := e.key, highest := nd.highest, records := right } }

/-- How `internal_node_insert` ends on one node. -/
inductive InternalInsert
  /-- unlock and return false -/
  | invalid
  /-- unlock and insert into the sibling -/
  | turnRight (siblingPtr : GlobalAddress)
  /-- write the node and unlock -/
  | write (nd : InternalNode)
  /-- write the sibling, write the node and unlock, update the parent -/
  | split (x : InternalSplit)
  deriving DecidableEq, Repr

/-- `internal_node_insert` on the locked node; `newAddr` is the address that is allocated if the node splits. -/
def internalNodeInsert (L : Layout) (nd : InternalNode) (k : Nat) (v : GlobalAddress) (fromCache : Bool) (level : Nat)
    (newAddr : GlobalAddress) : Checked InternalInsert := do
  if fromCache ∧ (¬nd.valid ∨ k < nd.lowest ∨ k ≥ nd.highest) then return .invalid
  else if k ≥ nd.highest then
    Checked.assert .siblingNull (nd.siblingPtr ≠ .null)
    return .turnRight nd.siblingPtr
  else
    Checked.assert .fenceLowest (k ≥ nd.lowest)
    Checked.assert .separatorExists (∀ e ∈ nd.records, e.key ≠ k)
    if nd.records.length < L.internalSpanSize then
      return .write { nd with records := shiftAndInsert nd.records k v }
    else return .split (← nodeSplitAndUnlock L nd k v level newAddr)

end Chime

import Chime.InternalNode
import Chime.Lib.SortedArray
import Mathlib.Data.List.TakeWhile

/-!
# The arrays of internal nodes (`InternalNode.h`, `Tree.cpp`)

An internal node with all its `internalSpanSize` records, as `internal_node_insert` and `node_split_and_unlock` handle
it in the build with ordered internal nodes: they look for the first null record, shift records to the right, sort, and
copy the upper half. `InternalArray.node` is the node without the null records; the operations on arrays and on nodes
agree (`internalNodeInsert_node`), and an ordered array stays one.
-/

namespace Chime

variable {L : Layout}

/-- `InternalEntry::Null()`. -/
def InternalEntry.null : InternalEntry := ⟨kkeyNull, .null⟩

/-- `InternalMetadata`. -/
structure InternalMetadata where
  level : Nat
  valid : Bool
  siblingPtr : GlobalAddress
  leftmostPtr : GlobalAddress
  siblingLeftmostPtr : GlobalAddress
  lowest : Nat
  highest : Nat
  deriving DecidableEq, Repr

/-- A node with this metadata. -/
def InternalMetadata.nodeWith (md : InternalMetadata) (records : List InternalEntry) : InternalNode :=
  ⟨md.level, md.valid, md.siblingPtr, md.leftmostPtr, md.siblingLeftmostPtr, md.lowest, md.highest, records⟩

/-- An internal node with its array of records. -/
structure InternalArray (L : Layout) where
  metadata : InternalMetadata
  records : List InternalEntry
  length_records : records.length = L.internalSpanSize
  deriving DecidableEq

/-- The array that starts with `xs` and is null after. -/
def padRecords (L : Layout) (xs : List InternalEntry) : List InternalEntry :=
  (xs ++ List.replicate L.internalSpanSize InternalEntry.null).take L.internalSpanSize

theorem length_padRecords (xs : List InternalEntry) : (padRecords L xs).length = L.internalSpanSize := by
  rw [padRecords, List.length_take, List.length_append, List.length_replicate]
  omega

/-- "search for the insert position" among the first `num` records, and "shift and insert". -/
def insertRecord (records : List InternalEntry) (k : Nat) (v : GlobalAddress) (num : Nat) : List InternalEntry :=
  SortedArray.insert (fun e => decide (e.key > k)) records num ⟨k, v⟩

theorem length_insertRecord (records : List InternalEntry) (k : Nat) (v : GlobalAddress) (num : Nat) :
    (insertRecord records k v num).length = records.length := SortedArray.length_insert _ _ _ _

/-- The order of the `std::sort`: null records come last. -/
def sortsBefore (a b : InternalEntry) : Bool :=
  if a.key = kkeyNull then false else if b.key = kkeyNull then true else a.key < b.key

namespace InternalArray

/-- The node without the null records. -/
def node (a : InternalArray L) : InternalNode := a.metadata.nodeWith (a.records.takeWhile fun e => e.key ≠ kkeyNull)

/-- Insert into the first `num` records. -/
def shiftAndInsert (a : InternalArray L) (k : Nat) (v : GlobalAddress) (num : Nat) : InternalArray L :=
  ⟨a.metadata, insertRecord a.records k v num, (length_insertRecord _ _ _ _).trans a.length_records⟩

/-- The two nodes of `node_split_and_unlock`, and what its parent update needs. -/
structure Split (L : Layout) where
  isRoot : Bool
  splitKey : Nat
  left : InternalArray L
  right : InternalArray L
  deriving DecidableEq

/-- `node_split_and_unlock` of an internal node, up to its writes. -/
def nodeSplitAndUnlock (a : InternalArray L) (k : Nat) (v : GlobalAddress) (level : Nat) (siblingAddr : GlobalAddress) :
    Checked (Split L) := do
  let md := a.metadata
  let records := a.records.insertionSort fun x y => ¬sortsBefore y x
  let cnt := records.countP fun e => e.key ≠ kkeyNull
  let m := cnt / 2
  let e := records.getD m .null
  Checked.assert .splitKeyNull (e.key ≠ kkeyNull)
  let left : InternalArray L :=
    ⟨{ md with highest := e.key, siblingPtr := siblingAddr, siblingLeftmostPtr := e.ptr },
      padRecords L (records.take m),
      length_padRecords _⟩
  let right : InternalArray L :=
    ⟨⟨level, true, md.siblingPtr, e.ptr, md.siblingLeftmostPtr, e.key, md.highest⟩, padRecords L (records.drop (m + 1)),
      length_padRecords _⟩
  return {
    isRoot := md.lowest = kKeyMin ∧ md.highest = L.keyFull
    splitKey := e.key
    left := if k < e.key then left.shiftAndInsert k v m else left
    right := if k < e.key then right else right.shiftAndInsert k v (L.internalSpanSize - m - 1) }

/-- How `internal_node_insert` ends on one node. -/
inductive Insert (L : Layout)
  | invalid
  | turnRight (siblingPtr : GlobalAddress)
  | write (a : InternalArray L)
  | split (x : Split L)
  deriving DecidableEq

/-- `internal_node_insert` on the locked node; `newAddr` is the address that is allocated if the node splits. -/
def internalNodeInsert (a : InternalArray L) (k : Nat) (v : GlobalAddress) (fromCache : Bool) (level : Nat)
    (newAddr : GlobalAddress) : Checked (Insert L) := do
  let md := a.metadata
  if fromCache ∧ (¬md.valid ∨ k < md.lowest ∨ k ≥ md.highest) then return .invalid
  else if k ≥ md.highest then
    Checked.assert .siblingNull (md.siblingPtr ≠ .null)
    return .turnRight md.siblingPtr
  else
    Checked.assert .fenceLowest (k ≥ md.lowest)
    Checked.assert .separatorExists (∀ e ∈ a.records, e.key ≠ k)
    let i := a.records.findIdx fun e => e.key = kkeyNull
    if i < L.internalSpanSize then return .write (a.shiftAndInsert k v i)
    else return .split (← a.nodeSplitAndUnlock k v level newAddr)

/-- The split in terms of nodes. -/
def Split.node (x : Split L) : InternalSplit := ⟨x.isRoot, x.splitKey, x.left.node, x.right.node⟩

/-- The end of an insert in terms of nodes. -/
def Insert.node : Insert L → InternalInsert
  | .invalid => .invalid
  | .turnRight p => .turnRight p
  | .write a => .write a.node
  | .split x => .split x.node

/-- The records are sorted and distinct up to the first null one, and null from there on. -/
structure Ordered (a : InternalArray L) : Prop where
  sorted : a.node.records.Pairwise fun x y => x.key < y.key
  rest : ∀ e ∈ a.records.dropWhile (fun e => e.key ≠ kkeyNull), e.key = kkeyNull

theorem records_eq (a : InternalArray L) :
    a.records = a.node.records ++ a.records.dropWhile (fun e => e.key ≠ kkeyNull) :=
      List.takeWhile_append_dropWhile.symm

theorem ne_null {a : InternalArray L} {e : InternalEntry} (he : e ∈ a.node.records) : e.key ≠ kkeyNull := by
  have he : e ∈ a.records.takeWhile fun e => decide (e.key ≠ kkeyNull) := he
  have := List.mem_takeWhile_imp he
  exact of_decide_eq_true this

/-- An array of sorted records, and null records after them. -/
theorem ordered_of_append {a : InternalArray L} {xs post : List InternalEntry} (h : a.records = xs ++ post)
    (hx : ∀ e ∈ xs, e.key ≠ kkeyNull) (hs : xs.Pairwise fun x y => x.key < y.key) (hp : ∀ e ∈ post, e.key = kkeyNull) :
    a.Ordered ∧ a.node = a.metadata.nodeWith xs := by
  have hall : ∀ e ∈ xs, decide (e.key ≠ kkeyNull) = true := fun e he => decide_eq_true (hx e he)
  have htake : post.takeWhile (fun e => decide (e.key ≠ kkeyNull)) = [] := by
    cases post with
    | nil => rfl
    | cons e post => rw [List.takeWhile_cons_of_neg (by simp [hp e List.mem_cons_self])]
  have hnode : a.records.takeWhile (fun e => decide (e.key ≠ kkeyNull)) = xs := by
    rw [h, List.takeWhile_append_of_pos hall, htake, List.append_nil]
  have hrec : a.node.records = xs := hnode
  refine ⟨⟨hrec.symm ▸ hs, fun e he => ?_⟩, congrArg a.metadata.nodeWith hnode⟩
  rw [h, List.dropWhile_append_of_pos hall] at he
  exact hp e ((List.dropWhile_suffix _).subset he)

theorem padRecords_eq {xs : List InternalEntry} (h : xs.length ≤ L.internalSpanSize) :
    padRecords L xs = xs ++ List.replicate (L.internalSpanSize - xs.length) InternalEntry.null := by
  rw [padRecords, List.take_append, List.take_of_length_le h, List.take_replicate, Nat.min_eq_left (Nat.sub_le _ _)]

/-! ## One insertion -/

/-- **Shift and insert** into an array whose records in use are `xs`. -/
theorem shiftAndInsert_spec {a : InternalArray L} {xs post : List InternalEntry} {z : InternalEntry} {k : Nat}
    (h : a.records = xs ++ z :: post) (hx : ∀ e ∈ xs, e.key ≠ kkeyNull) (hs : xs.Pairwise fun x y => x.key < y.key)
    (hp : ∀ e ∈ post, e.key = kkeyNull) (hk : k ≠ kkeyNull) (hno : ∀ e ∈ xs, e.key ≠ k) (v : GlobalAddress) :
    (a.shiftAndInsert k v xs.length).Ordered ∧
      (a.shiftAndInsert k v xs.length).node = a.metadata.nodeWith (Chime.shiftAndInsert xs k v) := by
  have hfun : (fun e : InternalEntry => !decide (e.key > k)) = fun e => decide (e.key ≤ k) := by
    funext e
    rw [← decide_not]
    exact decide_eq_decide.2 not_lt
  have hrec : (a.shiftAndInsert k v xs.length).records = Chime.shiftAndInsert xs k v ++ post := by
    show SortedArray.insert _ a.records xs.length _ = _
    rw [h, SortedArray.insert_append, hfun]
    rfl
  exact ordered_of_append hrec (fun e he => (mem_shiftAndInsert.1 he).elim (fun h => h ▸ hk) (hx e))
    (sorted_shiftAndInsert hs hno) hp

/-- Shift and insert into an array that begins with `xs` and has room. -/
theorem shiftAndInsert_pad (md : InternalMetadata) {xs : List InternalEntry} {k : Nat}
    (hlt : xs.length < L.internalSpanSize) (hx : ∀ e ∈ xs, e.key ≠ kkeyNull) (hs : xs.Pairwise fun x y => x.key < y.key)
    (hk : k ≠ kkeyNull) (hno : ∀ e ∈ xs, e.key ≠ k) (v : GlobalAddress) :
    let a : InternalArray L := ⟨md, padRecords L xs, length_padRecords xs⟩
    (a.shiftAndInsert k v xs.length).Ordered ∧
      (a.shiftAndInsert k v xs.length).node = md.nodeWith (Chime.shiftAndInsert xs k v) := by
  obtain ⟨n, hn⟩ : ∃ n, L.internalSpanSize - xs.length = n + 1 := ⟨L.internalSpanSize - xs.length - 1, by omega⟩
  have hpad : padRecords L xs = xs ++ InternalEntry.null :: List.replicate n .null := by
    rw [padRecords_eq hlt.le, hn, List.replicate_succ]
  exact shiftAndInsert_spec hpad hx hs (fun e he => List.eq_of_mem_replicate he ▸ rfl) hk hno v

/-- An array that begins with `xs`. -/
theorem ordered_pad (md : InternalMetadata) {xs : List InternalEntry} (hle : xs.length ≤ L.internalSpanSize)
    (hx : ∀ e ∈ xs, e.key ≠ kkeyNull) (hs : xs.Pairwise fun x y => x.key < y.key) :
    let a : InternalArray L := ⟨md, padRecords L xs, length_padRecords xs⟩
    a.Ordered ∧ a.node = md.nodeWith xs :=
  ordered_of_append (padRecords_eq hle) hx hs fun _ he => List.eq_of_mem_replicate he ▸ rfl

/-! ## A split -/

/-- A list is cut at its middle element. -/
theorem exists_middle {α : Type} (xs : List α) (h : 0 < xs.length) :
    ∃ l e r, xs = l ++ e :: r ∧ l.length = xs.length / 2 := by
  have hm : xs.length / 2 < xs.length := by omega
  refine ⟨xs.take (xs.length / 2), xs[xs.length / 2], xs.drop (xs.length / 2 + 1), ?_, ?_⟩
  · rw [← List.drop_eq_getElem_cons hm, List.take_append_drop]
  · rw [List.length_take]
    omega

/-- A sorted array without null records is what `std::sort` makes of it. -/
theorem sort_eq {xs : List InternalEntry} (hx : ∀ e ∈ xs, e.key ≠ kkeyNull)
    (hs : xs.Pairwise fun x y => x.key < y.key) :
    xs.insertionSort (fun x y => ¬sortsBefore y x) = xs := by
  apply List.Pairwise.insertionSort_eq
  refine hs.imp_of_mem fun {x y} hxm hym hlt => ?_
  rw [sortsBefore, if_neg (hx y hym), if_neg (hx x hxm), decide_eq_true_eq]
  omega

/-- The split of a node whose middle record is `e`. -/
theorem nodeSplit_middle {nd : InternalNode} {l r : List InternalEntry} {e : InternalEntry}
    (hcut : nd.records = l ++ e :: r) (hl : l.length = nd.records.length / 2) (he : e.key ≠ kkeyNull)
    (hs : nd.records.Pairwise fun x y => x.key < y.key) (k : Nat) (v : GlobalAddress) (level : Nat)
    (siblingAddr : GlobalAddress) :
    Chime.nodeSplitAndUnlock L nd k v level siblingAddr = .ok ⟨nd.isRoot L, e.key,
      { nd with
        records := if k < e.key then Chime.shiftAndInsert l k v else l, highest := e.key, siblingPtr := siblingAddr,
        siblingLeftmostPtr := e.ptr },
      ⟨level, true, nd.siblingPtr, e.ptr, nd.siblingLeftmostPtr, e.key, nd.highest,
        if k < e.key then r else Chime.shiftAndInsert r k v⟩⟩ := by
  have hsort : nd.records.insertionSort (fun x y => x.key ≤ y.key) = nd.records :=
    List.Pairwise.insertionSort_eq (hs.imp Nat.le_of_lt)
  have hget : nd.records.getD (nd.records.length / 2) ⟨kkeyNull, .null⟩ = e := by
    rw [← hl, hcut]
    simp
  have htake : nd.records.take (nd.records.length / 2) = l := by
    rw [← hl, hcut, List.take_left]
  have hdrop : nd.records.drop (nd.records.length / 2 + 1) = r := by
    rw [← hl, hcut]
    simp
  simp only [Chime.nodeSplitAndUnlock, hsort, hget, htake, hdrop, Checked.assert_of he, Checked.ok_bind,
    Checked.pure_eq_ok]
  split <;> rfl

/-- **The split of an array** is the split of the node, and leaves two ordered arrays. -/
theorem nodeSplitAndUnlock_spec {a : InternalArray L} (hx : ∀ e ∈ a.records, e.key ≠ kkeyNull)
    (hs : a.records.Pairwise fun x y => x.key < y.key) {k : Nat} (hk : k ≠ kkeyNull) (hno : ∀ e ∈ a.records, e.key ≠ k)
    (v : GlobalAddress) (level : Nat) (siblingAddr : GlobalAddress) :
    ∃ x, a.nodeSplitAndUnlock k v level siblingAddr = .ok x ∧
      Chime.nodeSplitAndUnlock L a.node k v level siblingAddr = .ok x.node ∧ x.left.Ordered ∧ x.right.Ordered := by
  have hpos := L.internalSpanSize_pos
  have hlen := a.length_records
  have hnode : a.node = a.metadata.nodeWith a.records :=
    (ordered_of_append (List.append_nil _).symm hx hs fun e he => absurd he List.not_mem_nil).2
  have hcnt : a.records.countP (fun e => e.key ≠ kkeyNull) = a.records.length :=
    List.countP_eq_length.2 fun e he => decide_eq_true (hx e he)
  obtain ⟨l, e, r, hcut, hl⟩ := exists_middle a.records (by omega)
  have he : e.key ≠ kkeyNull := hx e (by rw [hcut]; simp)
  obtain ⟨hsl, hser, -⟩ := List.pairwise_append.1 (hcut ▸ hs)
  have hsr := (List.pairwise_cons.1 hser).2
  have hml : ∀ b ∈ l, b ∈ a.records := fun b hb => hcut ▸ List.mem_append_left _ hb
  have hmr : ∀ b ∈ r, b ∈ a.records := fun b hb => hcut ▸ List.mem_append_right _ (List.mem_cons_of_mem _ hb)
  have hlr : l.length + (r.length + 1) = L.internalSpanSize := by
    rw [← hlen, hcut, List.length_append, List.length_cons]
  have hget : a.records.getD l.length InternalEntry.null = e := by
    rw [hcut]
    simp
  have htake : a.records.take l.length = l := by rw [hcut, List.take_left]
  have hdrop : a.records.drop (l.length + 1) = r := by
    rw [hcut]
    simp
  have hnum : L.internalSpanSize - l.length - 1 = r.length := by omega
  rw [hnode, nodeSplit_middle (show (a.metadata.nodeWith a.records).records = l ++ e :: r from hcut) hl he hs]
  simp only [nodeSplitAndUnlock, sort_eq hx hs, hcnt, ← hl, hget, htake, hdrop, hnum, Checked.assert_of he,
    Checked.ok_bind, Checked.pure_eq_ok]
  refine ⟨_, rfl, ?_⟩
  simp only [Split.node]
  by_cases hke : k < e.key
  · simp only [if_pos hke]
    obtain ⟨ho, hn⟩ :=
      shiftAndInsert_pad (L := L) ⟨a.metadata.level, a.metadata.valid, siblingAddr, a.metadata.leftmostPtr,
      e.ptr, a.metadata.lowest, e.key⟩ (by omega) (fun b hb => hx b (hml b hb)) hsl hk (fun b hb => hno b (hml b hb)) v
    obtain ⟨ho', hn'⟩ := ordered_pad (L := L) ⟨level, true, a.metadata.siblingPtr, e.ptr, a.metadata.siblingLeftmostPtr,
      e.key, a.metadata.highest⟩ (by omega) (fun b (hb : b ∈ r) => hx b (hmr b hb)) hsr
    refine ⟨?_, ho, ho'⟩
    rw [hn, hn']
    rfl
  · simp only [if_neg hke]
    obtain ⟨ho, hn⟩ := shiftAndInsert_pad (L := L) ⟨level, true, a.metadata.siblingPtr, e.ptr,
      a.metadata.siblingLeftmostPtr, e.key, a.metadata.highest⟩ (by omega) (fun b hb => hx b (hmr b hb)) hsr hk
      (fun b hb => hno b (hmr b hb)) v
    obtain ⟨ho', hn'⟩ := ordered_pad (L := L) ⟨a.metadata.level, a.metadata.valid, siblingAddr, a.metadata.leftmostPtr,
      e.ptr, a.metadata.lowest, e.key⟩ (by omega) (fun b (hb : b ∈ l) => hx b (hml b hb)) hsl
    refine ⟨?_, ho', ho⟩
    rw [hn, hn']
    rfl

/-! ## The whole operation -/

/-- The first null record. -/
theorem findIdx_null (a : InternalArray L) :
    a.records.findIdx (fun e => e.key = kkeyNull) = a.node.records.length := by
  have htake : a.records.takeWhile (fun e => !decide (e.key = kkeyNull)) = a.node.records := by
    show _ = a.records.takeWhile fun e => decide (e.key ≠ kkeyNull)
    congr 1
    funext e
    exact (decide_not).symm
  rw [← htake, List.takeWhile_eq_take_findIdx_not, List.length_take]
  simp only [Bool.not_not]
  exact (Nat.min_eq_left List.findIdx_le_length).symm

/-- The arrays that an insert writes are ordered. -/
def Insert.Ordered : Insert L → Prop
  | .invalid => True
  | .turnRight _ => True
  | .write a => a.Ordered
  | .split x => x.left.Ordered ∧ x.right.Ordered

/-- **The operations on arrays and on nodes agree**, and an insert leaves ordered arrays. -/
theorem internalNodeInsert_node {a : InternalArray L} (h : a.Ordered) {k : Nat} (hk : k ≠ kkeyNull) (v : GlobalAddress)
    (fromCache : Bool) (level : Nat) (newAddr : GlobalAddress) :
    Chime.internalNodeInsert L a.node k v fromCache level newAddr =
        (a.internalNodeInsert k v fromCache level newAddr).map Insert.node ∧
      ∀ y, a.internalNodeInsert k v fromCache level newAddr = .ok y → y.Ordered := by
  have hrec := a.records_eq
  set post := a.records.dropWhile fun e => decide (e.key ≠ kkeyNull) with hpost
  have hnew : (∀ e ∈ a.records, e.key ≠ k) ↔ ∀ e ∈ a.node.records, e.key ≠ k := by
    constructor
    · intro hall e he
      exact hall e (hrec ▸ List.mem_append_left _ he)
    · intro hall e he
      rw [hrec] at he
      rcases List.mem_append.1 he with he | he
      · exact hall e he
      · exact (h.rest e he).symm ▸ hk.symm
  have hvalid : a.node.valid = a.metadata.valid := rfl
  have hlow : a.node.lowest = a.metadata.lowest := rfl
  have hhigh : a.node.highest = a.metadata.highest := rfl
  have hsib : a.node.siblingPtr = a.metadata.siblingPtr := rfl
  simp only [internalNodeInsert, Chime.internalNodeInsert, hvalid, hlow, hhigh, hsib, findIdx_null, hnew]
  split
  · exact ⟨rfl, fun y hy => by cases hy; trivial⟩
  split
  · by_cases hnull : a.metadata.siblingPtr ≠ .null
    · rw [Checked.assert_of hnull]
      exact ⟨rfl, fun y hy => by cases hy; trivial⟩
    · rw [Checked.assert_of_not hnull]
      exact ⟨rfl, fun y hy => by cases hy⟩
  by_cases hlo : k ≥ a.metadata.lowest
  swap
  · rw [Checked.assert_of_not hlo]
    exact ⟨rfl, fun y hy => by cases hy⟩
  by_cases hno : ∀ e ∈ a.node.records, e.key ≠ k
  swap
  · rw [Checked.assert_of hlo, Checked.assert_of_not hno]
    exact ⟨rfl, fun y hy => by cases hy⟩
  rw [Checked.assert_of hlo, Checked.assert_of hno]
  simp only [Checked.ok_bind]
  have hlen := congrArg List.length hrec
  rw [List.length_append, a.length_records] at hlen
  by_cases hlt : a.node.records.length < L.internalSpanSize
  · rw [if_pos hlt, if_pos hlt]
    obtain ⟨z, post', hz⟩ : ∃ z post', post = z :: post' := List.exists_cons_of_length_pos (by omega)
    rw [hz] at hrec
    obtain ⟨ho, hn⟩ := shiftAndInsert_spec hrec (fun e he => ne_null he) h.sorted
      (fun e he => h.rest e (by rw [← hpost, hz]; exact List.mem_cons_of_mem _ he)) hk hno v
    refine ⟨?_, fun y hy => by cases hy; exact ho⟩
    show _ = Except.ok (InternalInsert.write (a.shiftAndInsert k v a.node.records.length).node)
    rw [hn]
    rfl
  · rw [if_neg hlt, if_neg hlt]
    have hfull : a.node.records = a.records := by
      have hnil : post = [] := List.eq_nil_of_length_eq_zero (by omega)
      rw [hnil, List.append_nil] at hrec
      exact hrec.symm
    obtain ⟨x, hx, hn, hl, hr⟩ := nodeSplitAndUnlock_spec (a := a) (fun e he => ne_null (hfull.symm ▸ he))
      (hfull ▸ h.sorted) hk (hfull ▸ hno) v level newAddr
    rw [hx, hn]
    exact ⟨rfl, fun y hy => by cases hy; exact ⟨hl, hr⟩⟩

/-! ## The routing sequence -/

/-- The order of the records. -/
def KeyLe (e e' : InternalEntry) : Prop := e.key ≤ e'.key

instance : DecidableRel KeyLe := fun e e' => inferInstanceAs (Decidable (e.key ≤ e'.key))

/-- What a split of `nd` at the address of the new node leaves, once the separator `k` with the child `v` is in. -/
structure SplitRoute (nd : InternalNode) (k : Nat) (v siblingAddr : GlobalAddress) (x : InternalSplit) : Prop where
  /-- the children from left to right, through the left node, the separator for the parent, and the right node -/
  leftmost : x.left.leftmostPtr = nd.leftmostPtr
  sequence : x.left.records ++ ⟨x.splitKey, x.right.leftmostPtr⟩ :: x.right.records =
    nd.records.orderedInsert KeyLe ⟨k, v⟩
  left_ne : x.left.records ≠ []
  right_ne : x.right.records ≠ []
  left_fences : x.left.lowest = nd.lowest ∧ x.left.highest = x.splitKey
  right_fences : x.right.lowest = x.splitKey ∧ x.right.highest = nd.highest
  siblings : x.left.siblingPtr = siblingAddr ∧ x.right.siblingPtr = nd.siblingPtr
  left_siblingLeftmost : x.left.siblingLeftmostPtr = x.right.leftmostPtr
  right_siblingLeftmost : x.right.siblingLeftmostPtr = nd.siblingLeftmostPtr

/-- The split of a node with at least three records. -/
theorem nodeSplit_route {nd : InternalNode} (hx : ∀ e ∈ nd.records, e.key ≠ kkeyNull)
    (hs : nd.records.Pairwise fun x y => x.key < y.key) (h3 : 3 ≤ nd.records.length) {k : Nat}
    (hno : ∀ e ∈ nd.records, e.key ≠ k) (v : GlobalAddress) (level : Nat) (siblingAddr : GlobalAddress)
    {x : InternalSplit}
    (h : Chime.nodeSplitAndUnlock L nd k v level siblingAddr = .ok x) : SplitRoute nd k v siblingAddr x := by
  obtain ⟨l, e, r, hcut, hl⟩ := exists_middle nd.records (by omega)
  have hmem : e ∈ nd.records := by
    rw [hcut]
    simp
  obtain ⟨hsl, hser, hler⟩ := List.pairwise_append.1 (hcut ▸ hs)
  have hlen := congrArg List.length hcut
  rw [List.length_append, List.length_cons] at hlen
  have hlne : l ≠ [] := List.ne_nil_of_length_pos (by omega)
  have hrne : r ≠ [] := List.ne_nil_of_length_pos (by omega)
  have hnol : ∀ b ∈ l, b.key ≠ k := fun b hb => hno b (hcut ▸ List.mem_append_left _ hb)
  have hnor : ∀ b ∈ r, b.key ≠ k :=
    fun b hb => hno b (hcut ▸ List.mem_append_right _ (List.mem_cons_of_mem _ hb))
  have hne : ∀ es : List InternalEntry, Chime.shiftAndInsert es k v ≠ [] :=
    fun es => List.ne_nil_of_mem (mem_shiftAndInsert.2 (.inl rfl))
  have hord : ∀ es : List InternalEntry, es.orderedInsert KeyLe ⟨k, v⟩ =
      es.orderedInsert (fun a b => a.key ≤ b.key) ⟨k, v⟩ := fun _ => rfl
  rw [nodeSplit_middle hcut hl (hx e hmem) hs] at h
  obtain rfl := Except.ok.inj h
  -- the new record goes to the side of `e` where it belongs
  by_cases hke : k < e.key
  · refine ⟨rfl, ?_, ?_, ?_, ⟨rfl, rfl⟩, ⟨rfl, rfl⟩, ⟨rfl, rfl⟩, rfl, rfl⟩ <;> simp only [if_pos hke]
    · rw [hcut, SortedArray.orderedInsert_left KeyLe (show KeyLe ⟨k, v⟩ e from hke.le), hord, shiftAndInsert_eq hnol]
    · exact hne l
    · exact hrne
  · have hek : e.key ≠ k := hno e hmem
    have hlt : ∀ b ∈ l, ¬KeyLe ⟨k, v⟩ b := fun b hb => by
      have := hler b hb e List.mem_cons_self
      exact Nat.not_le.2 (by omega : b.key < k)
    refine ⟨rfl, ?_, ?_, ?_, ⟨rfl, rfl⟩, ⟨rfl, rfl⟩, ⟨rfl, rfl⟩, rfl, rfl⟩ <;> simp only [if_neg hke]
    · rw [hcut, SortedArray.orderedInsert_right KeyLe (Nat.not_le.2 (by omega : e.key < k)) hlt, hord,
        shiftAndInsert_eq hnor]
    · exact hlne
    · exact hne r

/-- How an insert of the separator `k` with the child `v` into `a` ends, `k` being between the fences: it gives up on an
invalid node from the cache, or writes a node with the new record in its place, or splits a full node. -/
inductive InsertRoute (a : InternalArray L) (k : Nat) (v : GlobalAddress) (fromCache : Bool) (newAddr : GlobalAddress) :
    Checked (Insert L) → Prop
  | invalid : fromCache = true → a.metadata.valid = false → InsertRoute a k v fromCache newAddr (.ok .invalid)
  | write (b : InternalArray L) : a.node.records.length < L.internalSpanSize → b.Ordered → b.metadata = a.metadata →
      b.node.records = a.node.records.orderedInsert KeyLe ⟨k, v⟩ → InsertRoute a k v fromCache newAddr (.ok (.write b))
  | split (x : Split L) : a.node.records.length = L.internalSpanSize → x.left.Ordered → x.right.Ordered →
      SplitRoute a.node k v newAddr x.node → InsertRoute a k v fromCache newAddr (.ok (.split x))

theorem nodeWith_inj {md md' : InternalMetadata} {xs ys : List InternalEntry} (h : md.nodeWith xs = md'.nodeWith ys) :
    md = md' ∧ xs = ys := by
  obtain ⟨⟩ := md
  obtain ⟨⟩ := md'
  simp only [InternalMetadata.nodeWith, InternalNode.mk.injEq] at h
  simp only [InternalMetadata.mk.injEq]
  tauto

theorem Insert.of_node {y : Checked (Insert L)} {z : InternalInsert} (h : Except.ok z = y.map Insert.node) :
    ∃ w, y = .ok w ∧ w.node = z := by
  cases y with
  | error a => cases h
  | ok w => exact ⟨w, rfl, (Except.ok.inj h).symm⟩

/-- **Internal inserts keep the ordered routing sequence**, with a split or without. -/
theorem internal_insert_route (h3 : 3 ≤ L.internalSpanSize) {a : InternalArray L} (h : a.Ordered) {k : Nat}
    (hk : k ≠ kkeyNull) (hlow : a.metadata.lowest ≤ k) (hhigh : k < a.metadata.highest)
    (hno : ∀ e ∈ a.node.records, e.key ≠ k) (v : GlobalAddress) (fromCache : Bool) (level : Nat)
    (newAddr : GlobalAddress) :
    InsertRoute a k v fromCache newAddr (a.internalNodeInsert k v fromCache level newAddr) := by
  obtain ⟨hnode, hord⟩ := internalNodeInsert_node h hk v fromCache level newAddr
  have hcond : (fromCache = true ∧ (¬a.node.valid = true ∨ k < a.node.lowest ∨ k ≥ a.node.highest)) ↔
      fromCache = true ∧ a.metadata.valid = false := by
    have h1 : ¬k < a.node.lowest := not_lt.2 hlow
    have h2 : ¬k ≥ a.node.highest := not_le.2 hhigh
    simp only [h1, h2, or_false, Bool.not_eq_true]
    exact Iff.rfl
  have hge : ¬k ≥ a.node.highest := not_le.2 hhigh
  have hle : k ≥ a.node.lowest := hlow
  simp only [Chime.internalNodeInsert, hcond, if_neg hge, Checked.assert_of hle, Checked.assert_of hno, Checked.ok_bind,
    Checked.pure_eq_ok] at hnode
  split at hnode
  · rename_i hinv
    obtain ⟨w, hw, hwn⟩ := Insert.of_node hnode
    rw [hw]
    cases w with
    | invalid => exact .invalid hinv.1 hinv.2
    | turnRight p => cases hwn
    | write b => cases hwn
    | split x => cases hwn
  split at hnode
  · rename_i hlt
    obtain ⟨w, hw, hwn⟩ := Insert.of_node hnode
    rw [hw]
    cases w with
    | invalid => cases hwn
    | turnRight p => cases hwn
    | write b =>
      have hb : b.node = a.metadata.nodeWith (Chime.shiftAndInsert a.node.records k v) := InternalInsert.write.inj hwn
      obtain ⟨hmd, hrec⟩ := nodeWith_inj hb
      exact .write b hlt (hord _ hw) hmd (hrec.trans (shiftAndInsert_eq hno v))
    | split x => cases hwn
  · rename_i hlt
    have hfull : a.node.records.length = L.internalSpanSize := by
      have hlen := congrArg List.length a.records_eq
      rw [List.length_append, a.length_records] at hlen
      omega
    cases hsplit : Chime.nodeSplitAndUnlock L a.node k v level newAddr with
    | error e =>
      obtain ⟨l, e, r, hcut, hl⟩ := exists_middle a.node.records (by omega)
      have hmem : e ∈ a.node.records := by
        rw [hcut]
        simp
      rw [nodeSplit_middle hcut hl (ne_null hmem) h.sorted] at hsplit
      cases hsplit
    | ok z =>
      rw [hsplit] at hnode
      obtain ⟨w, hw, hwn⟩ := Insert.of_node hnode
      rw [hw]
      cases w with
      | invalid => cases hwn
      | turnRight p => cases hwn
      | write b => cases hwn
      | split x =>
        have hx : x.node = z := InternalInsert.split.inj hwn
        obtain ⟨hl, hr⟩ := hord _ hw
        exact .split x hfull hl hr
          (hx ▸ nodeSplit_route (fun e he => ne_null he) h.sorted (by omega) hno v level newAddr hsplit)

/-- A full node of the small build. -/
def full : InternalArray .small :=
  ⟨⟨1, true, .at 9, .at 1, .at 10, 2, 90⟩, [⟨10, .at 2⟩, ⟨20, .at 3⟩, ⟨30, .at 4⟩, ⟨40, .at 5⟩], rfl⟩

theorem ordered_full : full.Ordered := ⟨by decide +kernel, by decide +kernel⟩

/-- The separator 25 goes to the left of the middle record 30, which is promoted. -/
theorem internal_insert_route_full : InsertRoute full 25 (.at 6) true (.at 7)
    (full.internalNodeInsert 25 (.at 6) true 1 (.at 7)) :=
  internal_insert_route (by decide) ordered_full (by decide) (by decide) (by decide) (by decide +kernel)
    (.at 6) true 1 (.at 7)

end InternalArray

end Chime

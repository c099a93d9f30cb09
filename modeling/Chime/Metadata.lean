import Chime.Buckets

/-!
# The vacancy-aware lock word (`VALOCK` of `Metadata.h`)

While a leaf is unlocked its lock word holds one bit per bucket of slots (clear: the bucket may have an empty slot) and
the slot of the leaf's largest key.
-/

namespace Chime

/-- The fields of `VALOCK` other than the lock bit. -/
structure Valock (L : Layout) where
  vacancyBitmap : BitVec L.vacancyMapBit
  maxKeyIdx : BitVec L.maxKeyIdxBit
  deriving DecidableEq, Repr

variable [Arithmetic]

/-- `VALOCK::get_idx_range_in_bucket`: the first and the last slot of a bucket. -/
def getIdxRangeInBucket (vacancyMapBit spanSize bucket : Nat) : Nat × Nat :=
  let rIdx := Arithmetic.getFirst vacancyMapBit spanSize (bucket + 1) - 1
  (Arithmetic.getFirst vacancyMapBit spanSize bucket, if spanSize ≤ rIdx then spanSize - 1 else rIdx)

namespace Valock

variable {L : Layout}

/-- `VALOCK(vacancy_bitmap, max_key_idx)`. -/
def mk' (vacancyBitmap maxKeyIdx : Nat) : Valock L := ⟨BitVec.ofNat _ vacancyBitmap, BitVec.ofNat _ maxKeyIdx⟩

def getMaxKeyIdx (w : Valock L) : Nat := w.maxKeyIdx.toNat

def updateMaxKeyIdx (w : Valock L) (maxKeyIdx : Nat) : Valock L := { w with maxKeyIdx := BitVec.ofNat _ maxKeyIdx }

/-- Set the bits `l, …, r`. -/
def setBits {w : Nat} (bm : BitVec w) (l r : Nat) : BitVec w :=
  (List.range' l (r + 1 - l)).foldl (fun b i => b ||| BitVec.twoPow w i) bm

/-- The body of the second loop of `update_vacancy`: clear the bit of an empty slot. -/
def clearBucket (lBit rBit : Nat) (bm : BitVec L.vacancyMapBit) (emptyIdx : Nat) :
    Checked (BitVec L.vacancyMapBit) := do
  let i := Arithmetic.findBucket L.vacancyMapBit L.leafSpanSize emptyIdx
  if lBit ≤ rBit then Checked.assert .updateVacancy (lBit ≤ i ∧ i ≤ rBit)
  else Checked.assert .updateVacancy (i ≤ rBit ∨ (lBit ≤ i ∧ i < L.vacancyMapBit))
  return bm &&& ~~~BitVec.twoPow _ i

/-- `VALOCK::update_vacancy` for a leaf: the buckets of the segment `[l, r]` are full but for the given empty slots. -/
def updateVacancy (w : Valock L) (l r : Nat) (emptyIdxes : List Nat) : Checked (Valock L) := do
  let lBit := Arithmetic.findBucket L.vacancyMapBit L.leafSpanSize l
  let rBit := Arithmetic.findBucket L.vacancyMapBit L.leafSpanSize r
  let bm := if lBit ≤ rBit then setBits w.vacancyBitmap lBit rBit
    else setBits (setBits w.vacancyBitmap 0 rBit) lBit (L.vacancyMapBit - 1)
  let bm ← emptyIdxes.foldlM (clearBucket lBit rBit) bm
  return { w with vacancyBitmap := bm }

/-- The body of the loop of `get_read_entry_num_from_bitmap`, `none` where it goes on. -/
def readUpTo (w : Valock L) (startIdx sBit i : Nat) : Option Nat :=
  let eBit := (sBit + i) % L.vacancyMapBit
  if w.vacancyBitmap.getLsbD eBit then none
  else
    let (lIdx, rIdx) := getIdxRangeInBucket L.vacancyMapBit L.leafSpanSize eBit
    if startIdx > lIdx then none
    else
      let entryNum := (rIdx + L.leafSpanSize - startIdx + 1) % L.leafSpanSize
      some (if entryNum ≠ 0 then entryNum else L.leafSpanSize)

/-- `VALOCK::get_read_entry_num_from_bitmap` for a leaf. -/
def getReadEntryNumFromBitmap (w : Valock L) (startIdx : Nat) : Nat :=
  let sBit := Arithmetic.findBucket L.vacancyMapBit L.leafSpanSize startIdx
  ((List.range L.vacancyMapBit).findSome? (w.readUpTo startIdx sBit)).getD L.leafSpanSize

end Valock
end Chime

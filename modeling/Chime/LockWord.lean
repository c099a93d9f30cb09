import Chime.Metadata
import Mathlib.Tactic.SplitIfs

/-!
# What the lock word says

* `update_vacancy` sets the bits of the buckets it covers, but for those with a given empty slot
  (`updateVacancy_spec`);
* the number of entries that `get_read_entry_num_from_bitmap` returns is the whole leaf, or reaches past all slots of a
  bucket whose bit is clear, if the range of that bucket has its slots (`readEntryNum_spec`). The exact ranges always do
  (`inRange_exact`).
-/

namespace Chime

/-- The exact range of a bucket. -/
theorem getIdxRangeInBucket_eq {M S : Nat} (hM : 0 < M) (hMS : M ≤ S) {b : Nat} (hb : b < M) :
    getIdxRangeInBucket M S b = (Exact.getFirst M S b, Exact.getFirst M S (b + 1) - 1) := by
  have h1 := Exact.getFirst_lt hM hMS b
  have h2 := Exact.getFirst_le (S := S) hM (show b + 1 ≤ M from hb)
  simp only [getIdxRangeInBucket, Arithmetic.exact_getFirst]
  rw [if_neg (by omega)]

theorem getIdxRangeInBucket_lt [Arithmetic] (M b : Nat) {S : Nat} (hS : 0 < S) : (getIdxRangeInBucket M S b).2 < S := by
  simp only [getIdxRangeInBucket]
  split_ifs <;> omega

namespace Valock

/-! ## The bits -/

theorem getLsbD_setBits {w : Nat} (bm : BitVec w) (l r b : Nat) (hb : b < w) :
    (setBits bm l r).getLsbD b = (bm.getLsbD b || decide (l ≤ b ∧ b ≤ r)) := by
  have hfold : ∀ (n m : Nat) (bm : BitVec w),
      ((List.range' m n).foldl (fun b i => b ||| BitVec.twoPow w i) bm).getLsbD b =
        (bm.getLsbD b || decide (m ≤ b ∧ b < m + n)) := by
    intro n
    induction n with
    | zero =>
      intro m bm
      simp
    | succ n ih =>
      intro m bm
      rw [List.range'_succ, List.foldl_cons, ih, BitVec.getLsbD_or, BitVec.getLsbD_twoPow, Bool.or_assoc]
      congr 1
      have : (m < w ∧ m = b ∨ m + 1 ≤ b ∧ b < m + 1 + n) ↔ (m ≤ b ∧ b < m + (n + 1)) := by omega
      rw [← Bool.decide_and, ← Bool.decide_or]
      exact decide_eq_decide.2 this
  rw [setBits, hfold]
  congr 1
  exact decide_eq_decide.2 (by omega)

variable {L : Layout}

section Buckets

variable [Arithmetic]

/-- The bucket of a slot. -/
def bucketOf (L : Layout) (x : Nat) : Nat := Arithmetic.findBucket L.vacancyMapBit L.leafSpanSize x

theorem bucketOf_lt (x : Nat) : bucketOf L x < L.vacancyMapBit := Arithmetic.findBucket_lt L.vacancyMapBit_pos x

theorem bucketOf_zero : bucketOf L 0 = 0 := by
  obtain ⟨i, hi, h⟩ := Arithmetic.findBucket_surj L.buckets L.vacancyMapBit_pos
  have hle : bucketOf L 0 ≤ 0 := (Arithmetic.findBucket_mono L.buckets (Nat.zero_le i) hi).trans_eq h
  exact Nat.le_zero.1 hle

theorem bucketOf_last : bucketOf L (L.leafSpanSize - 1) = L.vacancyMapBit - 1 := by
  have hpos := L.vacancyMapBit_pos
  have hspan := L.leafSpanSize_pos
  obtain ⟨i, hi, h⟩ := Arithmetic.findBucket_surj L.buckets (Nat.sub_lt hpos Nat.one_pos)
  have hle : L.vacancyMapBit - 1 ≤ bucketOf L (L.leafSpanSize - 1) :=
    h ▸ Arithmetic.findBucket_mono L.buckets (Nat.le_sub_one_of_lt hi) (Nat.sub_lt hspan Nat.one_pos)
  have := bucketOf_lt (L := L) (L.leafSpanSize - 1)
  omega

/-- The buckets whose bits `update_vacancy` sets for a segment. -/
def Covered (lBit rBit b : Nat) : Prop := if lBit ≤ rBit then lBit ≤ b ∧ b ≤ rBit else b ≤ rBit ∨ lBit ≤ b

instance (lBit rBit b : Nat) : Decidable (Covered lBit rBit b) := by
  unfold Covered
  infer_instance

/-- One round of the loop over the empty slots. -/
theorem clearBucket_spec {lBit rBit x : Nat} (hc : Covered lBit rBit (bucketOf L x)) (bm : BitVec L.vacancyMapBit) :
    ∃ bm', clearBucket lBit rBit bm x = .ok bm' ∧
      ∀ b < L.vacancyMapBit, bm'.getLsbD b = (bm.getLsbD b && decide (bucketOf L x ≠ b)) := by
  have hlt := bucketOf_lt (L := L) x
  refine ⟨bm &&& ~~~BitVec.twoPow _ (bucketOf L x), ?_, fun b hb => ?_⟩
  · unfold Covered at hc
    unfold bucketOf at hc hlt ⊢
    simp only [clearBucket]
    split_ifs at hc ⊢ with h
    · rw [Checked.assert_of hc]
      rfl
    · rw [Checked.assert_of (hc.imp_right fun h => ⟨h, hlt⟩)]
      rfl
  · simp only [BitVec.getLsbD_and, BitVec.getLsbD_not, BitVec.getLsbD_twoPow, hb, hlt, decide_true, Bool.true_and]
    rw [← decide_not]

/-- The loop over the empty slots. -/
theorem clearFold_spec {lBit rBit : Nat} (xs : List Nat) (hc : ∀ x ∈ xs, Covered lBit rBit (bucketOf L x))
    (bm : BitVec L.vacancyMapBit) :
    ∃ bm', xs.foldlM (clearBucket lBit rBit) bm = .ok bm' ∧
      ∀ b < L.vacancyMapBit, (bm'.getLsbD b = false ↔ (∃ x ∈ xs, bucketOf L x = b) ∨ bm.getLsbD b = false) := by
  induction xs generalizing bm with
  | nil => exact ⟨bm, rfl, by simp⟩
  | cons x xs ih =>
    obtain ⟨bm₁, h₁, hb₁⟩ := clearBucket_spec (hc x List.mem_cons_self) bm
    obtain ⟨bm', h', hb'⟩ := ih (fun y hy => hc y (List.mem_cons_of_mem _ hy)) bm₁
    refine ⟨bm', ?_, fun b hb => ?_⟩
    · rw [List.foldlM_cons, h₁, Checked.ok_bind, h']
    · rw [hb' b hb, hb₁ b hb, Bool.and_eq_false_iff, decide_eq_false_iff_not, not_not]
      simp only [List.mem_cons, exists_eq_or_imp]
      rw [or_comm (a := bm.getLsbD b = false), or_assoc, or_left_comm]

/-- **`update_vacancy`**: a bit is clear afterwards if its bucket has one of the empty slots, or if it was clear and
its bucket is not covered. -/
theorem updateVacancy_spec (w : Valock L) (l r : Nat) (xs : List Nat)
    (hc : ∀ x ∈ xs, Covered (bucketOf L l) (bucketOf L r) (bucketOf L x)) :
    ∃ w', w.updateVacancy l r xs = .ok w' ∧ w'.getMaxKeyIdx = w.getMaxKeyIdx ∧
      ∀ b < L.vacancyMapBit, (w'.vacancyBitmap.getLsbD b = false ↔ (∃ x ∈ xs, bucketOf L x = b) ∨
        (¬Covered (bucketOf L l) (bucketOf L r) b ∧ w.vacancyBitmap.getLsbD b = false)) := by
  have hset : ∀ b < L.vacancyMapBit, ((if bucketOf L l ≤ bucketOf L r then setBits w.vacancyBitmap (bucketOf L l)
      (bucketOf L r) else setBits (setBits w.vacancyBitmap 0 (bucketOf L r)) (bucketOf L l)
        (L.vacancyMapBit - 1)).getLsbD b = false ↔
      ¬Covered (bucketOf L l) (bucketOf L r) b ∧ w.vacancyBitmap.getLsbD b = false) := by
    intro b hb
    unfold Covered
    split_ifs with h
    · rw [getLsbD_setBits _ _ _ _ hb, Bool.or_eq_false_iff, decide_eq_false_iff_not]
      tauto
    · rw [getLsbD_setBits _ _ _ _ hb, getLsbD_setBits _ _ _ _ hb, Bool.or_eq_false_iff, Bool.or_eq_false_iff,
        decide_eq_false_iff_not, decide_eq_false_iff_not]
      have : b ≤ L.vacancyMapBit - 1 := by omega
      simp only [this, Nat.zero_le, and_true, true_and]
      tauto
  obtain ⟨bm', h', hb'⟩ := clearFold_spec xs hc (if bucketOf L l ≤ bucketOf L r then
    setBits w.vacancyBitmap (bucketOf L l) (bucketOf L r)
    else setBits (setBits w.vacancyBitmap 0 (bucketOf L r)) (bucketOf L l) (L.vacancyMapBit - 1))
  refine ⟨{ w with vacancyBitmap := bm' }, ?_, rfl, fun b hb => ?_⟩
  · simp only [updateVacancy]
    unfold bucketOf at h'
    rw [h', Checked.ok_bind]
    rfl
  · rw [hb' b hb, hset b hb]

/-! ## How much to read -/

/-- The range of the bucket is not empty, and has all slots of the bucket. -/
def RangeOk (L : Layout) (b : Nat) : Prop :=
  let range := getIdxRangeInBucket L.vacancyMapBit L.leafSpanSize b
  range.1 ≤ range.2 ∧ ∀ x < L.leafSpanSize, bucketOf L x = b → range.1 ≤ x ∧ x ≤ range.2

instance (b : Nat) : Decidable (RangeOk L b) := inferInstanceAs (Decidable (_ ∧ _))

/-- The bucket at which the loop of `get_read_entry_num_from_bitmap` stops. -/
def stopBucket (w : Valock L) (startIdx : Nat) : Option Nat :=
  (List.range L.vacancyMapBit).findSome? fun i =>
    (w.readUpTo startIdx (bucketOf L startIdx) i).map fun _ => (bucketOf L startIdx + i) % L.vacancyMapBit

/-- The range of the bucket at which the loop stops, if it does, has the slots of the bucket. -/
def InRange (w : Valock L) (startIdx : Nat) : Prop := ∀ b ∈ w.stopBucket startIdx, RangeOk L b

instance (w : Valock L) (startIdx : Nat) : Decidable (w.InRange startIdx) :=
  inferInstanceAs (Decidable (∀ b ∈ w.stopBucket startIdx, RangeOk L b))

/-- All slots of a bucket with a clear bit lie in the `n` slots from `start` on. -/
def ReadsBucket (w : Valock L) (start n : Nat) : Prop :=
  ∃ b < L.vacancyMapBit, w.vacancyBitmap.getLsbD b = false ∧
    ∀ x < L.leafSpanSize, bucketOf L x = b → start ≤ x ∧ x < start + n

/-- **`get_read_entry_num_from_bitmap`** names the whole leaf, or a part that does not wrap around and contains a
bucket with a clear bit. -/
theorem readEntryNum_spec (w : Valock L) {start : Nat} (hs : start < L.leafSpanSize) (hr : w.InRange start) :
    w.getReadEntryNumFromBitmap start = L.leafSpanSize ∨
    (0 < w.getReadEntryNumFromBitmap start ∧ start + w.getReadEntryNumFromBitmap start ≤ L.leafSpanSize ∧
      w.ReadsBucket start (w.getReadEntryNumFromBitmap start)) := by
  have hget : w.getReadEntryNumFromBitmap start =
      ((List.range L.vacancyMapBit).findSome? (w.readUpTo start (bucketOf L start))).getD L.leafSpanSize := rfl
  rw [hget]
  cases hf : (List.range L.vacancyMapBit).findSome? (w.readUpTo start (bucketOf L start)) with
  | none => exact .inl rfl
  | some n =>
    obtain ⟨before, i, after, hlist, hi, hno⟩ := List.findSome?_eq_some_iff.1 hf
    rw [Option.getD_some]
    have hstop : w.stopBucket start = some ((bucketOf L start + i) % L.vacancyMapBit) :=
      List.findSome?_eq_some_iff.2 ⟨before, i, after, hlist, by rw [hi]; rfl, fun j hj => by rw [hno j hj]; rfl⟩
    obtain ⟨hle, hslots⟩ := hr _ hstop
    have hlt : (bucketOf L start + i) % L.vacancyMapBit < L.vacancyMapBit := Nat.mod_lt _ L.vacancyMapBit_pos
    simp only [readUpTo] at hi
    generalize (bucketOf L start + i) % L.vacancyMapBit = eBit at hi hle hslots hlt
    have hspan := getIdxRangeInBucket_lt L.vacancyMapBit eBit L.leafSpanSize_pos
    generalize getIdxRangeInBucket L.vacancyMapBit L.leafSpanSize eBit = range at hi hle hslots hspan
    obtain ⟨lIdx, rIdx⟩ := range
    simp only at hi hle hslots hspan
    rw [show rIdx + L.leafSpanSize - start + 1 = rIdx + L.leafSpanSize + 1 - start by omega] at hi
    split_ifs at hi with hbit hst hnum
    · have hn := Option.some.inj hi
      have hne : rIdx + 1 - start ≠ L.leafSpanSize := by
        intro he
        rw [show rIdx + L.leafSpanSize + 1 - start = L.leafSpanSize + L.leafSpanSize by omega, Nat.add_mod_right,
          Nat.mod_self] at hnum
        exact hnum rfl
      rw [show rIdx + L.leafSpanSize + 1 - start = rIdx + 1 - start + L.leafSpanSize by omega, Nat.add_mod_right,
        Nat.mod_eq_of_lt (by omega)] at hn
      refine .inr ⟨by omega, by omega, eBit, hlt, by simpa using hbit, fun x hx he => ?_⟩
      have := hslots x hx he
      omega
    · exact .inl (Option.some.inj hi).symm

end Buckets

/-- A range has its slots if nothing is rounded. -/
theorem rangeOk_of_exact [Arithmetic]
    (hfind : ∀ x < L.leafSpanSize, bucketOf L x = Exact.findBucket L.vacancyMapBit L.leafSpanSize x)
    (hfirst : ∀ b ≤ L.vacancyMapBit, Arithmetic.getFirst L.vacancyMapBit L.leafSpanSize b =
      Exact.getFirst L.vacancyMapBit L.leafSpanSize b) {b : Nat} (hb : b < L.vacancyMapBit) : RangeOk L b := by
  have hM := L.vacancyMapBit_pos
  have hlt := Exact.getFirst_lt hM L.vacancyMapBit_le b
  have hle := Exact.getFirst_le (S := L.leafSpanSize) hM (show b + 1 ≤ L.vacancyMapBit from hb)
  simp only [RangeOk, getIdxRangeInBucket, hfirst b hb.le, hfirst (b + 1) hb]
  rw [if_neg (by omega)]
  refine ⟨by omega, fun x hx he => ?_⟩
  have := (Exact.findBucket_eq_iff hM hx).1 ((hfind x hx).symm.trans he)
  omega

/-- The bucket at which the loop stops is one of the buckets. -/
theorem stopBucket_lt [Arithmetic] {w : Valock L} {start b : Nat} (h : b ∈ w.stopBucket start) :
    b < L.vacancyMapBit := by
  obtain ⟨i, -, hi⟩ := List.exists_of_findSome?_eq_some h
  obtain ⟨n, -, rfl⟩ := Option.map_eq_some_iff.1 hi
  exact Nat.mod_lt _ L.vacancyMapBit_pos

theorem inRange_exact (w : Valock L) (start : Nat) : w.InRange start :=
  fun _ hb => rangeOk_of_exact (fun _ _ => rfl) (fun _ _ => rfl) (stopBucket_lt hb)

/-- Where the sizes have no common divisor, at most the end of the last bucket is rounded. -/
theorem inRange_of_coprime (hcop : Nat.Coprime L.vacancyMapBit L.leafSpanSize)
    (hlast : getFirst L.vacancyMapBit L.leafSpanSize L.vacancyMapBit = L.leafSpanSize) (w : Valock L) (start : Nat) :
    @InRange L .double w start := by
  intro b hb
  have hM := L.vacancyMapBit_pos
  refine @rangeOk_of_exact L .double (fun x hx => ?_) (fun c hc => ?_) b (@stopBucket_lt L .double w start b hb)
  · refine (findBucket_cases L.buckets hx).resolve_right fun hround => ?_
    obtain ⟨hd, he⟩ := hround
    -- only the first slot has an integer quotient
    obtain rfl : x = 0 := Nat.eq_zero_of_dvd_of_lt (hcop.symm.dvd_of_dvd_mul_right hd) hx
    simp [Exact.findBucket] at he
  · refine (getFirst_cases L.buckets hc).resolve_right fun hround => ?_
    obtain ⟨hd, he⟩ := hround
    have hdvd : L.vacancyMapBit ∣ c := hcop.dvd_of_dvd_mul_right hd
    rcases hc.eq_or_lt with rfl | hlt
    · have hle := Exact.getFirst_le (S := L.leafSpanSize) hM (le_refl L.vacancyMapBit)
      omega
    · obtain rfl : c = 0 := Nat.eq_zero_of_dvd_of_lt hdvd hlt
      simp [Exact.getFirst] at he

end Valock
end Chime

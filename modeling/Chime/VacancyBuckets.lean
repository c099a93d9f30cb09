import Chime.LockWord
import Mathlib.Algebra.Order.Floor.Semifield
import Mathlib.Data.Rat.Floor
import Mathlib.Tactic.FieldSimp

/-!
# The buckets of the vacancy bitmap

In rational numbers `find_bucket` and `get_idx_range_in_bucket` are inverse to each other: the ranges are the buckets,
and they cut the slots of a node into consecutive non-empty intervals (`vacancy_buckets_partition`). The walk of
`get_read_entry_num_from_bitmap` around the buckets, which computes their ranges with doubles, is compared with the
nearest vacant bucket around the node. It never takes a bucket that lies before the start, and it misses the first or
the last slot of a bucket where the product of doubles is less than the integer it should be
(`readEntryNum_nearest_iff`).
-/

namespace Chime

variable {M S : Nat}

/-! ## Exact arithmetic -/

/-- `find_bucket` over the rational numbers. -/
theorem Exact.findBucket_eq_floor (hS : 0 < S) (hM : 0 < M) (kvIdx : Nat) :
    Exact.findBucket M S kvIdx = ⌊(kvIdx : ℚ) / ((S : ℚ) / M)⌋₊ % M := by
  have hq : (kvIdx : ℚ) / ((S : ℚ) / M) = ((kvIdx * M : Nat) : ℚ) / (S : ℚ) := by
    have : (S : ℚ) ≠ 0 := by exact_mod_cast hS.ne'
    have : (M : ℚ) ≠ 0 := by exact_mod_cast hM.ne'
    push_cast
    field_simp
  rw [hq, Nat.floor_div_eq_div, Exact.findBucket]

/-- `get_first` over the rational numbers. -/
theorem Exact.getFirst_eq_floor (bucketId : Nat) : Exact.getFirst M S bucketId =
    (if bucketId ≠ 0 then ⌊(bucketId : ℚ) * ((S : ℚ) / M)⌋₊ else 0) + if S * bucketId % M ≠ 0 then 1 else 0 := by
  have hq : (bucketId : ℚ) * ((S : ℚ) / M) = ((bucketId * S : Nat) : ℚ) / (M : ℚ) := by
    push_cast
    rw [mul_div_assoc]
  rw [hq, Nat.floor_div_eq_div, Exact.getFirst]
  split_ifs <;> rfl

/-! ## The partition -/

/-- **Vacancy buckets.** A slot is in a bucket exactly if it is in the range of the bucket; the ranges are not empty,
follow one another, begin at the first slot and end at the last one. -/
theorem vacancy_buckets_partition (hM : 1 ≤ M) (hMS : M ≤ S) :
    (∀ i < S, ∀ b < M, Exact.findBucket M S i = b ↔
      (getIdxRangeInBucket M S b).1 ≤ i ∧ i ≤ (getIdxRangeInBucket M S b).2) ∧
    (∀ b < M, (getIdxRangeInBucket M S b).1 ≤ (getIdxRangeInBucket M S b).2) ∧
    (∀ b, b + 1 < M → (getIdxRangeInBucket M S b).2 + 1 = (getIdxRangeInBucket M S (b + 1)).1) ∧
    (getIdxRangeInBucket M S 0).1 = 0 ∧ (getIdxRangeInBucket M S (M - 1)).2 = S - 1 ∧
    ∀ i < S, ∃ b < M, (getIdxRangeInBucket M S b).1 ≤ i ∧ i ≤ (getIdxRangeInBucket M S b).2 := by
  have hrange : ∀ b < M, getIdxRangeInBucket M S b = (Exact.getFirst M S b, Exact.getFirst M S (b + 1) - 1) :=
    fun b hb => getIdxRangeInBucket_eq hM hMS hb
  have hlt : ∀ b, Exact.getFirst M S b < Exact.getFirst M S (b + 1) := Exact.getFirst_lt hM hMS
  have hbucket : ∀ i < S, ∀ b < M, Exact.findBucket M S i = b ↔
      (getIdxRangeInBucket M S b).1 ≤ i ∧ i ≤ (getIdxRangeInBucket M S b).2 := by
    intro i hi b hb
    have := hlt b
    rw [Exact.findBucket_eq_iff hM hi, hrange b hb]
    simp only
    omega
  refine ⟨hbucket, fun b hb => ?_, fun b hb => ?_, ?_, ?_, fun i hi => ?_⟩
  · have := hlt b
    rw [hrange b hb]
    simp only
    omega
  · have := hlt b
    rw [hrange b (by omega), hrange (b + 1) hb]
    simp only
    omega
  · rw [hrange 0 hM]
    simp [Exact.getFirst]
  · have hend : Exact.getFirst M S M = S := by
      have hle := Exact.getFirst_le (S := S) hM (le_refl M)
      have hge : ¬Exact.getFirst M S M ≤ S - 1 := by
        rw [Exact.getFirst_le_iff hM, Nat.mul_comm, not_le]
        exact Nat.mul_lt_mul_of_pos_right (by omega) hM
      omega
    rw [hrange (M - 1) (by omega), Nat.sub_add_cancel hM, hend]
  · exact ⟨Exact.findBucket M S i, Exact.findBucket_lt hM i, (hbucket i hi _ (Exact.findBucket_lt hM i)).1 rfl⟩

/-- Seven slots in three buckets. -/
theorem vacancy_buckets_partition_seven : Exact.findBucket 3 7 4 = 1 ↔
    (getIdxRangeInBucket 3 7 1).1 ≤ 4 ∧ 4 ≤ (getIdxRangeInBucket 3 7 1).2 :=
  (vacancy_buckets_partition (M := 3) (S := 7) (by decide) (by decide)).1 4 (by decide) 1 (by decide)

/-! ## The nearest vacant bucket -/

/-- The body of the loop of `get_read_entry_num_from_bitmap`, `none` where it goes on. -/
def readUpToBucket [Arithmetic] (bitmap : BitVec M) (spanSize startIdx eBit : Nat) : Option Nat :=
  if bitmap.getLsbD eBit then none
  else
    let (lIdx, rIdx) := getIdxRangeInBucket M spanSize eBit
    if startIdx > lIdx then none
    else
      let entryNum := (rIdx + spanSize - startIdx + 1) % spanSize
      some (if entryNum ≠ 0 then entryNum else spanSize)

/-- `get_read_entry_num_from_bitmap`, for a span size of leaves or of internal nodes. -/
def readEntryNum [Arithmetic] (bitmap : BitVec M) (spanSize startIdx : Nat) : Nat :=
  let sBit := Arithmetic.findBucket M spanSize startIdx
  ((List.range M).findSome? fun i => readUpToBucket bitmap spanSize startIdx ((sBit + i) % M)).getD spanSize

theorem readEntryNum_leaf [Arithmetic] {L : Layout} (w : Valock L) (startIdx : Nat) :
    w.getReadEntryNumFromBitmap startIdx = readEntryNum w.vacancyBitmap L.leafSpanSize startIdx := rfl

/-- A walk of `n` slots from the start, around the node, ends at the end of a vacant bucket that it has entered at its
first slot. -/
def EndsVacant (bitmap : BitVec M) (spanSize startIdx n : Nat) : Prop :=
  ∃ b < M, bitmap.getLsbD b = false ∧ (startIdx + n - 1) % spanSize = (getIdxRangeInBucket M spanSize b).2 ∧
    (getIdxRangeInBucket M spanSize b).2 + 1 ≤ (getIdxRangeInBucket M spanSize b).1 + n

instance (bitmap : BitVec M) (spanSize startIdx n : Nat) : Decidable (EndsVacant bitmap spanSize startIdx n) :=
  inferInstanceAs (Decidable (∃ b < M, _))

/-- The number of slots up to the nearest vacancy around the node; the whole span, if there is none before the walk
comes back to the start. -/
def nearestVacancy (bitmap : BitVec M) (spanSize startIdx : Nat) : Nat :=
  ((List.range' 1 spanSize).find? fun n => EndsVacant bitmap spanSize startIdx n).getD spanSize

/-- No nearer vacancy is missed. Where a vacant bucket begins at the start or after it, the doubles give the first one
of these a first slot that is not before the start, and its true end. Where none does, every vacant bucket before the
start ends right before it. -/
def NoneMissed (bitmap : BitVec M) (spanSize startIdx : Nat) : Prop :=
  (∃ b < M, bitmap.getLsbD b = false ∧ startIdx ≤ Exact.getFirst M spanSize b ∧
    (∀ b' < b, bitmap.getLsbD b' = false → Exact.getFirst M spanSize b' < startIdx) ∧
    startIdx ≤ getFirst M spanSize b ∧ getFirst M spanSize (b + 1) = Exact.getFirst M spanSize (b + 1)) ∨
  ((∀ b < M, bitmap.getLsbD b = false → Exact.getFirst M spanSize b < startIdx) ∧
    ∀ b < M, bitmap.getLsbD b = false → (getIdxRangeInBucket M spanSize b).2 < startIdx →
      (getIdxRangeInBucket M spanSize b).2 + 1 = startIdx)

instance (bitmap : BitVec M) (spanSize startIdx : Nat) : Decidable (NoneMissed bitmap spanSize startIdx) :=
  inferInstanceAs (Decidable ((∃ b < M, _) ∨ _))

section Walk

variable {bitmap : BitVec M} {startIdx n b : Nat}

theorem findSome?_range {α : Type} {f : Nat → Option α} {i n : Nat} {x : α} (hi : i < n) (hx : f i = some x)
    (hno : ∀ j < i, f j = none) : (List.range n).findSome? f = some x := by
  obtain ⟨m, rfl⟩ : ∃ m, n = i + (m + 1) := ⟨n - i - 1, by omega⟩
  have hnone : (List.range i).findSome? f = none := List.findSome?_eq_none_iff.2 fun j hj => hno j (List.mem_range.1 hj)
  rw [List.range_add, List.findSome?_append, hnone, List.range_succ_eq_map, List.map_cons, List.findSome?_cons]
  simp [hx]

theorem nearestVacancy_le (h0 : 1 ≤ n) (hn : n ≤ S) (h : EndsVacant bitmap S startIdx n) :
    nearestVacancy bitmap S startIdx ≤ n := by
  unfold nearestVacancy
  cases hf : (List.range' 1 S).find? fun n => decide (EndsVacant bitmap S startIdx n) with
  | none =>
    have := List.find?_eq_none.1 hf n (List.mem_range'_1.2 ⟨h0, by omega⟩)
    exact absurd h (by simpa using this)
  | some m =>
    obtain ⟨-, -, hmin⟩ := List.find?_range'_eq_some.1 hf
    rw [Option.getD_some]
    by_contra hlt
    have := hmin n h0 (not_le.1 hlt)
    simp [h] at this

theorem nearestVacancy_spec (bitmap : BitVec M) (S startIdx : Nat) : nearestVacancy bitmap S startIdx = S ∨
    (1 ≤ nearestVacancy bitmap S startIdx ∧ nearestVacancy bitmap S startIdx ≤ S ∧
      EndsVacant bitmap S startIdx (nearestVacancy bitmap S startIdx)) := by
  unfold nearestVacancy
  cases hf : (List.range' 1 S).find? fun n => decide (EndsVacant bitmap S startIdx n) with
  | none => exact .inl rfl
  | some m =>
    have hm := List.mem_range'_1.1 (List.mem_of_find?_eq_some hf)
    have hends : EndsVacant bitmap S startIdx m := by
      have h := List.find?_some hf
      simpa using h
    refine .inr ⟨hm.1, ?_, hends⟩
    rw [Option.getD_some]
    omega

/-- **Where a walk can end**: at the end of a bucket that begins at the start or later, or, around the node, of one
that ends before the start. -/
theorem endsVacant_iff (hM : 1 ≤ M) (hMS : M ≤ S) (hs : startIdx < S) (h0 : 1 ≤ n) (hn : n ≤ S) :
    EndsVacant bitmap S startIdx n ↔ ∃ b < M, bitmap.getLsbD b = false ∧
      ((startIdx ≤ Exact.getFirst M S b ∧ n = Exact.getFirst M S (b + 1) - startIdx) ∨
        (Exact.getFirst M S (b + 1) ≤ startIdx ∧ n = S - startIdx + Exact.getFirst M S (b + 1))) := by
  unfold EndsVacant
  refine exists_congr fun b => and_congr_right fun hb => and_congr_right fun _ => ?_
  have hlt := Exact.getFirst_lt hM hMS b
  have hle := Exact.getFirst_le (S := S) hM (show b + 1 ≤ M from hb)
  rw [getIdxRangeInBucket_eq hM hMS hb]
  simp only
  by_cases hwrap : startIdx + n - 1 < S
  · rw [Nat.mod_eq_of_lt hwrap]
    omega
  · rw [Nat.mod_eq_sub_mod (not_lt.1 hwrap), Nat.mod_eq_of_lt (by omega)]
    omega

/-- The first vacant bucket from the start on is the nearest one. -/
theorem nearestVacancy_of_vacant (hM : 1 ≤ M) (hMS : M ≤ S) (hs : startIdx < S) (hb : b < M)
    (hvacant : bitmap.getLsbD b = false) (hstart : startIdx ≤ Exact.getFirst M S b)
    (hmin : ∀ b' < b, bitmap.getLsbD b' = false → Exact.getFirst M S b' < startIdx) :
    nearestVacancy bitmap S startIdx = Exact.getFirst M S (b + 1) - startIdx := by
  have hlt := Exact.getFirst_lt hM hMS b
  have hle := Exact.getFirst_le (S := S) hM (show b + 1 ≤ M from hb)
  have hends : EndsVacant bitmap S startIdx (Exact.getFirst M S (b + 1) - startIdx) :=
    (endsVacant_iff hM hMS hs (by omega) (by omega)).2 ⟨b, hb, hvacant, .inl ⟨hstart, rfl⟩⟩
  refine le_antisymm (nearestVacancy_le (by omega) (by omega) hends) ?_
  obtain hall | ⟨hpos, hspan, hends'⟩ := nearestVacancy_spec bitmap S startIdx
  · omega
  · obtain ⟨b', hb', hv, ⟨hs', hn⟩ | ⟨-, hn⟩⟩ := (endsVacant_iff hM hMS hs hpos hspan).1 hends'
    · have hbb : b ≤ b' := by
        by_contra hlt'
        have := hmin b' (not_le.1 hlt') hv
        omega
      have := Exact.getFirst_mono (S := S) hM (show b + 1 ≤ b' + 1 by omega)
      omega
    · omega

/-- Where all vacant buckets begin before the start, only one that ends right before it leaves the whole span. -/
theorem nearestVacancy_of_none (hM : 1 ≤ M) (hMS : M ≤ S) (hs : startIdx < S)
    (hno : ∀ b < M, bitmap.getLsbD b = false → Exact.getFirst M S b < startIdx) :
    nearestVacancy bitmap S startIdx = S ↔ ∀ b < M, bitmap.getLsbD b = false →
      (getIdxRangeInBucket M S b).2 < startIdx → (getIdxRangeInBucket M S b).2 + 1 = startIdx := by
  constructor
  · intro hS b hb hv hbefore
    rw [getIdxRangeInBucket_eq hM hMS hb] at hbefore ⊢
    simp only at hbefore ⊢
    have hlt := Exact.getFirst_lt hM hMS b
    have hends : EndsVacant bitmap S startIdx (S - startIdx + Exact.getFirst M S (b + 1)) :=
      (endsVacant_iff hM hMS hs (by omega) (by omega)).2 ⟨b, hb, hv, .inr ⟨by omega, rfl⟩⟩
    have := nearestVacancy_le (by omega) (by omega) hends
    omega
  · intro hbefore
    obtain hall | ⟨hpos, hspan, hends⟩ := nearestVacancy_spec bitmap S startIdx
    · exact hall
    · obtain ⟨b, hb, hv, ⟨hs', -⟩ | ⟨hs', hn⟩⟩ := (endsVacant_iff hM hMS hs hpos hspan).1 hends
      · exact absurd hs' (not_le.2 (hno b hb hv))
      · have hend := hbefore b hb hv
        have hlt := Exact.getFirst_lt hM hMS b
        rw [getIdxRangeInBucket_eq hM hMS hb] at hend
        simp only at hend
        omega

/-! ## The loop, with doubles -/

theorem getFirst_le_exact (h : Buckets M S) (hb : b ≤ M) :
    getFirst M S b ≤ Exact.getFirst M S b ∧ Exact.getFirst M S b ≤ getFirst M S b + 1 := by
  rcases getFirst_cases h hb with he | ⟨-, he⟩ <;> omega

/-- The range of a bucket as the source computes it. -/
theorem getIdxRangeInBucket_double (h : Buckets M S) (hb : b < M) :
    @getIdxRangeInBucket .double M S b = (getFirst M S b, getFirst M S (b + 1) - 1) := by
  have h1 := getFirst_le_exact h (show b + 1 ≤ M from hb)
  have h2 := Exact.getFirst_le (S := S) h.pos (show b + 1 ≤ M from hb)
  have hS := h.pos.trans_le h.le
  show (getFirst M S b, if S ≤ getFirst M S (b + 1) - 1 then S - 1 else getFirst M S (b + 1) - 1) = _
  rw [if_neg (by omega)]

/-- Only the first bucket begins at the first slot. -/
theorem getFirst_pos (h : Buckets M S) (hb : b < M) : 0 < getFirst M S (b + 1) := by
  have hpos := (Exact.getFirst_lt h.pos h.le b).pos
  rcases getFirst_cases h (show b + 1 ≤ M from hb) with he | ⟨-, he⟩
  · omega
  by_contra h0
  have hone := (Exact.getFirst_le_iff (S := S) (x := 1) h.pos (b := b + 1)).1 (by omega)
  -- the first bucket has one slot, so every bucket has, and nothing is rounded
  have hS : S ≤ (b + 1) * S := Nat.le_mul_of_pos_left S (Nat.succ_pos b)
  obtain rfl : M = S := le_antisymm h.le (by omega)
  have := getFirst_of_dvd h ⟨2, Nat.mul_comm 2 M⟩ (show b + 1 ≤ M from hb)
  omega

/-- A bucket that begins at the start or later does not come before the bucket of the start. -/
theorem findBucket_le_of_first (h : Buckets M S) (hs : startIdx < S) (hb : b < M) (hstart : startIdx ≤ getFirst M S b) :
    findBucket M S startIdx ≤ b := by
  have hexact := (Exact.findBucket_eq_iff (M := M) (S := S) h.pos hs).1 rfl
  have hle : findBucket M S startIdx ≤ Exact.findBucket M S startIdx := by
    rcases findBucket_cases h hs with he | ⟨-, he⟩ <;> omega
  by_contra hlt
  have hmono := Exact.getFirst_mono (S := S) h.pos (show b + 1 ≤ Exact.findBucket M S startIdx by omega)
  have hnext := Exact.getFirst_lt h.pos h.le b
  have := (getFirst_le_exact h hb.le).1
  omega

/-- **The loop** takes the first vacant bucket that begins at the start or later. -/
theorem readEntryNum_of_vacant (h : Buckets M S) (hs : startIdx < S) (hb : b < M) (hvacant : bitmap.getLsbD b = false)
    (hstart : startIdx ≤ getFirst M S b) (hmin : ∀ b' < b, bitmap.getLsbD b' = false → getFirst M S b' < startIdx) :
    @readEntryNum M .double bitmap S startIdx =
      if getFirst M S (b + 1) = startIdx then S else getFirst M S (b + 1) - startIdx := by
  have hge := findBucket_le_of_first h hs hb hstart
  have hlt := Exact.getFirst_lt h.pos h.le b
  have h1 := getFirst_le_exact h hb.le
  have h2 := getFirst_le_exact h (show b + 1 ≤ M from hb)
  have h3 := Exact.getFirst_le (S := S) h.pos (show b + 1 ≤ M from hb)
  have h4 := getFirst_pos h hb
  have hfind : (List.range M).findSome? (fun i =>
      @readUpToBucket M .double bitmap S startIdx ((findBucket M S startIdx + i) % M)) =
      some (if getFirst M S (b + 1) = startIdx then S else getFirst M S (b + 1) - startIdx) := by
    set sBit := findBucket M S startIdx with hsBit
    refine findSome?_range (i := b - sBit) (by omega) ?_ fun j hj => ?_
    · rw [Nat.add_sub_cancel' hge, Nat.mod_eq_of_lt hb]
      simp only [readUpToBucket, hvacant, getIdxRangeInBucket_double h hb, Bool.false_eq_true, if_false, gt_iff_lt]
      rw [if_neg (by omega)]
      by_cases hend : getFirst M S (b + 1) = startIdx
      · rw [show getFirst M S (b + 1) - 1 + S - startIdx + 1 = S by omega, Nat.mod_self]
        simp [hend]
      · rw [show getFirst M S (b + 1) - 1 + S - startIdx + 1 = getFirst M S (b + 1) - startIdx + S by omega,
          Nat.add_mod_right, if_neg hend]
        by_cases hall : getFirst M S (b + 1) - startIdx = S
        · simp [hall]
        · rw [Nat.mod_eq_of_lt (by omega), if_pos (by omega)]
    · rw [Nat.mod_eq_of_lt (by omega)]
      cases hbit : bitmap.getLsbD (sBit + j) with
      | true => simp [readUpToBucket, hbit]
      | false =>
        have := hmin (sBit + j) (by omega) hbit
        simp [readUpToBucket, hbit, getIdxRangeInBucket_double h (show sBit + j < M by omega), this]
  exact congrArg (Option.getD · S) hfind

theorem readEntryNum_of_none (h : Buckets M S)
    (hno : ∀ b < M, bitmap.getLsbD b = false → getFirst M S b < startIdx) :
    @readEntryNum M .double bitmap S startIdx = S := by
  have hnone : (List.range M).findSome? (fun i =>
      @readUpToBucket M .double bitmap S startIdx ((findBucket M S startIdx + i) % M)) = none := by
    refine List.findSome?_eq_none_iff.2 fun i _ => ?_
    have hlt : (findBucket M S startIdx + i) % M < M := Nat.mod_lt _ h.pos
    cases hbit : bitmap.getLsbD ((findBucket M S startIdx + i) % M) with
    | true => simp [readUpToBucket, hbit]
    | false =>
      have := hno _ hlt hbit
      simp [readUpToBucket, hbit, getIdxRangeInBucket_double h hlt, this]
  exact congrArg (Option.getD · S) hnone

/-- Where the first slots of two buckets at a distance of two are rounded, the span is a multiple of half the number of
buckets, and nothing is rounded. -/
theorem getFirst_exact_of_both (h : Buckets M S) (hb : b + 2 ≤ M) (hfirst : getFirst M S b ≠ Exact.getFirst M S b) :
    getFirst M S (b + 2) = Exact.getFirst M S (b + 2) := by
  refine (getFirst_cases h hb).resolve_right fun ⟨hd, _⟩ => ?_
  obtain ⟨hd', -⟩ := (getFirst_cases h (show b ≤ M by omega)).resolve_left hfirst
  have hdvd : M ∣ 2 * S := by
    rw [Nat.add_mul] at hd
    exact (Nat.dvd_add_right hd').1 hd
  exact hfirst (getFirst_of_dvd h hdvd (by omega))

/-- **The vacancy read range** is the nearest one around the node exactly if no nearer vacancy is missed. -/
theorem readEntryNum_nearest_iff (hM : 1 ≤ M) (hM' : M < 64) (hMS : M ≤ S) (hS : S < 2 ^ 32) (hs : startIdx < S)
    (bitmap : BitVec M) : @readEntryNum M .double bitmap S startIdx = nearestVacancy bitmap S startIdx ↔
      NoneMissed bitmap S startIdx := by
  have h : Buckets M S := ⟨hM, hMS, hM', hS⟩
  by_cases hafter : ∃ b, b < M ∧ bitmap.getLsbD b = false ∧ startIdx ≤ Exact.getFirst M S b
  · -- the least of these buckets is the nearest
    obtain ⟨hb, hvacant, hstart⟩ := Nat.find_spec hafter
    have hmin : ∀ b' < Nat.find hafter, bitmap.getLsbD b' = false → Exact.getFirst M S b' < startIdx := by
      intro b' hb' hv
      by_contra hge
      exact Nat.find_min hafter hb' ⟨hb'.trans hb, hv, not_lt.1 hge⟩
    generalize Nat.find hafter = b at hb hvacant hstart hmin
    have hlt := Exact.getFirst_lt hM hMS b
    have hspan := Exact.getFirst_le (S := S) hM (show b + 1 ≤ M from hb)
    have hfirst := getFirst_le_exact h hb.le
    have hend := getFirst_le_exact h (show b + 1 ≤ M from hb)
    rw [nearestVacancy_of_vacant hM hMS hs hb hvacant hstart hmin]
    have hiff : NoneMissed bitmap S startIdx ↔ startIdx ≤ getFirst M S b ∧
        getFirst M S (b + 1) = Exact.getFirst M S (b + 1) := by
      constructor
      · rintro (⟨b', hb', hv, hs', hm, hgo⟩ | ⟨hno, -⟩)
        · obtain rfl : b' = b := by
            rcases Nat.lt_trichotomy b' b with hlt' | rfl | hlt'
            · exact absurd (hmin b' hlt' hv) (not_lt.2 hs')
            · rfl
            · exact absurd (hm b hlt' hvacant) (not_lt.2 hstart)
          exact hgo
        · exact absurd (hno b hb hvacant) (not_lt.2 hstart)
      · exact fun hgo => .inl ⟨b, hb, hvacant, hstart, hmin, hgo⟩
    rw [hiff]
    by_cases hgo : startIdx ≤ getFirst M S b
    · -- the loop takes it too, up to its end as the doubles give it
      rw [readEntryNum_of_vacant h hs hb hvacant hgo fun b' hb' hv => by
        have := (getFirst_le_exact h (show b' ≤ M by omega)).1
        have := hmin b' hb' hv
        omega]
      split_ifs with hzero
      · refine iff_of_false (fun he => ?_) fun he => by omega
        -- one slot in one bucket is not rounded
        obtain rfl : S = 1 := by omega
        have := getFirst_of_dvd h (b := b + 1) ⟨2, by omega⟩ hb
        omega
      · omega
    · refine iff_of_false (fun he => ?_) fun he => hgo he.1
      by_cases hnext : ∃ c, c < M ∧ bitmap.getLsbD c = false ∧ startIdx ≤ getFirst M S c
      · -- a later bucket is taken, which ends later
        obtain ⟨hc, hv, hsc⟩ := Nat.find_spec hnext
        have hminc : ∀ b' < Nat.find hnext, bitmap.getLsbD b' = false → getFirst M S b' < startIdx := by
          intro b' hb' hv'
          by_contra hge
          exact Nat.find_min hnext hb' ⟨hb'.trans hc, hv', not_lt.1 hge⟩
        generalize Nat.find hnext = c at hc hv hsc hminc
        rw [readEntryNum_of_vacant h hs hc hv hsc hminc] at he
        have hbc : b < c := by
          by_contra hle
          rcases (not_lt.1 hle).eq_or_lt with rfl | hlt'
          · exact hgo hsc
          · have := hmin c hlt' hv
            have := (getFirst_le_exact h hc.le).1
            omega
        have hc1 := getFirst_le_exact h (show c + 1 ≤ M from hc)
        have hmono := Exact.getFirst_mono (S := S) hM (show b + 2 ≤ c + 1 by omega)
        have hlt2 : Exact.getFirst M S (b + 1) < Exact.getFirst M S (b + 2) := Exact.getFirst_lt hM hMS (b + 1)
        rcases (show b + 1 ≤ c by omega).eq_or_lt with rfl | hlt'
        · have : getFirst M S (b + 1 + 1) = Exact.getFirst M S (b + 2) :=
            getFirst_exact_of_both h (show b + 2 ≤ M by omega) (by omega)
          split_ifs at he <;> omega
        · have hlt3 := Exact.getFirst_mono (S := S) hM (show b + 3 ≤ c + 1 by omega)
          have hlt4 : Exact.getFirst M S (b + 2) < Exact.getFirst M S (b + 3) := Exact.getFirst_lt hM hMS (b + 2)
          split_ifs at he <;> omega
      · rw [readEntryNum_of_none h fun c hc hv => by
          by_contra hge
          exact hnext ⟨c, hc, hv, not_lt.1 hge⟩] at he
        omega
  · -- all vacant buckets begin before the start
    have hno : ∀ b < M, bitmap.getLsbD b = false → Exact.getFirst M S b < startIdx := by
      intro b hb hv
      by_contra hge
      exact hafter ⟨b, hb, hv, not_lt.1 hge⟩
    rw [readEntryNum_of_none h fun b hb hv => (getFirst_le_exact h hb.le).1.trans_lt (hno b hb hv), eq_comm,
      nearestVacancy_of_none hM hMS hs hno, NoneMissed]
    constructor
    · exact fun hgo => .inr ⟨hno, hgo⟩
    · rintro (⟨b, hb, hv, hge, -⟩ | ⟨-, hgo⟩)
      · exact absurd (hno b hb hv) (not_lt.2 hge)
      · exact hgo

end Walk

/-- Three buckets over seven slots, the first one vacant: from slot 3 the walk goes on over the end to the last slot of
that bucket, which is right before the start. -/
theorem readEntryNum_nearest_seven : @readEntryNum 3 .double (0b110#3) 7 3 = nearestVacancy (0b110#3) 7 3 :=
  (readEntryNum_nearest_iff (by decide) (by decide) (by decide) (by decide) (by decide) _).2 (by decide +kernel)

/-- From slot 4 the vacant bucket before the start is six slots away, and the whole node is read. -/
theorem readEntryNum_not_nearest : ¬∀ (M S : Nat) (bitmap : BitVec M) (startIdx : Nat), 1 ≤ M → M < 64 → M ≤ S →
    S < 2 ^ 32 → startIdx < S → @readEntryNum M .double bitmap S startIdx = nearestVacancy bitmap S startIdx := by
  intro h
  have := h 3 7 (0b110#3) 4 (by decide) (by decide) (by decide) (by decide) (by decide)
  revert this
  decide +kernel

end Chime

import Chime.Common
import Chime.Lib.Rounding
import Mathlib.Algebra.Order.Floor.Semifield

/-!
# The buckets of the vacancy bitmap (`VALOCK` of `Metadata.h`)

A bit of the lock word stands for a bucket of slots. The source finds the bucket of a slot and the first slot of a
bucket with `double` (`findBucket`, `getFirst`). What they are for is the division of the slots into equal parts, the
same computation in rational numbers (`Exact.findBucket`, `Exact.getFirst`). The results of the doubles are the exact
ones, or one less where the exact quotient or product is an integer (`findBucket_cases`, `getFirst_cases`); with the
sizes of the default build they are the exact ones (`Layout.default_exact`). What is said of lock words holds for either
of the two arithmetics (`Arithmetic`), or for the exact one, where none is named.
-/

namespace Chime

open Rounding (roundNearest)

/-- The binary digits of a `double`. -/
def doubleDigits : Nat := 53

/-- `avg_per_bucket`: a quotient of doubles. -/
def avgPerBucket (vacancyMapBit spanSize : Nat) : ℚ := roundNearest doubleDigits (spanSize / vacancyMapBit)

/-- `VALOCK::find_bucket`. -/
def findBucket (vacancyMapBit spanSize kvIdx : Nat) : Nat :=
  ⌊roundNearest doubleDigits (kvIdx / avgPerBucket vacancyMapBit spanSize)⌋₊ % vacancyMapBit

/-- `get_first` of `VALOCK::get_idx_range_in_bucket`. -/
def getFirst (vacancyMapBit spanSize bucketId : Nat) : Nat :=
  let idx := if bucketId ≠ 0 then ⌊roundNearest doubleDigits (bucketId * avgPerBucket vacancyMapBit spanSize)⌋₊ else 0
  if spanSize * bucketId % vacancyMapBit ≠ 0 then idx + 1 else idx

namespace Exact

/-- `find_bucket` in rational numbers: the floor of `kv_idx / (span_size / vacancyMapBit)`. -/
def findBucket (vacancyMapBit spanSize kvIdx : Nat) : Nat := kvIdx * vacancyMapBit / spanSize % vacancyMapBit

/-- `get_first` in rational numbers. -/
def getFirst (vacancyMapBit spanSize bucketId : Nat) : Nat :=
  let idx := if bucketId ≠ 0 then bucketId * spanSize / vacancyMapBit else 0
  if spanSize * bucketId % vacancyMapBit ≠ 0 then idx + 1 else idx

end Exact

/-! ## Sizes -/

/-- The numbers of buckets and of slots that the buckets are for. -/
structure Buckets (M S : Nat) : Prop where
  pos : 0 < M
  le : M ≤ S
  bits : M < 64
  lt : S < 2 ^ 32

theorem Layout.buckets (L : Layout) : Buckets L.vacancyMapBit L.leafSpanSize where
  pos := L.vacancyMapBit_pos
  le := L.vacancyMapBit_le
  bits := by
    simp only [Layout.vacancyMapBit]
    omega
  lt := L.leafSpanSize_lt

theorem Layout.default_vacancyMapBit (hash : Nat → Fin 64) : (Layout.default hash).vacancyMapBit = 57 := by
  simp [Layout.vacancyMapBit, Layout.paddingBit, Layout.default, log2Ceil]

/-- How the buckets are computed: later slots are not in earlier buckets, and every bucket has a slot. -/
class Arithmetic where
  findBucket (vacancyMapBit spanSize kvIdx : Nat) : Nat
  getFirst (vacancyMapBit spanSize bucketId : Nat) : Nat
  findBucket_lt {M S : Nat} : 0 < M → ∀ i, findBucket M S i < M
  findBucket_mono {M S i j : Nat} : Buckets M S → i ≤ j → j < S → findBucket M S i ≤ findBucket M S j
  findBucket_surj {M S b : Nat} : Buckets M S → b < M → ∃ i < S, findBucket M S i = b

namespace Exact

variable {M S : Nat}

theorem findBucket_lt (hM : 0 < M) (i : Nat) : findBucket M S i < M := Nat.mod_lt _ hM

theorem findBucket_of_lt {i : Nat} (hi : i < S) : findBucket M S i = i * M / S := by
  rcases Nat.eq_zero_or_pos M with rfl | hM
  · simp [findBucket]
  · exact Nat.mod_eq_of_lt (Nat.div_lt_of_lt_mul (Nat.mul_lt_mul_of_pos_right hi hM))

theorem findBucket_mono {i j : Nat} (hij : i ≤ j) (hj : j < S) : findBucket M S i ≤ findBucket M S j := by
  rw [findBucket_of_lt hj, findBucket_of_lt (by omega)]
  exact Nat.div_le_div_right (Nat.mul_le_mul_right M hij)

/-- The first slot of a bucket is the ceiling of its share of the span. -/
theorem getFirst_le_iff (hM : 0 < M) {b x : Nat} : getFirst M S b ≤ x ↔ b * S ≤ x * M := by
  have hidx : (if b ≠ 0 then b * S / M else 0) = b * S / M := by
    split_ifs with h
    · rfl
    · rw [not_not.1 h, Nat.zero_mul, Nat.zero_div]
  simp only [getFirst, hidx, Nat.mul_comm S b]
  split_ifs with h
  · rw [Nat.add_one_le_iff, Nat.div_lt_iff_lt_mul hM]
    refine ⟨Nat.le_of_lt, fun hle => Nat.lt_of_le_of_ne hle fun he => h ?_⟩
    rw [he, Nat.mul_mod_left]
  · obtain ⟨q, hq⟩ := Nat.dvd_of_mod_eq_zero (not_not.1 h)
    rw [hq, Nat.mul_div_cancel_left _ hM, Nat.mul_comm x M]
    exact (Nat.mul_le_mul_left_iff hM).symm

/-- A bucket is the interval of slots from its first one to the first one of the next bucket. -/
theorem findBucket_eq_iff (hM : 0 < M) {b x : Nat} (hx : x < S) :
    findBucket M S x = b ↔ getFirst M S b ≤ x ∧ x < getFirst M S (b + 1) := by
  have hS : 0 < S := by omega
  rw [findBucket_of_lt hx, ← Nat.not_le (a := getFirst M S (b + 1)), getFirst_le_iff hM, getFirst_le_iff hM, Nat.not_le,
    ← Nat.le_div_iff_mul_le hS, ← Nat.div_lt_iff_lt_mul hS]
  omega

theorem getFirst_mono (hM : 0 < M) {b c : Nat} (h : b ≤ c) : getFirst M S b ≤ getFirst M S c := by
  rw [getFirst_le_iff hM]
  exact Nat.le_trans (Nat.mul_le_mul_right S h) ((getFirst_le_iff hM).1 le_rfl)

/-- No bucket is empty, as there are at least as many slots. -/
theorem getFirst_lt (hM : 0 < M) (hMS : M ≤ S) (b : Nat) : getFirst M S b < getFirst M S (b + 1) := by
  by_contra hle
  have h := (getFirst_le_iff hM (S := S)).1 (Nat.not_lt.1 hle)
  have h' := Nat.not_le.1 (mt (getFirst_le_iff hM (S := S) (b := b) (x := getFirst M S b - 1)).2 (by
    have : 0 < getFirst M S b := by
      by_contra h0
      rw [Nat.eq_zero_of_not_pos h0, Nat.add_mul] at h
      omega
    omega))
  have hpos : 0 < getFirst M S b := by
    by_contra h0
    rw [Nat.eq_zero_of_not_pos h0, Nat.add_mul] at h
    omega
  rw [Nat.sub_mul, Nat.one_mul] at h'
  rw [Nat.add_mul, Nat.one_mul] at h
  omega

theorem getFirst_le (hM : 0 < M) {b : Nat} (hb : b ≤ M) : getFirst M S b ≤ S := by
  rw [getFirst_le_iff hM, Nat.mul_comm S M]
  exact Nat.mul_le_mul_right S hb

/-- A bucket has its first slot. -/
theorem findBucket_getFirst (hM : 0 < M) (hMS : M ≤ S) {b : Nat} (hb : b < M) :
    getFirst M S b < S ∧ findBucket M S (getFirst M S b) = b := by
  have hlt : getFirst M S b < S := Nat.lt_of_lt_of_le (getFirst_lt hM hMS b) (getFirst_le hM hb)
  exact ⟨hlt, (findBucket_eq_iff hM hlt).2 ⟨le_rfl, getFirst_lt hM hMS b⟩⟩

end Exact

/-! ## The exact buckets -/

instance Arithmetic.exact : Arithmetic where
  findBucket := Exact.findBucket
  getFirst := Exact.getFirst
  findBucket_lt := Exact.findBucket_lt
  findBucket_mono _ := Exact.findBucket_mono
  findBucket_surj h hb := ⟨_, Exact.findBucket_getFirst h.pos h.le hb⟩

@[simp] theorem Arithmetic.exact_getFirst (M S b : Nat) : Arithmetic.getFirst M S b = Exact.getFirst M S b := rfl

/-! ## The buckets of the source -/

section Double

variable {M S : Nat}

theorem near_of_bound {n d : Nat} (hd : 0 < d) (hn : n < 2 ^ 40) : 4 * ((n : ℚ) / d) / 2 ^ doubleDigits < 1 / d := by
  have hdq : (0 : ℚ) < d := Nat.cast_pos.2 hd
  have hnq : (n : ℚ) < 2 ^ 40 := by exact_mod_cast hn
  have h4 : 4 * (n : ℚ) / 2 ^ doubleDigits < 1 := by
    rw [div_lt_one (by positivity)]
    calc 4 * (n : ℚ) < 4 * 2 ^ 40 := by linarith
      _ < 2 ^ doubleDigits := by norm_num [doubleDigits]
  calc 4 * ((n : ℚ) / d) / 2 ^ doubleDigits = 4 * (n : ℚ) / 2 ^ doubleDigits / d := by ring
    _ < 1 / d := div_lt_div_of_pos_right h4 hdq

theorem Buckets.mul_lt (h : Buckets M S) {i j : Nat} (hi : i ≤ S) (hj : j ≤ M) : i * j < 2 ^ 40 := by
  have hj : j ≤ 63 := by have := h.bits; omega
  calc i * j ≤ S * 63 := Nat.mul_le_mul hi hj
    _ < 2 ^ 40 := by have := h.lt; omega

/-- **The bucket of a slot** is the exact one, or the one before it. -/
theorem findBucket_cases (h : Buckets M S) {i : Nat} (hi : i < S) : findBucket M S i = Exact.findBucket M S i ∨
    (S ∣ i * M ∧ findBucket M S i + 1 = Exact.findBucket M S i) := by
  have hS : 0 < S := by omega
  have hSM : (0 : ℚ) < (S : ℚ) / M := div_pos (Nat.cast_pos.2 hS) (Nat.cast_pos.2 h.pos)
  have hquot : (i : ℚ) / ((S : ℚ) / M) = ((i * M : Nat) : ℚ) / S := by
    push_cast
    rw [div_div_eq_mul_div]
  have hnear := Rounding.quotient_near (p := doubleDigits) (by decide) (Nat.cast_nonneg i) hSM
  rw [hquot] at hnear
  have hlt : i * M / S < M := Nat.div_lt_of_lt_mul (Nat.mul_lt_mul_of_pos_right hi h.pos)
  rw [Exact.findBucket_of_lt hi, findBucket, avgPerBucket]
  rcases Rounding.floor_of_near hS (hnear.trans_lt (near_of_bound hS (h.mul_lt hi.le le_rfl))) with hf | ⟨hd, hf⟩
  · exact .inl (by rw [hf, Nat.mod_eq_of_lt hlt])
  · exact .inr ⟨hd, by rw [Nat.mod_eq_of_lt (by omega), hf]⟩

/-- **The first slot of a bucket** is the exact one, or the one before it. -/
theorem getFirst_cases (h : Buckets M S) {b : Nat} (hb : b ≤ M) : getFirst M S b = Exact.getFirst M S b ∨
    (M ∣ b * S ∧ getFirst M S b + 1 = Exact.getFirst M S b) := by
  rcases Nat.eq_zero_or_pos b with rfl | hpos
  · exact .inl rfl
  have hM := h.pos
  have hSM : (0 : ℚ) < (S : ℚ) / M := div_pos (Nat.cast_pos.2 (hM.trans_le h.le)) (Nat.cast_pos.2 hM)
  have hprod : (b : ℚ) * ((S : ℚ) / M) = ((b * S : Nat) : ℚ) / M := by
    push_cast
    rw [mul_div_assoc]
  have hnear := Rounding.product_near (p := doubleDigits) (by decide) (Nat.cast_nonneg b) hSM
  rw [hprod] at hnear
  have hbound : b * S < 2 ^ 40 := Nat.mul_comm S b ▸ h.mul_lt le_rfl hb
  simp only [getFirst, Exact.getFirst, avgPerBucket, if_pos hpos.ne']
  rcases Rounding.floor_of_near hM (hnear.trans_lt (near_of_bound hM hbound)) with hf | ⟨hd, hf⟩
  · exact .inl (by rw [hf])
  · have hmod : ¬S * b % M ≠ 0 := not_not.2 (Nat.mod_eq_zero_of_dvd (Nat.mul_comm b S ▸ hd))
    exact .inr ⟨hd, by rw [if_neg hmod, if_neg hmod, hf]⟩

/-- With as many buckets as slots, or half as many, nothing is rounded. -/
theorem avgPerBucket_of_dvd (h : Buckets M S) (hd : M ∣ 2 * S) : avgPerBucket M S = (2 * S / M : Nat) * 2 ^ (-1 : ℤ) := by
  obtain ⟨n, hn⟩ := hd
  have hM : (M : ℚ) ≠ 0 := Nat.cast_ne_zero.2 h.pos.ne'
  have hdiv : (S : ℚ) / M = (2 * S / M : Nat) * 2 ^ (-1 : ℤ) := by
    rw [hn, Nat.mul_div_cancel_left _ h.pos, div_eq_iff hM]
    have : (2 : ℚ) * S = M * n := by exact_mod_cast hn
    rw [zpow_neg_one]
    linarith
  have hlt : 2 * S / M < 2 ^ doubleDigits := by
    have hle : 2 * S / M ≤ 2 * S := Nat.div_le_self _ _
    have := h.lt
    exact hle.trans_lt (by norm_num [doubleDigits]; omega)
  rw [avgPerBucket, hdiv]
  exact Rounding.roundNearest_eq_self hlt _

theorem getFirst_of_dvd (h : Buckets M S) (hd : M ∣ 2 * S) {b : Nat} (hb : b ≤ M) :
    getFirst M S b = Exact.getFirst M S b := by
  obtain ⟨n, hn⟩ := hd
  have hbound : b * (2 * S / M) < 2 ^ doubleDigits := by
    have hle : b * (2 * S / M) ≤ 2 * S := by
      calc b * (2 * S / M) ≤ M * (2 * S / M) := Nat.mul_le_mul_right _ hb
        _ ≤ 2 * S := Nat.mul_div_le _ _
    have := h.lt
    exact hle.trans_lt (by norm_num [doubleDigits]; omega)
  have hround : Rounding.roundNearest doubleDigits (b * avgPerBucket M S) = (b * S : Nat) / (M : Nat) := by
    have hM : (M : ℚ) ≠ 0 := Nat.cast_ne_zero.2 h.pos.ne'
    have heq : (b : ℚ) * avgPerBucket M S = ((b * (2 * S / M) : Nat) : ℚ) * 2 ^ (-1 : ℤ) := by
      rw [avgPerBucket_of_dvd h ⟨n, hn⟩]
      push_cast
      ring
    rw [heq, Rounding.roundNearest_eq_self hbound, ← heq, avgPerBucket_of_dvd h ⟨n, hn⟩, hn,
      Nat.mul_div_cancel_left _ h.pos, zpow_neg_one, eq_div_iff hM]
    have : (2 : ℚ) * S = M * n := by exact_mod_cast hn
    calc (b : ℚ) * (n * 2⁻¹) * M = b / 2 * (M * n) := by ring
      _ = ((b * S : Nat) : ℚ) := by
        rw [← this]
        push_cast
        ring
  simp only [getFirst, Exact.getFirst, hround, Nat.floor_div_eq_div]

/-- One bucket for each slot. -/
theorem findBucket_self (h : Buckets S S) {i : Nat} (hi : i < S) : findBucket S S i = Exact.findBucket S S i := by
  have hdvd : S ∣ 2 * S := ⟨2, Nat.mul_comm 2 S⟩
  have havg : avgPerBucket S S = 1 := by
    rw [avgPerBucket_of_dvd h hdvd, Nat.mul_div_cancel _ h.pos]
    norm_num
  have hlt : i < 2 ^ doubleDigits := by
    have := h.lt
    exact (show i < 2 ^ 32 by omega).trans (by norm_num [doubleDigits])
  rw [Exact.findBucket_of_lt hi, Nat.mul_div_cancel _ h.pos, findBucket, havg, div_one,
    Rounding.roundNearest_natCast hlt, Nat.floor_natCast, Nat.mod_eq_of_lt hi]

theorem findBucket_mono (h : Buckets M S) {i j : Nat} (hij : i ≤ j) (hj : j < S) : findBucket M S i ≤ findBucket M S j := by
  have hexact := Exact.findBucket_mono (M := M) hij hj
  rcases findBucket_cases h hj with he | ⟨hd, he⟩
  · rcases findBucket_cases h (hij.trans_lt hj) with he' | ⟨-, he'⟩ <;> omega
  · rcases findBucket_cases h (hij.trans_lt hj) with he' | ⟨-, he'⟩
    swap
    · omega
    rcases hij.eq_or_lt with rfl | hlt
    · omega
    -- the quotient of the later slot is an integer, and that of the earlier one is less
    have hless : i * M / S < j * M / S := by
      rw [Nat.div_lt_iff_lt_mul (by omega), Nat.div_mul_cancel hd]
      exact Nat.mul_lt_mul_of_pos_right hlt h.pos
    rw [Exact.findBucket_of_lt hj] at he
    rw [Exact.findBucket_of_lt (hij.trans_lt hj)] at he'
    omega

theorem findBucket_surj (h : Buckets M S) {b : Nat} (hb : b < M) : ∃ i < S, findBucket M S i = b := by
  obtain ⟨hlt, hfirst⟩ := Exact.findBucket_getFirst h.pos h.le hb
  set x := Exact.getFirst M S b with hx
  rcases findBucket_cases h hlt with he | ⟨hd, he⟩
  · exact ⟨x, hlt, he.trans hfirst⟩
  rcases h.le.eq_or_lt with rfl | hMS
  · exact ⟨x, hlt, (findBucket_self h hlt).trans hfirst⟩
  -- the next slot is in the bucket too, and not at a boundary
  have hxM : x * M = b * S := by
    rw [Exact.findBucket_of_lt hlt] at hfirst
    rw [← Nat.div_mul_cancel hd, hfirst]
  have hstep : (x + 1) * M = b * S + M := by rw [Nat.add_mul, hxM, Nat.one_mul]
  have hnext : x + 1 < S := by
    have hend : (b + 1) * S ≤ M * S := Nat.mul_le_mul_right S hb
    rw [Nat.add_mul, Nat.one_mul, Nat.mul_comm M S] at hend
    exact Nat.lt_of_mul_lt_mul_right (a := M) (by omega)
  have hbucket : (x + 1) * M / S = b := by
    rw [hstep, Nat.mul_comm b S, Nat.mul_add_div (by omega), Nat.div_eq_of_lt hMS, Nat.add_zero]
  refine ⟨x + 1, hnext, ?_⟩
  rcases findBucket_cases h hnext with he' | ⟨hd', -⟩
  · rw [he', Exact.findBucket_of_lt hnext, hbucket]
  · have hdvd : S ∣ M := by
      rw [hstep] at hd'
      exact (Nat.dvd_add_right (Dvd.intro_left b rfl)).1 hd'
    exact absurd (Nat.le_of_dvd h.pos hdvd) (not_le.2 hMS)

/-- **The default build**: no quotient and no product is rounded to another bucket or slot. -/
theorem Layout.default_exact (hash : Nat → Fin 64) :
    (∀ i < (Layout.default hash).leafSpanSize,
      findBucket (Layout.default hash).vacancyMapBit (Layout.default hash).leafSpanSize i =
        Exact.findBucket (Layout.default hash).vacancyMapBit (Layout.default hash).leafSpanSize i) ∧
    ∀ b ≤ (Layout.default hash).vacancyMapBit,
      getFirst (Layout.default hash).vacancyMapBit (Layout.default hash).leafSpanSize b =
        Exact.getFirst (Layout.default hash).vacancyMapBit (Layout.default hash).leafSpanSize b := by
  have hsizes : (∀ i < 64, findBucket 57 64 i = Exact.findBucket 57 64 i) ∧
      ∀ b ≤ 57, getFirst 57 64 b = Exact.getFirst 57 64 b := by decide +kernel
  rw [Layout.default_vacancyMapBit]
  exact hsizes

/-- The arithmetic of the source. -/
@[reducible] def Arithmetic.double : Arithmetic where
  findBucket := Chime.findBucket
  getFirst := Chime.getFirst
  findBucket_lt hM _ := Nat.mod_lt _ hM
  findBucket_mono h hij hj := Chime.findBucket_mono h hij hj
  findBucket_surj h hb := Chime.findBucket_surj h hb

end Double

end Chime

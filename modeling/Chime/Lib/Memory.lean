import Mathlib.Data.UInt
import Mathlib.Tactic.Ring

/-!
# Byte-addressed memory

A memory gives a byte to every address. `copy` is `memcpy`, `word` and `setWord` read and write the eight bytes of a
64-bit number, the low byte first. Memories are compared address by address: `copy_apply`, `setWord_apply`, and
`word_eq_iff` for words.
-/

namespace Memory

/-- The number that the `k` bytes from `a` on spell, the low byte first. -/
def number (m : Nat → UInt8) (a : Nat) : Nat → Nat
  | 0 => 0
  | k + 1 => (m a).toNat + 256 * number m (a + 1) k

/-- `memcpy(dst + d, src + s, n)`. -/
def copy (dst : Nat → UInt8) (d : Nat) (src : Nat → UInt8) (s n : Nat) : Nat → UInt8 := fun x =>
  if d ≤ x ∧ x < d + n then src (s + (x - d)) else dst x

/-- The 64-bit number at an address. -/
def word (m : Nat → UInt8) (a : Nat) : UInt64 := .ofNat (number m a 8)

/-- The memory with a 64-bit number written to an address. -/
def setWord (m : Nat → UInt8) (a : Nat) (w : UInt64) : Nat → UInt8 := fun x =>
  if a ≤ x ∧ x < a + 8 then .ofNat (w.toNat / 256 ^ (x - a)) else m x

/-- The memory after a compare-and-swap. -/
def compareSwap (m : Nat → UInt8) (a : Nat) (equal val : UInt64) : Nat → UInt8 :=
  if word m a = equal then setWord m a val else m

variable {m m' dst src : Nat → UInt8} {a a' d s n k x i : Nat} {v w : UInt64}

/-! ## Numbers -/

theorem number_lt : number m a k < 256 ^ k := by
  induction k generalizing a with
  | zero => exact Nat.one_pos
  | succ k ih =>
    have := ih (a := a + 1)
    have hb := (m a).toNat_lt
    rw [number, pow_succ]
    omega

/-- The bytes of a number. -/
theorem number_byte (hi : i < k) : UInt8.ofNat (number m a k / 256 ^ i) = m (a + i) := by
  induction k generalizing a i with
  | zero => exact absurd hi (Nat.not_lt_zero i)
  | succ k ih =>
    have hb := (m a).toNat_lt
    cases i with
    | zero =>
      refine UInt8.toNat_inj.1 ?_
      rw [number, pow_zero, Nat.div_one, UInt8.toNat_ofNat']
      simp only [Nat.add_zero]
      omega
    | succ i =>
      have hdiv : ((m a).toNat + 256 * number m (a + 1) k) / 256 = number m (a + 1) k := by omega
      rw [number, pow_succ', ← Nat.div_div_eq_div_mul, hdiv, ih (Nat.lt_of_succ_lt_succ hi)]
      congr 1
      omega

theorem number_congr (h : ∀ i < k, m (a + i) = m' (a' + i)) : number m a k = number m' a' k := by
  induction k generalizing a a' with
  | zero => rfl
  | succ k ih =>
    have htail : number m (a + 1) k = number m' (a' + 1) k := ih fun i hi => by
      simpa [Nat.add_assoc, Nat.add_comm 1] using h (i + 1) (by omega)
    rw [number, number, htail, show m a = m' a' from h 0 (Nat.succ_pos k)]

/-- A number is the number of its bytes. -/
theorem number_of_bytes {N : Nat} (h : ∀ i < k, m (a + i) = UInt8.ofNat (N / 256 ^ i)) :
    number m a k = N % 256 ^ k := by
  induction k generalizing a N with
  | zero => simp [number, Nat.mod_one]
  | succ k ih =>
    have htail : number m (a + 1) k = N / 256 % 256 ^ k := ih fun i hi => by
      have := h (i + 1) (by omega)
      rw [pow_succ', ← Nat.div_div_eq_div_mul] at this
      rw [← this]
      congr 1
      omega
    have hhead : (m a).toNat = N % 256 := by
      rw [show m a = UInt8.ofNat (N / 256 ^ 0) from h 0 (Nat.succ_pos k), pow_zero, Nat.div_one, UInt8.toNat_ofNat']
    rw [number, htail, hhead, pow_succ', Nat.mod_mul]

/-! ## Words -/

theorem copy_apply (h : d ≤ x ∧ x < d + n) : copy dst d src s n x = src (s + (x - d)) := if_pos h

theorem copy_of_not (h : ¬(d ≤ x ∧ x < d + n)) : copy dst d src s n x = dst x := if_neg h

theorem setWord_apply (h : a ≤ x ∧ x < a + 8) : setWord m a w x = .ofNat (w.toNat / 256 ^ (x - a)) := if_pos h

theorem setWord_of_not (h : ¬(a ≤ x ∧ x < a + 8)) : setWord m a w x = m x := if_neg h

theorem toNat_word : (word m a).toNat = number m a 8 := by
  have := number_lt (m := m) (a := a) (k := 8)
  rw [word, UInt64.toNat_ofNat']
  exact Nat.mod_eq_of_lt (by simpa using this)

/-- The bytes of a word. -/
theorem word_byte (hi : i < 8) : UInt8.ofNat ((word m a).toNat / 256 ^ i) = m (a + i) := by
  rw [toNat_word, number_byte hi]

/-- **Words** are equal if their bytes are. -/
theorem word_eq_iff : word m a = word m' a' ↔ ∀ i < 8, m (a + i) = m' (a' + i) := by
  refine ⟨fun h i hi => ?_, fun h => ?_⟩
  · rw [← word_byte (m := m) hi, h, word_byte hi]
  · rw [word, word, number_congr h]

@[simp] theorem word_setWord : word (setWord m a w) a = w := by
  refine UInt64.toNat_inj.1 ?_
  rw [toNat_word, number_of_bytes (N := w.toNat)]
  · exact Nat.mod_eq_of_lt (by simpa using w.toNat_lt)
  · intro i hi
    rw [setWord_apply (by omega), Nat.add_sub_cancel_left]

/-- Writing a word that is there already. -/
@[simp] theorem setWord_word : setWord m a (word m a) = m := by
  funext x
  by_cases h : a ≤ x ∧ x < a + 8
  · rw [setWord_apply h, word_byte (by omega), Nat.add_sub_cancel' h.1]
  · exact setWord_of_not h

/-- The bytes of a word. -/
theorem word_eq_iff_bytes : word m a = w ↔ ∀ i < 8, m (a + i) = .ofNat (w.toNat / 256 ^ i) := by
  have hword : word m a = w ↔ word m a = word (setWord m a w) a := by rw [word_setWord]
  refine hword.trans (word_eq_iff.trans (forall₂_congr fun i hi => ?_))
  rw [setWord_apply (by omega), Nat.add_sub_cancel_left]

/-- Words written to one place. -/
theorem setWord_eq_iff : setWord m a v = setWord m a w ↔ v = w :=
  ⟨fun h => by rw [← word_setWord (m := m) (a := a) (w := v), h, word_setWord], fun h => by rw [h]⟩

/-- A copy elsewhere leaves a word as it is. -/
theorem word_copy (h : a + 8 ≤ d ∨ d + n ≤ a) : word (copy dst d src s n) a = word dst a :=
  word_eq_iff.2 fun i hi => copy_of_not (by omega)

theorem compareSwap_of_eq (h : word m a = v) : compareSwap m a v w = setWord m a w := if_pos h

theorem compareSwap_of_ne (h : word m a ≠ v) : compareSwap m a v w = m := if_neg h

/-- **Two places**: the same word written over the same content makes the same memory only if it changes nothing, or
the places are one. -/
theorem setWord_inj (hv : word m a = v) (hv' : word m a' = v) (h : setWord m a w = setWord m a' w) :
    a = a' ∨ w = v := by
  wlog hle : a ≤ a' generalizing a a'
  · exact (this hv' hv h.symm (by omega)).imp Eq.symm id
  rcases hle.eq_or_lt with heq | hlt
  · exact .inl heq
  refine .inr ?_
  obtain ⟨k, hk, rfl⟩ : ∃ k, 0 < k ∧ a' = a + k := ⟨a' - a, by omega, by omega⟩
  -- byte by byte: the bytes of the word from `k` on are those `k` places before
  have hbyte : ∀ i < 8, UInt8.ofNat (w.toNat / 256 ^ i) = UInt8.ofNat (v.toNat / 256 ^ i) := by
    intro i
    induction i using Nat.strong_induction_on with
    | _ i ih =>
      intro hi
      have hx := congrFun h (a + i)
      rw [setWord_apply (by omega), Nat.add_sub_cancel_left] at hx
      by_cases hik : i < k
      · rw [hx, setWord_of_not (by omega), ← hv, word_byte hi]
      · rw [hx, setWord_apply (by omega),
          show a + i - (a + k) = i - k by omega, ih (i - k) (by omega) (by omega), ← hv',
          word_byte (by omega), show a + k + (i - k) = a + i by omega, ← word_byte (m := m) hi, hv, hv']
  rw [← word_setWord (m := m) (a := a) (w := w), ← hv]
  refine word_eq_iff.2 fun i hi => ?_
  rw [setWord_apply (by omega), Nat.add_sub_cancel_left, hbyte i hi, ← hv, word_byte hi]

/-! ## A part of a memory -/

/-- The memory from an address on. -/
def view (m : Nat → UInt8) (b : Nat) : Nat → UInt8 := fun x => m (b + x)

/-- The memory with the part from an address on replaced. -/
def setView (m : Nat → UInt8) (b : Nat) (v : Nat → UInt8) : Nat → UInt8 := fun x => if b ≤ x then v (x - b) else m x

variable {b : Nat} {v' : Nat → UInt8}

theorem setView_of_lt (h : x < b) : setView m b v' x = m x := if_neg (by omega)

@[simp] theorem setView_add : setView m b v' (b + x) = v' x := by
  rw [setView, if_pos (Nat.le_add_right b x), Nat.add_sub_cancel_left]

@[simp] theorem word_view : word (view m b) a = word m (b + a) :=
  word_eq_iff.2 fun i _ => by rw [view, Nat.add_assoc]

@[simp] theorem copy_view : copy dst d (view m b) s n = copy dst d m (b + s) n := by
  funext x
  simp only [copy, view, Nat.add_assoc]

theorem view_copy : view (copy m (b + d) src s n) b = copy (view m b) d src s n := by
  funext x
  by_cases h : d ≤ x ∧ x < d + n
  · rw [copy_apply h, view, copy_apply (by omega), show b + x - (b + d) = x - d by omega]
  · rw [copy_of_not h, view, copy_of_not (by omega), view]

theorem view_setWord : view (setWord m (b + a) w) b = setWord (view m b) a w := by
  funext x
  by_cases h : a ≤ x ∧ x < a + 8
  · rw [setWord_apply h, view, setWord_apply (by omega), show b + x - (b + a) = x - a by omega]
  · rw [setWord_of_not h, view, setWord_of_not (by omega), view]

theorem view_compareSwap : view (compareSwap m (b + a) v w) b = compareSwap (view m b) a v w := by
  by_cases h : word m (b + a) = v
  · rw [compareSwap_of_eq h, compareSwap_of_eq (word_view.trans h), view_setWord]
  · rw [compareSwap_of_ne h, compareSwap_of_ne fun he => h (word_view.symm.trans he)]

end Memory

import Chime.Common
import Chime.Lib.BigEndian
import Mathlib.Data.Int.ModEq

/-!
# Keys as arrays of bytes (`Key.h`)

A `Key` is an array of `keyLen` bytes, read as a number in base 256. `operator+` and `operator-` go from the last byte
to the first with the carry in `b`, and stop when there is none; they are addition and subtraction modulo `256 ^
keyLen`, and the order of the arrays is that of the numbers (`key_arithmetic`). So the keys of a `Layout` are these
numbers (`number_addByte_one`).
-/

namespace Chime

open BigEndian

/-- `std::array<uint8_t, keyLen>`; its order is the lexicographic one. -/
abbrev Key (keyLen : Nat) := Vector UInt8 keyLen

namespace Key

variable {n : Nat}

/-- The loop of `operator+` from the byte before `m` down. -/
def addLoop : (m : Nat) → m ≤ n → Key n → UInt8 → Key n
  | 0, _, res, _ => res
  | m + 1, h, res, b =>
    if res[m].toNat + b.toNat < 256 then res.set m (res[m] + b)
    else
      let tmp := res[m].toNat + b.toNat
      addLoop m (Nat.le_of_succ_le h) (res.set m (.ofNat (tmp % 256))) (.ofNat (tmp / 256))

/-- `operator+`. -/
def addByte (key : Key n) (b : UInt8) : Key n := addLoop n le_rfl key b

/-- `while(tmp < b) tmp += (1 << 8), carry ++`, the carry after it. -/
def carryLoop (tmp b carry : Nat) : Nat := if tmp < b then carryLoop (tmp + 256) b (carry + 1) else carry
termination_by b - tmp
decreasing_by omega

/-- The loop of `operator-` from the byte before `m` down. -/
def subLoop : (m : Nat) → m ≤ n → Key n → UInt8 → Key n
  | 0, _, res, _ => res
  | m + 1, h, res, b =>
    if res[m] ≥ b then res.set m (res[m] - b)
    else
      let carry := carryLoop res[m].toNat b.toNat 0
      subLoop m (Nat.le_of_succ_le h) (res.set m (.ofNat (res[m].toNat + carry * 256 - b.toNat))) (.ofNat carry)

/-- `operator-`. -/
def subByte (key : Key n) (b : UInt8) : Key n := subLoop n le_rfl key b

/-- `key2int`, which wraps around for keys of more than eight bytes. -/
def key2int (key : Key n) : UInt64 := key.toList.foldl (fun res a => (res <<< 8) + a.toUInt64) 0

/-- `kkeyNull`. -/
def null (keyLen : Nat) : Key keyLen := Vector.replicate keyLen 0

/-- The number that a key spells. -/
def number (key : Key n) : Nat := value 256 (key.toList.map UInt8.toNat)

/-! ### Numbers -/

section Numbers

variable {a c key : Key n} {v b : UInt8} {m : Nat}

theorem digits_lt : ∀ d ∈ key.toList.map UInt8.toNat, d < 256 := by
  intro d hd
  obtain ⟨x, -, rfl⟩ := List.mem_map.1 hd
  exact x.toNat_lt

theorem length_digits : (key.toList.map UInt8.toNat).length = n := by simp

theorem number_lt (key : Key n) : number key < 256 ^ n := by
  have : value 256 (key.toList.map UInt8.toNat) < _ := value_lt digits_lt
  rwa [length_digits] at this

/-- A byte has the weight of its place. -/
theorem number_set (key : Key n) (v : UInt8) (h : m < n) : number (key.set m v) + key[m].toNat * 256 ^ (n - 1 - m) =
    number key + v.toNat * 256 ^ (n - 1 - m) := by
  have hlen : m < (key.toList.map UInt8.toNat).length := by rwa [length_digits]
  have hset := value_set (B := 256) (d := v.toNat) hlen
  have hget : (key.toList.map UInt8.toNat)[m] = key[m].toNat := by simp
  rw [hget, length_digits, ← List.map_set, ← Vector.toList_set] at hset
  exact hset

theorem map_toNat_lt_iff {xs ys : List UInt8} : xs.map UInt8.toNat < ys.map UInt8.toNat ↔ xs < ys := by
  induction xs generalizing ys with
  | nil => cases ys <;> simp
  | cons x xs ih =>
    cases ys with
    | nil => simp
    | cons y ys =>
      rw [List.map_cons, List.map_cons, List.cons_lt_cons_iff, List.cons_lt_cons_iff, ih, UInt8.toNat_inj,
        UInt8.lt_iff_toNat_lt]

/-- **The order of the arrays** is the order of the numbers. -/
theorem lt_iff_number : a < c ↔ number a < number c := by
  rw [number, number, value_lt_iff (by simp) digits_lt digits_lt, map_toNat_lt_iff]
  exact Iff.rfl

theorem le_iff_number : a ≤ c ↔ number a ≤ number c := by
  rw [← Nat.not_lt, ← lt_iff_number]
  exact Iff.rfl

theorem number_inj (h : number a = number c) : a = c := by
  have hdigits := value_inj (by simp) digits_lt digits_lt h
  have hlist := (List.map_injective_iff.2 fun _ _ => UInt8.toNat_inj.1) hdigits
  exact Vector.toList_inj.1 hlist

theorem value_replicate_zero (k : Nat) : value 256 (List.replicate k 0) = 0 := by
  induction k with
  | zero => rfl
  | succ k ih => rw [List.replicate_succ, value_cons, ih, Nat.zero_mul]

@[simp] theorem number_null : number (null n) = 0 := by
  rw [number, null, Vector.toList_replicate, List.map_replicate]
  exact value_replicate_zero n

/-- `key2int` is the number of a key, modulo `2 ^ 64`. -/
theorem toNat_key2int (key : Key n) : (key2int key).toNat = number key % 2 ^ 64 := by
  have hfold : ∀ (xs : List UInt8) (acc : UInt64) (k : Nat), acc.toNat = k % 2 ^ 64 →
      (xs.foldl (fun (res : UInt64) (a : UInt8) => (res <<< 8) + a.toUInt64) acc).toNat =
        (xs.map UInt8.toNat).foldl (fun res d => res * 256 + d) k % 2 ^ 64 := by
    intro xs
    induction xs with
    | nil => exact fun acc k h => h
    | cons x xs ih =>
      intro acc k h
      refine ih _ _ ?_
      have hx := x.toNat_lt
      rw [UInt64.toNat_add, UInt64.toNat_shiftLeft, h, Nat.shiftLeft_eq, UInt8.toNat_toUInt64]
      change (k % 2 ^ 64 * 256 % 2 ^ 64 + x.toNat) % 2 ^ 64 = (k * 256 + x.toNat) % 2 ^ 64
      omega
  exact hfold key.toList 0 0 rfl

end Numbers

/-! ### Addition -/

section Arithmetic

variable {a c key res : Key n} {b : UInt8} {m : Nat}

/-- The weight of the byte before the last ones. -/
theorem pow_sub_succ (h : m + 1 ≤ n) : 256 ^ (n - m) = 256 * 256 ^ (n - 1 - m) := by
  rw [← pow_succ']
  congr 1
  omega

/-- **A step of `operator+`**: the carry has the weight of the next byte. -/
theorem number_addLoop (h : m ≤ n) :
    number (addLoop m h res b) = (number res + b.toNat * 256 ^ (n - m)) % 256 ^ n := by
  induction m generalizing res b with
  | zero =>
    rw [addLoop, Nat.sub_zero, Nat.add_mul_mod_self_right, Nat.mod_eq_of_lt (number_lt res)]
  | succ m ih =>
    have hw : n - (m + 1) = n - 1 - m := by omega
    rw [addLoop, hw]
    split
    · -- no carry
      rename_i hsum
      have hset := number_set res (res[m] + b) h
      have hval : (res[m] + b).toNat = res[m].toNat + b.toNat := by
        rw [UInt8.toNat_add]
        exact Nat.mod_eq_of_lt hsum
      rw [hval, Nat.add_mul] at hset
      have hnum : number (res.set m (res[m] + b)) = number res + b.toNat * 256 ^ (n - 1 - m) := by omega
      rw [← hnum, Nat.mod_eq_of_lt (number_lt _)]
    · simp only
      have hset := number_set res (.ofNat ((res[m].toNat + b.toNat) % 256)) h
      have hres := res[m].toNat_lt
      have hb := b.toNat_lt
      have hlow : (UInt8.ofNat ((res[m].toNat + b.toNat) % 256)).toNat = (res[m].toNat + b.toNat) % 256 := by
        rw [UInt8.toNat_ofNat']
        omega
      have hcarry : (UInt8.ofNat ((res[m].toNat + b.toNat) / 256)).toNat = (res[m].toNat + b.toNat) / 256 := by
        rw [UInt8.toNat_ofNat']
        omega
      have hsplit := congrArg (· * 256 ^ (n - 1 - m)) (Nat.mod_add_div (res[m].toNat + b.toNat) 256)
      simp only [Nat.add_mul] at hsplit
      rw [hlow] at hset
      rw [ih, hcarry, pow_sub_succ h]
      congr 1
      rw [← Nat.mul_assoc, Nat.mul_comm _ 256]
      omega

/-- **`operator+`** is addition. -/
theorem number_addByte : number (addByte a b) = (number a + b.toNat) % 256 ^ n := by
  rw [addByte, number_addLoop, Nat.sub_self, pow_zero, Nat.mul_one]

/-! ### Subtraction -/

/-- One turn of the inner loop is enough. -/
theorem carryLoop_eq {tmp b : Nat} (h : tmp < b) (hb : b < 256) : carryLoop tmp b 0 = 1 := by
  rw [carryLoop, if_pos h, carryLoop, if_neg (by omega)]

/-- **A step of `operator-`**: the borrow has the weight of the next byte. -/
theorem number_subLoop (h : m ≤ n) :
    number (subLoop m h res b) + b.toNat * 256 ^ (n - m) ≡ number res [MOD 256 ^ n] := by
  induction m generalizing res b with
  | zero =>
    rw [subLoop, Nat.sub_zero]
    exact Nat.add_mul_mod_self_right ..
  | succ m ih =>
    have hw : n - (m + 1) = n - 1 - m := by omega
    rw [subLoop, hw]
    split
    · -- no borrow
      rename_i hge
      have hset := number_set res (res[m] - b) h
      have hval : (res[m] - b).toNat = res[m].toNat - b.toNat := UInt8.toNat_sub_of_le _ _ hge
      have hle : b.toNat ≤ res[m].toNat := hge
      have hsplit : (res[m].toNat - b.toNat) * 256 ^ (n - 1 - m) + b.toNat * 256 ^ (n - 1 - m) =
          res[m].toNat * 256 ^ (n - 1 - m) := by rw [← Nat.add_mul, Nat.sub_add_cancel hle]
      rw [hval] at hset
      rw [show number (res.set m (res[m] - b)) + b.toNat * 256 ^ (n - 1 - m) = number res by omega]
    · rename_i hlt
      have hlt' : res[m].toNat < b.toNat := not_le.1 hlt
      have hb := b.toNat_lt
      have hset := number_set res (.ofNat (res[m].toNat + 256 - b.toNat)) h
      have hval : (UInt8.ofNat (res[m].toNat + 256 - b.toNat)).toNat = res[m].toNat + 256 - b.toNat := by
        rw [UInt8.toNat_ofNat']
        omega
      have hsplit : (res[m].toNat + 256 - b.toNat) * 256 ^ (n - 1 - m) + b.toNat * 256 ^ (n - 1 - m) =
          res[m].toNat * 256 ^ (n - 1 - m) + 256 * 256 ^ (n - 1 - m) := by
        rw [← Nat.add_mul, ← Nat.add_mul, Nat.sub_add_cancel (by omega)]
      simp only [carryLoop_eq hlt' hb, Nat.one_mul]
      have hstep := @ih (res.set m (.ofNat (res[m].toNat + 256 - b.toNat))) (.ofNat 1) (Nat.le_of_succ_le h)
      rw [hval] at hset
      have hone : (UInt8.ofNat 1).toNat = 1 := rfl
      rw [hone, Nat.one_mul, pow_sub_succ h] at hstep
      refine Nat.ModEq.add_right_cancel' (256 * 256 ^ (n - 1 - m)) ?_
      have hsum := hstep.add_right (b.toNat * 256 ^ (n - 1 - m))
      rw [show number (res.set m (.ofNat (res[m].toNat + 256 - b.toNat))) + b.toNat * 256 ^ (n - 1 - m) =
        number res + 256 * 256 ^ (n - 1 - m) by omega] at hsum
      rwa [Nat.add_right_comm] at hsum

theorem subByte_modEq : number (subByte a b) + b.toNat ≡ number a [MOD 256 ^ n] := by
  have h : number (subByte a b) + b.toNat * 256 ^ (n - n) ≡ number a [MOD 256 ^ n] := number_subLoop le_rfl
  rwa [Nat.sub_self, pow_zero, Nat.mul_one] at h

/-- **`operator-`** is subtraction. -/
theorem number_subByte : (number (subByte a b) : Int) = ((number a : Int) - b.toNat) % ((256 ^ n : Nat) : Int) := by
  have hmod := Int.natCast_modEq_iff.2 (subByte_modEq (a := a) (b := b))
  have hsub : (number (subByte a b) : Int) ≡ (number a : Int) - b.toNat [ZMOD (256 ^ n : Nat)] := by
    have := hmod.sub_right (b.toNat : Int)
    rwa [Nat.cast_add, add_sub_cancel_right] at this
  have hlt := number_lt (subByte a b)
  rw [← hsub, Int.emod_eq_of_lt (by omega) (by exact_mod_cast hlt)]

/-- Adding and subtracting. -/
theorem subByte_addByte : subByte (addByte a b) b = a := by
  have h := subByte_modEq (a := addByte a b) (b := b)
  rw [number_addByte] at h
  have hmod : number (subByte (addByte a b) b) ≡ number a [MOD 256 ^ n] :=
    Nat.ModEq.add_right_cancel' b.toNat (h.trans (Nat.mod_modEq _ _))
  exact number_inj (hmod.eq_of_lt_of_lt (number_lt _) (number_lt _))

/-! ### Intervals and separators -/

/-- The key before one that is not null. -/
theorem number_subByte_one (h : a ≠ null n) : number (subByte a 1) + 1 = number a := by
  have hpos : number a ≠ 0 := fun h0 => h (number_inj (h0.trans number_null.symm))
  have hlt := number_lt a
  have hmod : number (subByte a 1) + 1 ≡ number a - 1 + 1 [MOD 256 ^ n] := by
    rw [Nat.sub_add_cancel (by omega)]
    exact subByte_modEq (a := a) (b := 1)
  have heq := (Nat.ModEq.add_right_cancel' 1 hmod).eq_of_lt_of_lt (number_lt _) (by omega)
  omega

/-- The key before the null key is the last one. -/
theorem number_subByte_null : number (subByte (null n) 1) + 1 = 256 ^ n := by
  have hmod := subByte_modEq (a := null n) (b := 1)
  rw [number_null] at hmod
  have hdvd : 256 ^ n ∣ number (subByte (null n) 1) + 1 := (Nat.modEq_zero_iff_dvd).1 hmod
  have hlt := number_lt (subByte (null n) 1)
  exact Nat.le_antisymm hlt (Nat.le_of_dvd (Nat.succ_pos _) hdvd)

/-- The key after one that is not the last. -/
theorem number_addByte_one (h : number a + 1 < 256 ^ n) : number (addByte a 1) = number a + 1 := by
  rw [number_addByte]
  exact Nat.mod_eq_of_lt h

end Arithmetic

/-- The key of which all bytes are ones. -/
def allOnes (keyLen : Nat) : Key keyLen := Vector.replicate keyLen 255

theorem number_allOnes {n : Nat} : number (allOnes n) + 1 = 256 ^ n := by
  have hvalue : ∀ k, value 256 (List.replicate k 255) + 1 = 256 ^ k := by
    intro k
    induction k with
    | zero => rfl
    | succ k ih =>
      rw [List.replicate_succ, value_cons, List.length_replicate, pow_succ]
      omega
  rw [number, allOnes, Vector.toList_replicate, List.map_replicate]
  exact hvalue n

end Key

/-- A key of a layout is the number of an array of bytes, and its successor that of the array and one. -/
theorem Layout.keySucc_number (L : Layout) (key : Key L.keyLen) : L.keySucc key.number = (key.addByte 1).number := by
  rw [Key.number_addByte]
  rfl

open Key in
/-- **Key arithmetic** is arithmetic of numbers in base 256 modulo `256 ^ keyLen`; the interval up to `to - 1` is the
one below `to`, or all of them if `to` is null, and `max_key + 1` is the least key above `max_key`. -/
theorem key_arithmetic (keyLen : Nat) :
    (∀ (a : Key keyLen) (b : UInt8), number (addByte a b) = (number a + b.toNat) % 256 ^ keyLen) ∧
    (∀ (a : Key keyLen) (b : UInt8),
      (number (subByte a b) : Int) = ((number a : Int) - b.toNat) % ((256 ^ keyLen : Nat) : Int)) ∧
    (∀ (a : Key keyLen) (b : UInt8), subByte (addByte a b) b = a) ∧
    (∀ a c : Key keyLen, a < c ↔ number a < number c) ∧
    (∀ a c : Key keyLen, number a = number c → a = c) ∧
    (∀ lower upper : Key keyLen, upper ≠ null keyLen → ∀ k, (lower ≤ k ∧ k ≤ subByte upper 1) ↔
      (lower ≤ k ∧ k < upper)) ∧
    (∀ k : Key keyLen, k ≤ subByte (null keyLen) 1) ∧
    ∀ maxKey : Key keyLen, maxKey < allOnes keyLen →
      maxKey < addByte maxKey 1 ∧ ∀ k, maxKey < k → addByte maxKey 1 ≤ k := by
  refine ⟨fun _ _ => number_addByte, fun _ _ => number_subByte, fun _ _ => subByte_addByte, fun _ _ => lt_iff_number,
    fun _ _ => number_inj, fun lower upper hne k => and_congr_right fun _ => ?_, fun k => ?_, fun maxKey hlt => ?_⟩
  · have hpred := number_subByte_one hne
    rw [le_iff_number, lt_iff_number]
    omega
  · have hlast := number_subByte_null (n := keyLen)
    have := number_lt k
    rw [le_iff_number]
    omega
  · have hones := number_allOnes (n := keyLen)
    rw [lt_iff_number] at hlt
    have hsucc := number_addByte_one (a := maxKey) (by omega)
    refine ⟨?_, fun k hk => ?_⟩
    · rw [lt_iff_number]
      omega
    · rw [lt_iff_number] at hk
      rw [le_iff_number]
      omega

open Key in
/-- Keys of two bytes, with a carry between them. -/
theorem key_arithmetic_two :
    (∀ k : Key 2, (null 2 ≤ k ∧ k ≤ subByte #v[2, 0] 1) ↔ (null 2 ≤ k ∧ k < #v[2, 0])) ∧
      #v[1, 255] < addByte (#v[1, 255] : Key 2) 1 :=
  ⟨(key_arithmetic 2).2.2.2.2.2.1 (null 2) #v[2, 0] (by decide),
    ((key_arithmetic 2).2.2.2.2.2.2.2 #v[1, 255] (lt_iff_number.2 (by decide))).1⟩

end Chime

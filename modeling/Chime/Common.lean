import Chime.Lib.Checked
import Chime.Lib.Cyclic

/-!
# Keys, addresses and the layout constants of `Common.h`

A `Key` of `keyLen` bytes is the number it spells in base 256, most significant byte first; `operator+` and the order
of `std::array` are the arithmetic and the order of these numbers. A `Value` is a number. A layout fixes what is a
compile-time constant in `Common.h`, together with the hash that places keys in a leaf; the bounds are those of
`uint32_t` constants.
-/

namespace Chime

/-- `define::kkeyNull`. -/
def kkeyNull : Nat := 0

/-- `define::kValueNull`. -/
def kValueNull : Nat := 0

/-- `define::kKeyMin`, the lowest fence of a root. -/
def kKeyMin : Nat := 1

/-- `MAX_APP_THREAD`. -/
def maxAppThread : Nat := 65

/-- `MAX_CORO_NUM`. -/
def maxCoroNum : Nat := 8

@[simp] theorem kkeyNull_eq : kkeyNull = 0 := rfl

@[simp] theorem kValueNull_eq : kValueNull = 0 := rfl

@[simp] theorem kKeyMin_eq : kKeyMin = 1 := rfl

/-- `GlobalAddress`, up to what the tree distinguishes: `Null()`, the root tag `Widest()`, and allocated addresses. -/
inductive GlobalAddress
  | null
  | widest
  | at (n : Nat)
  deriving DecidableEq, Repr

/-- The assertions of the tree code. -/
inductive Assertion
  /-- `LeafEntry::set_hop_bit` -/
  | setHopBit
  /-- `LeafEntry::unset_hop_bit` -/
  | unsetHopBit
  /-- `assert(h_home <= h)` in the hop loops -/
  | homeLeft
  /-- `assert(j >= 0)` in `hopscotch_insert_locally` -/
  | noEmpty
  /-- the closing `assert(false)` of `hopscotch_insert_locally` -/
  | hopFails
  /-- `assert(!critical_keys.empty())` in `hopscotch_get_split_key` -/
  | noCritical
  /-- the two range assertions of `VALOCK::update_vacancy` -/
  | updateVacancy
  /-- `assert(read_entry_num == leafSpanSize || has_empty)` in `leaf_node_insert` -/
  | hasEmpty
  /-- the metadata assertions of `hopscotch_search` -/
  | hasMetadata
  /-- `assert(sibling_ptr != GlobalAddress::Null())` before a turn to the right -/
  | siblingNull
  /-- `assert(j != neighborSize)` in `leaf_node_update` -/
  | keyMissing
  /-- `assert(level != 0)` in `insert`, `update` and `search` -/
  | levelZero
  /-- `assert(level > 1)` in `insert_internal` and `internal_node_search` -/
  | levelOne
  /-- `assert(k >= fence_keys.lowest)` in `internal_node_search` and `internal_node_insert` -/
  | fenceLowest
  /-- `assert(records[i].key != k)` in `internal_node_insert` -/
  | separatorExists
  /-- `assert(split_key != kkeyNull)` in `node_split_and_unlock` -/
  | splitKeyNull
  /-- `assert(from_cache)` before a cache entry is invalidated -/
  | fromCache
  /-- `assert(parent_node_addr != GlobalAddress::Null())` in the parent updates -/
  | parentNull
  deriving DecidableEq, Repr

/-- A computation that may stop at a failed assertion. -/
abbrev Checked := Except Assertion

/-- `define::log2_ceil`. -/
def log2Ceil (n : Nat) (p : Nat) : Nat := if n ≤ 1 then p else log2Ceil ((n + 1) / 2) (p + 1)
termination_by n
decreasing_by omega

/-- The compile-time constants of `Common.h` and the hash of `Hash.h`. -/
structure Layout where
  keyLen : Nat
  leafSpanSize : Nat
  internalSpanSize : Nat
  neighborSize : Nat
  /-- `get_hashed_leaf_entry_index`. -/
  getHashedLeafEntryIndex : Nat → Fin leafSpanSize
  keyLen_pos : 0 < keyLen
  neighborSize_pos : 0 < neighborSize
  neighborSize_le : neighborSize ≤ leafSpanSize
  internalSpanSize_pos : 0 < internalSpanSize
  leafSpanSize_lt : leafSpanSize < 2 ^ 32
  internalSpanSize_lt : internalSpanSize < 2 ^ 32

namespace Layout

/-- The constants of the default build, with a hash of one's own. -/
def default (hash : Nat → Fin 64) : Layout where
  keyLen := 8
  leafSpanSize := 64
  internalSpanSize := 64
  neighborSize := 8
  getHashedLeafEntryIndex := hash
  keyLen_pos := by decide
  neighborSize_pos := by decide
  neighborSize_le := by decide
  internalSpanSize_pos := by decide
  leafSpanSize_lt := by decide
  internalSpanSize_lt := by decide

/-- A small build, in which a key is its own hash. -/
def small : Layout where
  keyLen := 8
  leafSpanSize := 4
  internalSpanSize := 4
  neighborSize := 2
  getHashedLeafEntryIndex k := Fin.ofNat 4 k
  keyLen_pos := by decide
  neighborSize_pos := by decide
  neighborSize_le := by decide
  internalSpanSize_pos := by decide
  leafSpanSize_lt := by decide
  internalSpanSize_lt := by decide

variable (L : Layout)

instance : NeZero L.leafSpanSize := ⟨by have := L.neighborSize_pos; have := L.neighborSize_le; omega⟩

/-- The number of keys of `keyLen` bytes. -/
def keySpace : Nat := 256 ^ L.keyLen

/-- The key with all bytes `0xff`: the highest fence of a root. -/
def keyFull : Nat := L.keySpace - 1

/-- The ghost key of `Tree::Tree`. -/
def ghostKey : Nat := L.keySpace - 2

/-- `key + 1`. -/
def keySucc (k : Nat) : Nat := (k + 1) % L.keySpace

/-- `define::paddingBit`. -/
def paddingBit : Nat := log2Ceil (max L.leafSpanSize L.internalSpanSize) 0

/-- `define::vacancyMapBit`. -/
def vacancyMapBit : Nat := min (63 - L.paddingBit) (min L.leafSpanSize L.internalSpanSize)

/-- `define::maxKeyIdxBit`. -/
def maxKeyIdxBit : Nat := 63 - L.vacancyMapBit

theorem leafSpanSize_pos : 0 < L.leafSpanSize := NeZero.pos _

theorem keySpace_ge : 256 ≤ L.keySpace := by
  obtain ⟨m, hm⟩ := Nat.exists_eq_succ_of_ne_zero (Nat.pos_iff_ne_zero.1 L.keyLen_pos)
  have := Nat.pow_pos (n := m) (show 0 < 256 by omega)
  rw [keySpace, hm, Nat.pow_succ]
  omega

/-- Below the ghost key, `key + 1` does not wrap. -/
theorem keySucc_of_lt {k : Nat} (h : k < L.keyFull) : L.keySucc k = k + 1 := by
  have := L.keySpace_ge
  unfold keyFull at h
  exact Nat.mod_eq_of_lt (by omega)

end Layout

theorem log2Ceil_add (n p : Nat) : log2Ceil n p = log2Ceil n 0 + p := by
  induction n using Nat.strongRecOn generalizing p with
  | _ n ih =>
    rw [log2Ceil, log2Ceil.eq_def n 0]
    split
    · omega
    · rename_i h
      rw [ih ((n + 1) / 2) (by omega) (p + 1), ih ((n + 1) / 2) (by omega) (0 + 1)]
      omega

theorem log2Ceil_le {n m : Nat} (h : n ≤ 2 ^ m) : log2Ceil n 0 ≤ m := by
  induction m generalizing n with
  | zero => rw [log2Ceil, if_pos (by simpa using h)]
  | succ m ih =>
    rw [log2Ceil]
    split
    · omega
    · rw [log2Ceil_add]
      have := ih (n := (n + 1) / 2) (by rw [Nat.pow_succ] at h; omega)
      omega

/-- `log2_ceil` is large enough. -/
theorem le_two_pow_log2Ceil (n : Nat) : n ≤ 2 ^ log2Ceil n 0 := by
  induction n using Nat.strongRecOn with
  | _ n ih =>
    rw [log2Ceil]
    split
    · simpa using ‹n ≤ 1›
    · rename_i h
      have := ih ((n + 1) / 2) (by omega)
      rw [log2Ceil_add, Nat.pow_succ]
      omega

namespace Layout

variable (L : Layout)

theorem paddingBit_le : L.paddingBit ≤ 32 :=
  log2Ceil_le (Nat.le_of_lt (Nat.max_lt.2 ⟨L.leafSpanSize_lt, L.internalSpanSize_lt⟩))

theorem vacancyMapBit_pos : 0 < L.vacancyMapBit := by
  have h1 := L.paddingBit_le
  have h2 := L.leafSpanSize_pos
  have h3 := L.internalSpanSize_pos
  simp only [vacancyMapBit]
  omega

theorem vacancyMapBit_le : L.vacancyMapBit ≤ L.leafSpanSize := by
  simp only [vacancyMapBit]
  omega

/-- A slot number fits the `max_key_idx` field of the lock word. -/
theorem leafSpanSize_le_maxKeyIdx : L.leafSpanSize ≤ 2 ^ L.maxKeyIdxBit := by
  have h1 := L.paddingBit_le
  have h2 : L.paddingBit ≤ L.maxKeyIdxBit := by
    simp only [maxKeyIdxBit, vacancyMapBit]
    omega
  calc L.leafSpanSize ≤ max L.leafSpanSize L.internalSpanSize := Nat.le_max_left _ _
    _ ≤ 2 ^ L.paddingBit := le_two_pow_log2Ceil _
    _ ≤ 2 ^ L.maxKeyIdxBit := Nat.pow_le_pow_right (by omega) h2

end Layout
end Chime

import Chime.Hopscotch
import Mathlib.Data.Fin.VecNotation

/-!
# The hopscotch representation invariant

`Placed keys hops`: every key sits in the neighborhood of its home, and the bitmap of a slot tells exactly which slots
of its neighborhood hold keys at home there. Keys and bitmaps of a table are taken apart (`Records.keys`,
`Records.hops`), so that the two kinds of update do not interfere; taking an item out of its slot (`Placed.take`) and
putting one into an empty slot (`Placed.put`) keep the invariant when the bit of its home follows.
-/

namespace Chime

open Cyclic (slot gap)

variable {L : Layout}

namespace Records

def keys (r : Records L) : Fin L.leafSpanSize → Nat := fun s => (r s).key

def items (r : Records L) : Fin L.leafSpanSize → Nat × Nat := fun s => ((r s).key, (r s).value)

def hops (r : Records L) : Fin L.leafSpanSize → BitVec L.neighborSize := fun s => (r s).hopBitmap

theorem getEntry_key (r : Records L) (i : Int) : (r.getEntry i).key = r.keys (slot _ i) := rfl

/-- An entry is its item and its bitmap. -/
theorem ext_entry {r r' : Records L} {s : Fin L.leafSpanSize} (hi : r.items s = r'.items s)
    (hh : r.hops s = r'.hops s) :
    r s = r' s := by
  have hk := congrArg Prod.fst hi
  have hv := congrArg Prod.snd hi
  cases hr : r s
  cases hr' : r' s
  simp only [items, hops, hr, hr'] at hk hv hh
  rw [hk, hv, hh]

theorem keys_eq (r : Records L) : r.keys = fun s => (r.items s).1 := rfl

theorem keys_of_items {r r' : Records L} {s t : Fin L.leafSpanSize} (h : r.items s = r'.items t) :
    r.keys s = r'.keys t := congrArg Prod.fst h

@[simp] theorem items_update (r : Records L) (i : Int) (k v : Nat) :
    (r.update i k v).items = Function.update r.items (slot _ i) (k, v) := by
  funext s
  by_cases h : s = slot _ i <;> simp [items, update, LeafEntry.update, Function.update_apply, h]

@[simp] theorem keys_update (r : Records L) (i : Int) (k v : Nat) :
    (r.update i k v).keys = Function.update r.keys (slot _ i) k := by
  funext s
  by_cases h : s = slot _ i <;> simp [keys, update, LeafEntry.update, Function.update_apply, h]

@[simp] theorem hops_update (r : Records L) (i : Int) (k v : Nat) : (r.update i k v).hops = r.hops := by
  funext s
  by_cases h : s = slot _ i <;> simp [hops, update, LeafEntry.update, getEntry, Function.update_apply, h]

end Records

/-! ## Hop bits -/

/-- Bit `i` of a hop bitmap, counted from the left. -/
def hopBitOf {H : Nat} (b : BitVec H) (i : Nat) : Bool := b.getLsbD (H - i - 1)

/-- A bitmap with bit `i` set. -/
def withHop {H : Nat} (b : BitVec H) (i : Nat) : BitVec H := b ||| BitVec.twoPow H (H - i - 1)

/-- A bitmap with bit `i` cleared. -/
def withoutHop {H : Nat} (b : BitVec H) (i : Nat) : BitVec H := b &&& ~~~BitVec.twoPow H (H - i - 1)

theorem LeafEntry.hopBit_eq {H : Nat} (e : LeafEntry H) (i : Nat) : e.hopBit i = hopBitOf e.hopBitmap i := rfl

theorem hopBitOf_withHop {H : Nat} (b : BitVec H) {i j : Nat} (hi : i < H) (hj : j < H) :
    hopBitOf (withHop b i) j = (hopBitOf b j || decide (j = i)) := by
  simp only [hopBitOf, withHop, BitVec.getLsbD_or, BitVec.getLsbD_twoPow]
  have h1 : H - i - 1 < H := by omega
  have h2 : (H - i - 1 = H - j - 1) ↔ j = i := by omega
  simp [h1, h2]

theorem hopBitOf_withoutHop {H : Nat} (b : BitVec H) {i j : Nat} (hi : i < H) (hj : j < H) :
    hopBitOf (withoutHop b i) j = (hopBitOf b j && !decide (j = i)) := by
  simp only [hopBitOf, withoutHop, BitVec.getLsbD_and, BitVec.getLsbD_not, BitVec.getLsbD_twoPow]
  have h1 : H - i - 1 < H := by omega
  have h2 : (H - i - 1 = H - j - 1) ↔ j = i := by omega
  have h3 : H - j - 1 < H := by omega
  simp [h1, h2, h3]

theorem hopBitOf_ext {H : Nat} {b b' : BitVec H} (h : ∀ i < H, hopBitOf b i = hopBitOf b' i) : b = b' := by
  refine BitVec.eq_of_getLsbD_eq fun i hi => ?_
  have := h (H - i - 1) (by omega)
  rwa [hopBitOf, hopBitOf, show H - (H - i - 1) - 1 = i by omega] at this

theorem hopBitOf_zero {H : Nat} (i : Nat) : hopBitOf (0#H) i = false := by simp [hopBitOf]

namespace Records

/-- `set_hop_bit` goes through on a clear bit of the neighborhood. -/
theorem setHopBit_ok (r : Records L) (i idx : Int) (h0 : 0 ≤ idx) (h1 : idx < L.neighborSize)
    (hb : hopBitOf (r.hops (slot _ i)) idx.toNat = false) :
    ∃ r', r.setHopBit i idx = .ok r' ∧ r'.items = r.items ∧
      r'.hops = Function.update r.hops (slot _ i) (withHop (r.hops (slot _ i)) idx.toNat) := by
  refine ⟨Function.update r (slot _ i) { r.getEntry i with hopBitmap := withHop (r.hops (slot _ i)) idx.toNat },
    ?_, ?_, ?_⟩
  · have : ¬(r.getEntry i).hopBit idx.toNat = true := by
      rw [LeafEntry.hopBit_eq]
      exact Bool.eq_false_iff.1 hb
    simp only [setHopBit, LeafEntry.setHopBit, Checked.assert_of (show _ ∧ _ ∧ _ from ⟨h0, h1, this⟩), Checked.ok_bind,
      Checked.pure_eq_ok]
    rfl
  · funext s
    by_cases h : s = slot _ i <;> simp [items, getEntry, Function.update_apply, h]
  · funext s
    by_cases h : s = slot _ i <;> simp [hops, Function.update_apply, h]

/-- `unset_hop_bit` goes through on a set bit of the neighborhood. -/
theorem unsetHopBit_ok (r : Records L) (i idx : Int) (h0 : 0 ≤ idx) (h1 : idx < L.neighborSize)
    (hb : hopBitOf (r.hops (slot _ i)) idx.toNat = true) :
    ∃ r', r.unsetHopBit i idx = .ok r' ∧ r'.items = r.items ∧
      r'.hops = Function.update r.hops (slot _ i) (withoutHop (r.hops (slot _ i)) idx.toNat) := by
  refine ⟨Function.update r (slot _ i) { r.getEntry i with hopBitmap := withoutHop (r.hops (slot _ i)) idx.toNat },
    ?_, ?_, ?_⟩
  · simp only [unsetHopBit, LeafEntry.unsetHopBit,
      Checked.assert_of (show _ ∧ _ ∧ (r.getEntry i).hopBit idx.toNat = true from ⟨h0, h1, hb⟩), Checked.ok_bind,
      Checked.pure_eq_ok]
    rfl
  · funext s
    by_cases h : s = slot _ i <;> simp [items, getEntry, Function.update_apply, h]
  · funext s
    by_cases h : s = slot _ i <;> simp [hops, Function.update_apply, h]

end Records

/-! ## The invariant -/

/-- Every key in its neighborhood, every bitmap exact. -/
structure Placed (L : Layout) (keys : Fin L.leafSpanSize → Nat) (hops : Fin L.leafSpanSize → BitVec L.neighborSize) :
    Prop where
  homed : ∀ s, keys s ≠ 0 → gap (L.getHashedLeafEntryIndex (keys s)) s < L.neighborSize
  exact : ∀ s t, gap s t < L.neighborSize →
    (hopBitOf (hops s) (gap s t) = true ↔ keys t ≠ 0 ∧ L.getHashedLeafEntryIndex (keys t) = s)

namespace Placed

variable {keys : Fin L.leafSpanSize → Nat} {hops : Fin L.leafSpanSize → BitVec L.neighborSize}
  {t : Fin L.leafSpanSize} {k : Nat}

/-- The table without keys. -/
theorem empty : Placed L (fun _ => 0) (fun _ => 0#_) where
  homed := fun _ h => absurd rfl h
  exact := fun _ _ _ => by simp [hopBitOf_zero]

/-- The bit of a stored key is set. -/
theorem bit (h : Placed L keys hops) (hk : keys t = k) (hk0 : k ≠ 0) :
    hopBitOf (hops (L.getHashedLeafEntryIndex k)) (gap (L.getHashedLeafEntryIndex k) t) = true := by
  subst hk
  exact (h.exact _ t (h.homed t hk0)).2 ⟨hk0, rfl⟩

/-- The bits that name an empty slot are clear. -/
theorem bit_empty (h : Placed L keys hops) (ht : keys t = 0) {s : Fin L.leafSpanSize} (hs : gap s t < L.neighborSize) :
    hopBitOf (hops s) (gap s t) = false := by
  rw [Bool.eq_false_iff]
  exact fun hb => ((h.exact s t hs).1 hb).1 ht

/-- Taking an item out of its slot, with the bit of its home. -/
theorem take (h : Placed L keys hops) (hk : keys t = k) (hk0 : k ≠ 0) :
    Placed L (Function.update keys t 0) (Function.update hops (L.getHashedLeafEntryIndex k)
      (withoutHop (hops (L.getHashedLeafEntryIndex k)) (gap (L.getHashedLeafEntryIndex k) t))) := by
  have hd : gap (L.getHashedLeafEntryIndex k) t < L.neighborSize := hk ▸ h.homed t (hk ▸ hk0)
  constructor
  · intro s hs
    by_cases hst : s = t
    · simp [hst] at hs
    · rw [Function.update_of_ne hst] at hs ⊢
      exact h.homed s hs
  · intro s u hsu
    by_cases hut : u = t
    · subst hut
      by_cases hs : s = L.getHashedLeafEntryIndex k
      · subst hs
        simp [hopBitOf_withoutHop _ hd hd]
      · have hf : hopBitOf (hops s) (gap s u) = false := by
          rw [Bool.eq_false_iff]
          intro hb
          exact hs (by rw [← ((h.exact s u hsu).1 hb).2, hk])
        simp [Function.update_of_ne hs, hf]
    · rw [Function.update_of_ne hut, ← h.exact s u hsu]
      by_cases hs : s = L.getHashedLeafEntryIndex k
      · subst hs
        have hne : gap (L.getHashedLeafEntryIndex k) u ≠ gap (L.getHashedLeafEntryIndex k) t :=
          fun e => hut (Cyclic.gap_inj e)
        rw [Function.update_self, hopBitOf_withoutHop _ hd hsu]
        simp [hne]
      · rw [Function.update_of_ne hs]

/-- Putting an item into an empty slot of its neighborhood, with the bit of its home. -/
theorem put (h : Placed L keys hops) (ht : keys t = 0) (hk0 : k ≠ 0)
    (hd : gap (L.getHashedLeafEntryIndex k) t < L.neighborSize) :
    Placed L (Function.update keys t k) (Function.update hops (L.getHashedLeafEntryIndex k)
      (withHop (hops (L.getHashedLeafEntryIndex k)) (gap (L.getHashedLeafEntryIndex k) t))) := by
  constructor
  · intro s hs
    by_cases hst : s = t
    · subst hst
      simpa using hd
    · rw [Function.update_of_ne hst] at hs ⊢
      exact h.homed s hs
  · intro s u hsu
    by_cases hut : u = t
    · subst hut
      rw [Function.update_self]
      by_cases hs : s = L.getHashedLeafEntryIndex k
      · subst hs
        simp [hopBitOf_withHop _ hd hd, hk0]
      · simp [Function.update_of_ne hs, h.bit_empty ht hsu, Ne.symm hs]
    · rw [Function.update_of_ne hut, ← h.exact s u hsu]
      by_cases hs : s = L.getHashedLeafEntryIndex k
      · subst hs
        have hne : gap (L.getHashedLeafEntryIndex k) u ≠ gap (L.getHashedLeafEntryIndex k) t :=
          fun e => hut (Cyclic.gap_inj e)
        rw [Function.update_self, hopBitOf_withHop _ hd hsu]
        simp [hne]
      · rw [Function.update_of_ne hs]

end Placed

/-- `Placed` for a table. -/
def Records.IsPlaced (r : Records L) : Prop := Placed L r.keys r.hops

/-- No key is in the table twice. -/
def Records.Distinct (r : Records L) : Prop := ∀ s t, r.keys s = r.keys t → r.keys s ≠ 0 → s = t

/-- The key is in one slot at most. -/
def Records.Once (r : Records L) (k : Nat) : Prop := ∀ s t, r.keys s = k → r.keys t = k → s = t

theorem Records.distinct_iff {r : Records L} : r.Distinct ↔ ∀ k ≠ 0, r.Once k :=
  ⟨fun hd _ hk s t hs ht => hd s t (hs.trans ht.symm) (hs ▸ hk), fun h s t hst hs => h _ hs s t rfl hst.symm⟩

/-- A good leaf: every key in its neighborhood, exact bitmaps, distinct keys. -/
structure Good (r : Records L) : Prop where
  /-- a key sits in a slot of `[home, home + neighborSize)`, modulo the span -/
  homed : ∀ s, (r s).key ≠ kkeyNull → ∃ i < L.neighborSize,
    s = slot L.leafSpanSize ((L.getHashedLeafEntryIndex (r s).key).val + i : Nat)
  /-- bit `i` of slot `s` is set exactly when slot `s + i` holds a key whose home is `s` -/
  exact : ∀ (s : Fin L.leafSpanSize) (i : Nat), i < L.neighborSize →
    ((r s).hopBit i = true ↔ (r.getEntry (s.val + i : Nat)).key ≠ kkeyNull ∧
      L.getHashedLeafEntryIndex (r.getEntry (s.val + i : Nat)).key = s)
  distinct : ∀ s t, (r s).key = (r t).key → (r s).key ≠ kkeyNull → s = t

/-- A good table of the small build: the keys 4, 8 and 2, and an empty slot. -/
def Records.sample : Records .small := ![⟨3, 4, 40⟩, ⟨0, 8, 80⟩, ⟨2, 2, 20⟩, ⟨0, 0, 0⟩]

theorem good_sample : Good Records.sample := ⟨by decide +kernel, by decide +kernel, by decide +kernel⟩

theorem gap_slot_add (s : Fin L.leafSpanSize) {i : Nat} (hi : i < L.neighborSize) :
    gap s (slot L.leafSpanSize (s.val + i : Nat)) = i := by
  have := L.neighborSize_le
  have h := Cyclic.gap_slot (n := L.leafSpanSize) (i := (s.val : Int)) (d := i) (by omega)
  rw [Cyclic.slot_coe] at h
  exact_mod_cast h

theorem good_iff (r : Records L) :
    Good r ↔ r.IsPlaced ∧ r.Distinct := by
  constructor
  · intro h
    refine ⟨⟨fun s hs => ?_, fun s t hst => ?_⟩, h.distinct⟩
    · obtain ⟨i, hi, he⟩ := h.homed s hs
      have := gap_slot_add (L.getHashedLeafEntryIndex (r s).key) hi
      rw [← he] at this
      exact this ▸ hi
    · have he := h.exact s _ hst
      have hs : slot L.leafSpanSize ((s.val + gap s t : Nat) : Int) = t := by
        push_cast
        exact Cyclic.slot_add_gap s t
      simp only [Records.getEntry, hs] at he
      exact he
  · rintro ⟨hp, hd⟩
    refine ⟨fun s hs => ⟨_, hp.homed s hs, ?_⟩, fun s i hi => ?_, hd⟩
    · push_cast
      exact (Cyclic.slot_add_gap _ s).symm
    · have hg := gap_slot_add s hi
      have he := hp.exact s (slot L.leafSpanSize (s.val + i : Nat)) (hg.symm ▸ hi)
      rw [hg] at he
      exact he

end Chime

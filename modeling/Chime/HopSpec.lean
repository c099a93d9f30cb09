import Chime.Lib.HopChain
import Chime.Lib.Shift
import Chime.Placement

/-!
# The hop loop follows the greedy chain

While the hole is at `j`, slot `j` still shows the item that has just left it, so the invariant is about the keys with
slot `j` emptied (`vacate`). On such a table the two searches of the loop compute the greedy victim of
`HopChain.IsVictim` for the origins given by the keys (`victimHome_eq`, `victim_spec`), a hop moves its item and the
bit of its home (`hop_spec`), and the loop as a whole shifts the items along the chain (`hopLoop_spec`).
-/

namespace Chime

open Cyclic (slot gap)
open HopChain (Fits IsVictim Chain)
open Shift (shift)

variable {L : Layout}

/-- The home of the item at a logical index, as a logical index not right of it; out of reach if the slot is empty. -/
def origin (keys : Fin L.leafSpanSize → Nat) (i : Int) : Int :=
  if keys (slot _ i) = 0 then i - L.leafSpanSize
  else i - gap (L.getHashedLeafEntryIndex (keys (slot _ i))) (slot _ i)

/-- The keys with the slot of the hole emptied. -/
def vacate (keys : Fin L.leafSpanSize → Nat) (j : Int) : Fin L.leafSpanSize → Nat := Function.update keys (slot _ j) 0

theorem origin_le (keys : Fin L.leafSpanSize → Nat) (i : Int) : origin keys i ≤ i := by
  unfold origin
  split <;> omega

theorem origin_congr {keys keys' : Fin L.leafSpanSize → Nat} {i : Int} (h : keys (slot _ i) = keys' (slot _ i)) :
    origin keys i = origin keys' i := by
  unfold origin
  rw [h]

/-- The home of a key as the origin of its slot. -/
theorem slot_origin {keys : Fin L.leafSpanSize → Nat} {i : Int} (h : keys (slot _ i) ≠ 0) :
    slot _ (origin keys i) = L.getHashedLeafEntryIndex (keys (slot _ i)) := by
  rw [origin, if_neg h]
  exact Cyclic.slot_sub_gap rfl

/-- An item that fits a hole is an item. -/
theorem ne_zero_of_reach {keys : Fin L.leafSpanSize → Nat} {h j : Int} (hj : h < j)
    (ho : j < origin keys h + L.neighborSize) : keys (slot _ h) ≠ 0 := by
  have := L.neighborSize_le
  intro hk
  rw [origin, if_pos hk] at ho
  omega

/-- The logical home that the source computes from a slot and a distance. -/
theorem homeAt_eq {h z : Int} (h0 : 0 ≤ h) (h1 : h < 2 * L.leafSpanSize) (z0 : 0 ≤ z) (z1 : z < L.neighborSize) :
    homeAt L h z = h - z := by
  have hn := L.neighborSize_le
  unfold homeAt wrapHome
  by_cases hlt : h - z < 0
  · rw [Int.emod_eq_of_lt (by omega) (by omega)]
    split_ifs <;> omega
  by_cases hge : h - z < L.leafSpanSize
  · rw [Int.add_emod_right, Int.emod_eq_of_lt (by omega) (by omega)]
    split_ifs <;> omega
  · rw [Int.add_emod_right, ← Int.sub_emod_right, Int.emod_eq_of_lt (by omega) (by omega)]
    split_ifs <;> omega

namespace Records

variable {r r' : Records L} {j h hashIdx : Int}

/-- A bit of the home at distance `z` tells where the item at `h` comes from. -/
theorem hopBit_iff (hp : Placed L (vacate r.keys j) r.hops) (hne : slot L.leafSpanSize h ≠ slot _ j) {z : Nat}
    (hz : z < L.neighborSize) :
    (r.getEntry (h - z)).hopBit z = true ↔ r.keys (slot _ h) ≠ 0 ∧ origin r.keys h = h - z := by
  have hn := L.neighborSize_le
  have hs : slot L.leafSpanSize (h - z + z) = slot _ h := by rw [Int.sub_add_cancel]
  have hg : gap (slot L.leafSpanSize (h - z)) (slot _ h) = z := Cyclic.gap_eq_of_slot (by omega) hs
  have he := hp.exact (slot _ (h - z)) (slot _ h) (hg.symm ▸ hz)
  rw [hg, vacate, Function.update_of_ne hne] at he
  rw [show (r.getEntry (h - z)).hopBit z = hopBitOf (r.hops (slot _ (h - z))) z from rfl, he]
  refine and_congr_right fun hk => ?_
  rw [origin, if_neg hk]
  constructor
  · intro heq
    rw [heq, hg]
  · intro heq
    have hgz : (gap (L.getHashedLeafEntryIndex (r.keys (slot _ h))) (slot _ h) : Int) = z := by omega
    rw [← hgz]
    exact (Cyclic.slot_sub_gap rfl).symm

/-- The search for a home finds the origin when it lies within reach. -/
theorem victimHome_eq (hp : Placed L (vacate r.keys j) r.hops) (h0 : 0 ≤ h) (h1 : h < 2 * L.leafSpanSize) (hhj : h < j)
    (hjh : j < h + L.leafSpanSize) : ∀ n ≤ L.neighborSize, r.victimHome j h n =
      .ok (if h - n < origin r.keys h ∧ j < origin r.keys h + L.neighborSize then some (origin r.keys h) else none)
  | 0, _ => by
    have := origin_le r.keys h
    rw [victimHome, if_neg (by omega)]
  | n + 1, hn => by
    have hne : slot L.leafSpanSize h ≠ slot _ j := Cyclic.slot_ne (a := h) (by omega) (by omega) (by omega)
    have hbit := hopBit_iff hp hne (z := n) (by omega)
    simp only [victimHome, homeAt_eq h0 h1 (Int.natCast_nonneg n) (by omega),
      Checked.assert_of (show h - (n : Int) ≤ h by omega), Checked.ok_bind, Checked.pure_eq_ok]
    rw [victimHome_eq hp h0 h1 hhj hjh n (by omega)]
    by_cases hc : h - n + L.neighborSize > j ∧ (r.getEntry (h - n)).hopBit n = true
    · have ho := (hbit.1 hc.2).2
      rw [if_pos hc, if_pos (by omega), ho]
    · rw [if_neg hc]
      have hiff : (h - n < origin r.keys h ∧ j < origin r.keys h + L.neighborSize) ↔
          (h - (n + 1 : Nat) < origin r.keys h ∧ j < origin r.keys h + L.neighborSize) := by
        constructor
        · rintro ⟨h2, h3⟩
          exact ⟨by omega, h3⟩
        · rintro ⟨h2, h3⟩
          refine ⟨?_, h3⟩
          by_contra hle
          have ho : origin r.keys h = h - n := by omega
          exact hc ⟨by omega, hbit.2 ⟨ne_zero_of_reach hhj h3, ho⟩⟩
      simp only [hiff]

/-- The search for a victim finds the leftmost item that fits. -/
theorem victim_spec (hp : Placed L (vacate r.keys j) r.hops) (h0 : (L.neighborSize : Int) ≤ j)
    (h1 : j < 2 * L.leafSpanSize) : ∀ n, n < L.neighborSize →
      (∀ h', Fits (origin r.keys) L.neighborSize j h' → j - n ≤ h') →
      (∃ o : Nat, IsVictim (origin r.keys) L.neighborSize j (j - (o + 1 : Nat)) ∧
        r.victim j n = .ok (some (o, origin r.keys (j - (o + 1 : Nat))))) ∨
      ((∀ h', ¬Fits (origin r.keys) L.neighborSize j h') ∧ r.victim j n = .ok none)
  | 0, _, hno => .inr ⟨fun h' hf => by have := hno h' hf; have := hf.2.1; omega, rfl⟩
  | n + 1, hn, hno => by
    have hN := L.neighborSize_le
    have hv := victimHome_eq hp (h := j - (n + 1 : Nat)) (by omega) (by omega) (by omega) (by omega) _ le_rfl
    simp only [victim, hv, Checked.ok_bind]
    by_cases hf : Fits (origin r.keys) L.neighborSize j (j - (n + 1 : Nat))
    · obtain ⟨hf1, hf2, hf3⟩ := hf
      refine .inl ⟨n, ⟨⟨hf1, hf2, hf3⟩, fun h' hf' => hno h' hf'⟩, ?_⟩
      rw [if_pos ⟨by omega, hf3⟩]
      rfl
    · have hnot : ¬(j - (n + 1 : Nat) - L.neighborSize < origin r.keys (j - (n + 1 : Nat)) ∧
          j < origin r.keys (j - (n + 1 : Nat)) + L.neighborSize) :=
        fun hc => hf ⟨by omega, by omega, hc.2⟩
      rw [if_neg hnot]
      refine victim_spec hp h0 h1 n (by omega) fun h' hf' => ?_
      have hle := hno h' hf'
      by_contra hlt
      exact hf ((by omega : h' = j - (n + 1 : Nat)) ▸ hf')

/-- A hop moves the item and the bit of its home. -/
theorem hop_spec (hp : Placed L (vacate r.keys j) r.hops) (hf : Fits (origin r.keys) L.neighborSize j h) :
    ∃ r', r.hop j h (origin r.keys h) = .ok r' ∧
      r'.items = Function.update r.items (slot _ j) (r.items (slot _ h)) ∧
      (∀ s, s ≠ slot _ (origin r.keys h) → r'.hops s = r.hops s) ∧ Placed L (vacate r'.keys h) r'.hops := by
  obtain ⟨h1, h2, h3⟩ := hf
  have hN := L.neighborSize_le
  have hle := origin_le r.keys h
  have hk0 := ne_zero_of_reach h2 h3
  have hne : slot L.leafSpanSize h ≠ slot _ j := Cyclic.slot_ne (a := h) (by omega) (by omega) (by omega)
  have hhome := slot_origin hk0
  have hgh : gap (slot L.leafSpanSize (origin r.keys h)) (slot _ h) = (h - origin r.keys h).toNat :=
    Cyclic.gap_eq_of_slot (by omega) (congrArg _ (by omega))
  have hgj : gap (slot L.leafSpanSize (origin r.keys h)) (slot _ j) = (j - origin r.keys h).toNat :=
    Cyclic.gap_eq_of_slot (by omega) (congrArg _ (by omega))
  have hvh : vacate r.keys j (slot _ h) = r.keys (slot _ h) := Function.update_of_ne hne _ _
  -- the invariant with the item taken out of `h` and put into `j`
  have htake := hp.take hvh hk0
  have hput := htake.put (t := slot _ j) (k := r.keys (slot _ h))
    (by rw [Function.update_of_ne hne.symm]; simp [vacate]) hk0 (by rw [← hhome, hgj]; omega)
  have hbit := hp.bit hvh hk0
  rw [← hhome, hgh] at hbit htake
  rw [← hhome, hgh, hgj] at hput
  have hbit' := htake.bit_empty (t := slot _ j) (s := slot _ (origin r.keys h))
    (by rw [Function.update_of_ne hne.symm]; simp [vacate]) (by rw [hgj]; omega)
  rw [hgj] at hbit'
  -- the two bit operations
  obtain ⟨r₁, hr₁, hi₁, hh₁⟩ := unsetHopBit_ok (r.update j (r.getEntry h).key (r.getEntry h).value)
    (origin r.keys h) (h - origin r.keys h) (by omega) (by omega) (by rw [hops_update]; exact hbit)
  rw [hops_update] at hh₁
  obtain ⟨r₂, hr₂, hi₂, hh₂⟩ := setHopBit_ok r₁ (origin r.keys h) (j - origin r.keys h) (by omega) (by omega)
    (by rw [hh₁]; exact hbit')
  refine ⟨r₂, ?_, ?_, ?_, ?_⟩
  · simp only [hop, hr₁, hr₂, Checked.ok_bind]
  · rw [hi₂, hi₁, items_update]
    rfl
  · intro s hs
    rw [hh₂, hh₁, Function.update_of_ne hs, Function.update_of_ne hs]
  · have hkeys : vacate r₂.keys h =
        Function.update (Function.update (vacate r.keys j) (slot _ h) 0) (slot _ j) (r.keys (slot _ h)) := by
      have hk₂ : r₂.keys = Function.update r.keys (slot _ j) (r.keys (slot _ h)) := by
        rw [keys_eq, hi₂, hi₁, ← keys_eq, keys_update, getEntry_key]
      rw [vacate, vacate, hk₂, Function.update_comm hne, Function.update_idem]
    rw [hkeys, hh₂, hh₁]
    exact hput

/-- What the loop does along the holes `j :: hs`. -/
structure Hopped (r : Records L) (base j : Int) (hs : List Int) (r' : Records L) : Prop where
  items : r'.items = shift r.items (slot _ j) (hs.map (slot _))
  hops : ∀ s, r'.hops s ≠ r.hops s → ∃ i, base < i ∧ i < j ∧ s = slot _ i
  placed : Placed L (vacate r'.keys ((j :: hs).getLast (List.cons_ne_nil _ _))) r'.hops

/-- **The hop loop**: it ends, passes every assertion, and follows the greedy chain if there is one. -/
theorem hopLoop_spec (r : Records L) {base j : Int} (acc : List (Fin L.leafSpanSize)) (hb0 : 0 ≤ base)
    (hb1 : base < L.leafSpanSize) (hj1 : j < base + L.leafSpanSize) (hp : Placed L (vacate r.keys j) r.hops) :
    (∃ hs r', Chain (origin r.keys) L.neighborSize base j hs ∧ Hopped r base j hs r' ∧
      r.hopLoop base j acc = .ok (some (r', (j :: hs).getLast (List.cons_ne_nil _ _), acc ++ (j :: hs).map (slot _)))) ∨
    ((∀ hs, ¬Chain (origin r.keys) L.neighborSize base j hs) ∧ r.hopLoop base j acc = .ok none) := by
  have hN := L.neighborSize_le
  have hH := L.neighborSize_pos
  rw [hopLoop]
  by_cases hj : j < base + L.neighborSize
  · refine .inl ⟨[], r, .done hj, ⟨rfl, fun s hs => absurd rfl hs, hp⟩, ?_⟩
    rw [if_pos hj]
    rfl
  rw [if_neg hj]
  rcases victim_spec hp (by omega) (by omega) (L.neighborSize - 1) (by omega)
    (fun h' hf => by have := hf.1; omega) with ⟨o, hv, he⟩ | ⟨hno, he⟩
  · obtain ⟨r₁, hr₁, hi₁, hh₁, hp₁⟩ := hop_spec hp hv.1
    obtain ⟨hv1, hv2, hv3⟩ := hv.1
    have hk₁ : ∀ i, base < i → i < j - (o + 1 : Nat) → origin r.keys i = origin r₁.keys i := by
      intro i h1 h2
      have hne : slot L.leafSpanSize i ≠ slot _ j := Cyclic.slot_ne (a := base) (by omega) (by omega) (by omega)
      exact origin_congr (keys_of_items (by rw [hi₁, Function.update_of_ne hne]))
    rw [he]
    simp only [hr₁]
    rcases hopLoop_spec r₁ (acc ++ [slot _ j]) hb0 hb1 (by omega) hp₁ with ⟨hs, r', hc, hop', he'⟩ | ⟨hno', he'⟩
    · refine .inl ⟨_ :: hs, r', .hop (by omega) hv (hc.congr fun i h1 h2 => (hk₁ i h1 h2).symm), ⟨?_, ?_, ?_⟩, ?_⟩
      · rw [hop'.items, hi₁, List.map_cons, Shift.shift_cons]
      · intro s hs
        by_cases hs' : s = slot _ (origin r.keys (j - (o + 1 : Nat)))
        · exact ⟨_, by omega, by have := origin_le r.keys (j - (o + 1 : Nat)); omega, hs'⟩
        · rw [← hh₁ s hs'] at hs
          obtain ⟨i, h1, h2, h3⟩ := hop'.hops s hs
          exact ⟨i, h1, by omega, h3⟩
      · rw [List.getLast_cons (List.cons_ne_nil _ _)]
        exact hop'.placed
      · rw [he', List.getLast_cons (List.cons_ne_nil _ _), List.append_assoc]
        rfl
    · refine .inr ⟨fun hs hc => ?_, he'⟩
      cases hc with
      | done h => omega
      | hop _ hv' hc' =>
        obtain rfl := hv.unique hv'
        exact hno' _ (hc'.congr hk₁)
  · refine .inr ⟨fun hs hc => ?_, by rw [he]⟩
    cases hc with
    | done h => omega
    | hop _ hv' _ => exact hno _ hv'.1
termination_by (j - base - L.neighborSize + 1).toNat
decreasing_by omega

end Records
end Chime

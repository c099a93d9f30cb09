import Mathlib.Data.Int.Basic
import Mathlib.Data.List.Basic
import Mathlib.Tactic.Linarith

/-!
# Greedy displacement chains

A hole at position `j` wants to travel left, below `base + reach`. A position `h` left of `j` may give up its item to
the hole when the item's origin allows it to sit at `j` (`j < origin h + reach`); the hole then moves to `h`. The
greedy rule takes the leftmost such `h` (`IsVictim`). `Chain origin reach base j hs` says that the holes after `j` are
`hs`, the last one below `base + reach`.

* the rule is deterministic (`IsVictim.unique`, `Chain.unique`);
* a chain from `j` gives a chain from every position to the left of `j` (`Chain.of_le`);
* no two items of one chain have the same origin (`Chain.origins`).
-/

namespace HopChain

variable {origin origin' : Int → Int} {reach base j h : Int} {hs : List Int}

/-- The item at `h` may fill a hole at `j`. -/
def Fits (origin : Int → Int) (reach j h : Int) : Prop := j - reach < h ∧ h < j ∧ j < origin h + reach

/-- The leftmost item that may fill the hole at `j`. -/
def IsVictim (origin : Int → Int) (reach j h : Int) : Prop :=
  Fits origin reach j h ∧ ∀ h', Fits origin reach j h' → h ≤ h'

/-- The holes that follow `j`. -/
inductive Chain (origin : Int → Int) (reach base : Int) : Int → List Int → Prop
  | done {j : Int} : j < base + reach → Chain origin reach base j []
  | hop {j h : Int} {hs : List Int} : base + reach ≤ j → IsVictim origin reach j h → Chain origin reach base h hs →
      Chain origin reach base j (h :: hs)

theorem IsVictim.unique {h₁ h₂ : Int} (H₁ : IsVictim origin reach j h₁) (H₂ : IsVictim origin reach j h₂) : h₁ = h₂ :=
  le_antisymm (H₁.2 _ H₂.1) (H₂.2 _ H₁.1)

/-- Some item fits, so there is a leftmost one. -/
theorem exists_victim (hf : Fits origin reach j h) : ∃ h₀, IsVictim origin reach j h₀ ∧ h₀ ≤ h := by
  classical
  obtain ⟨m, hm⟩ : ∃ m : Nat, h = j - reach + 1 + m := ⟨(h - (j - reach + 1)).toNat, by have := hf.1; omega⟩
  have hex : ∃ m : Nat, Fits origin reach j (j - reach + 1 + m) := ⟨m, hm ▸ hf⟩
  have hle : Nat.find hex ≤ m := Nat.find_min' hex (hm ▸ hf)
  refine ⟨j - reach + 1 + Nat.find hex, ⟨Nat.find_spec hex, fun h' hf' => ?_⟩, by omega⟩
  obtain ⟨m', hm'⟩ : ∃ m' : Nat, h' = j - reach + 1 + m' := ⟨(h' - (j - reach + 1)).toNat, by have := hf'.1; omega⟩
  have : Nat.find hex ≤ m' := Nat.find_min' hex (hm' ▸ hf')
  omega

theorem Chain.unique {hs₁ hs₂ : List Int} (H₁ : Chain origin reach base j hs₁) (H₂ : Chain origin reach base j hs₂) :
    hs₁ = hs₂ := by
  induction H₁ generalizing hs₂ with
  | done hj =>
    cases H₂ with
    | done _ => rfl
    | hop hj' _ _ => omega
  | hop hj hv _ ih =>
    cases H₂ with
    | done hj' => omega
    | hop _ hv' hc' =>
      obtain rfl := hv.unique hv'
      rw [ih hc']

/-- Holes only travel left, and stay right of `base`. -/
theorem Chain.bounds (H : Chain origin reach base j hs) : ∀ h ∈ hs, base < h ∧ h < j := by
  induction H with
  | done _ => simp
  | hop hj hv _ ih =>
    intro x hx
    have h1 := hv.1.1
    have h2 := hv.1.2.1
    rcases List.mem_cons.1 hx with rfl | hx
    · omega
    · have := ih x hx
      omega

/-- The holes are in strictly decreasing order. -/
theorem Chain.sorted (H : Chain origin reach base j hs) : (j :: hs).Pairwise (· > ·) := by
  induction H with
  | done _ => simp
  | hop hj hv hc ih =>
    refine List.pairwise_cons.2 ⟨fun x hx => ?_, ih⟩
    have h2 := hv.1.2.1
    rcases List.mem_cons.1 hx with rfl | hx
    · exact h2
    · have := hc.bounds x hx
      omega

/-- Where the hole ends. -/
theorem Chain.last_lt (H : Chain origin reach base j hs) : (j :: hs).getLast (by simp) < base + reach := by
  induction H with
  | done hj => exact hj
  | hop _ _ _ ih => rw [List.getLast_cons (by simp)]; exact ih

/-- A chain reads origins only between `base` and its start. -/
theorem Chain.congr (H : Chain origin reach base j hs) (heq : ∀ i, base < i → i < j → origin i = origin' i) :
    Chain origin' reach base j hs := by
  induction H with
  | done hj => exact .done hj
  | @hop j h hs hj hv hc ih =>
    have hfit : ∀ i, Fits origin reach j i ↔ Fits origin' reach j i := by
      intro i
      constructor
      · rintro ⟨h1, h2, h3⟩
        exact ⟨h1, h2, heq i (by omega) (by omega) ▸ h3⟩
      · rintro ⟨h1, h2, h3⟩
        exact ⟨h1, h2, (heq i (by omega) (by omega)).symm ▸ h3⟩
    have h2 := hv.1.2.1
    refine .hop hj ⟨(hfit h).1 hv.1, fun h' hf' => hv.2 h' ((hfit h').2 hf')⟩ (ih fun i h1 h3 => heq i h1 (by omega))

/-- **Monotonicity**: a hole further left travels as well. -/
theorem Chain.of_le (H : Chain origin reach base j hs) : ∀ e ≤ j, ∃ hs', Chain origin reach base e hs' := by
  induction H with
  | done hj => exact fun e he => ⟨[], .done (by omega)⟩
  | @hop j h hs hj hv hc ih =>
    intro e he
    by_cases heh : e ≤ h
    · exact ih e heh
    by_cases heb : e < base + reach
    · exact ⟨[], .done heb⟩
    -- the victim of `j` fits the hole at `e`, so the leftmost item that fits `e` is not right of it
    obtain ⟨h1, h2, h3⟩ := hv.1
    have hfe : Fits origin reach e h := ⟨by omega, by omega, by omega⟩
    obtain ⟨h₀, hv₀, hle⟩ := exists_victim hfe
    obtain ⟨hs', hc'⟩ := ih h₀ hle
    exact ⟨h₀ :: hs', .hop (by omega) hv₀ hc'⟩

/-- **Origins**: the items of a chain have pairwise different origins, because an item that moved later was left of
the one that moved earlier and would have fitted the earlier hole. -/
theorem Chain.origins (H : Chain origin reach base j hs) (hor : ∀ i ∈ hs, origin i ≤ i) :
    hs.Pairwise (fun a b => origin a ≠ origin b) := by
  induction H with
  | done _ => exact .nil
  | @hop j h hs hj hv hc ih =>
    refine List.pairwise_cons.2 ⟨fun b hb heq => ?_, ih fun i hi => hor i (List.mem_cons_of_mem _ hi)⟩
    have hb' := hc.bounds b hb
    have hob := hor b (List.mem_cons_of_mem _ hb)
    obtain ⟨h1, h2, h3⟩ := hv.1
    have := hv.2 b ⟨by omega, by omega, by omega⟩
    omega

end HopChain

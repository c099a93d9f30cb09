import Mathlib.Data.List.Sort
import Mathlib.Data.Set.Card
import Mathlib.Logic.Function.Basic
import Mathlib.Order.Basic

/-!
# Sets linked in an order

The elements of a set have ranks in a linear order, and `next` leads from each of them to the one of the next rank
(`Linked`). So a search for a rank goes along `next` as long as the ranks are smaller (`Linked.first`), and a new
element comes between two of them by one write (`Linked.insert`). A finite linked set is a list
(`Linked.exists_follows`).
-/

variable {ι β : Type} [LinearOrder β]

/-- `next` leads to the element of the next rank, and from the last one nowhere. -/
structure Linked (rank : ι → β) (S : Set ι) (next : ι → Option ι) : Prop where
  inj : Set.InjOn rank S
  step : ∀ {n n'}, n ∈ S → next n = some n' → n' ∈ S ∧ rank n < rank n'
  between : ∀ {n n' j}, n ∈ S → next n = some n' → j ∈ S → rank n < rank j → rank n' ≤ rank j
  last : ∀ {n j}, n ∈ S → next n = none → j ∈ S → rank j ≤ rank n

/-- `next` leads from `n` through a list to its end. -/
def Follows (next : ι → Option ι) : ι → List ι → Prop
  | n, [] => next n = none
  | n, n' :: ns => next n = some n' ∧ Follows next n' ns

namespace Linked

variable {rank rank' : ι → β} {S : Set ι} {next next' : ι → Option ι} {n n' x j : ι} {k : β}

/-- What `next` and the ranks are outside of the set does not matter. -/
theorem congr (h : Linked rank S next) (hr : ∀ n ∈ S, rank' n = rank n) (hn : ∀ n ∈ S, next' n = next n) :
    Linked rank' S next' where
  inj i hi j hj he := h.inj hi hj (by rwa [hr i hi, hr j hj] at he)
  step hm he := by
    obtain ⟨hm', hlt⟩ := h.step hm (hn _ hm ▸ he)
    exact ⟨hm', by rwa [hr _ hm, hr _ hm']⟩
  between hm he hj hlt := by
    have he := hn _ hm ▸ he
    rw [hr _ hm, hr _ hj] at hlt
    rw [hr _ hj, hr _ (h.step hm he).1]
    exact h.between hm he hj hlt
  last hm he hj := by
    rw [hr _ hj, hr _ hm]
    exact h.last hm (hn _ hm ▸ he) hj

/-- Nothing is between the last element with a smaller rank and the next one. -/
theorem first (h : Linked rank S next) (hn : n ∈ S) (hlt : rank n < k) (he : next n = some n') (hj : j ∈ S)
    (hk : k ≤ rank j) : rank n' ≤ rank j :=
  h.between hn he hj (hlt.trans_le hk)

/-- From the last element with a smaller rank `next` leads nowhere if there is no other one. -/
theorem none_first (h : Linked rank S next) (hn : n ∈ S) (hlt : rank n < k) (he : next n = none) (hj : j ∈ S) :
    rank j < k :=
  (h.last hn he hj).trans_lt hlt

/-- **A new element**: it leads where the one before it has led, which leads to it. -/
theorem insert (h : Linked rank S next) (hn : n ∈ S) (hx : x ∉ S) (hlt : rank n < rank x)
    (hgt : ∀ n', next n = some n' → rank x < rank n') (hnext' : ∀ j ∈ S, j ≠ n → next' j = next j)
    (hn' : next' n = some x) (hx' : next' x = next n) : Linked rank (insert x S) next' := by
  -- no element is between the one before `x` and `x`
  have hgap : ∀ {j}, j ∈ S → rank n < rank j → rank x < rank j := by
    intro j hj hnj
    cases he : next n with
    | none => exact absurd hnj (h.last hn he hj).not_gt
    | some n' => exact (hgt n' he).trans_le (h.between hn he hj hnj)
  have hbefore : ∀ {j}, j ∈ S → j ≠ n → rank j < rank x → rank j < rank n := by
    intro j hj hne hjx
    rcases lt_trichotomy (rank j) (rank n) with hlt | heq | hgt
    · exact hlt
    · exact absurd (h.inj hj hn heq) hne
    · exact absurd hjx (hgap hj hgt).not_gt
  have hxS : ∀ {j}, j ∈ S → rank j ≠ rank x := by
    intro j hj he
    rcases eq_or_ne j n with rfl | hne
    · exact hlt.ne he
    · rcases lt_or_ge (rank n) (rank j) with hnj | hjn
      · exact (hgap hj hnj).ne' he
      · exact (hjn.trans_lt hlt).ne he
  refine ⟨?_, ?_, ?_, ?_⟩
  · rintro i (rfl | hi) j (rfl | hj) he
    · rfl
    · exact absurd he.symm (hxS hj)
    · exact absurd he (hxS hi)
    · exact h.inj hi hj he
  · rintro j j' (rfl | hj) he
    · rw [hx'] at he
      exact ⟨.inr (h.step hn he).1, hgt _ he⟩
    · rcases eq_or_ne j n with rfl | hne
      · cases hn'.symm.trans he
        exact ⟨.inl rfl, hlt⟩
      · rw [hnext' j hj hne] at he
        exact ⟨.inr (h.step hj he).1, (h.step hj he).2⟩
  · rintro j j' i (rfl | hj) he (rfl | hi) hji
    · exact absurd hji (lt_irrefl _)
    · exact h.between hn (hx'.symm.trans he) hi (hlt.trans hji)
    · rcases eq_or_ne j n with rfl | hne
      · cases hn'.symm.trans he
        exact le_rfl
      · exact (h.between hj (hnext' j hj hne ▸ he) hn (hbefore hj hne hji)).trans hlt.le
    · rcases eq_or_ne j n with rfl | hne
      · cases hn'.symm.trans he
        exact (hgap hi hji).le
      · exact h.between hj (hnext' j hj hne ▸ he) hi hji
  · rintro j i (rfl | hj) he (rfl | hi)
    · exact le_rfl
    · exact (h.last hn (hx'.symm.trans he) hi).trans hlt.le
    · rcases eq_or_ne j n with rfl | hne
      · cases hn'.symm.trans he
      · refine not_lt.1 fun hji => ?_
        exact (hbefore hj hne hji).not_ge (h.last hj (hnext' j hj hne ▸ he) hn)
    · rcases eq_or_ne j n with rfl | hne
      · cases hn'.symm.trans he
      · exact h.last hj (hnext' j hj hne ▸ he) hi

/-- A finite linked set is a list: what comes after an element, in the order of the ranks. -/
theorem exists_follows (h : Linked rank S next) (hfin : S.Finite) (hn : n ∈ S) :
    ∃ ns, Follows next n ns ∧ ns.Pairwise (rank · < rank ·) ∧ ∀ j, j ∈ ns ↔ j ∈ S ∧ rank n < rank j := by
  -- by the number of elements after `n`
  induction hc : {j ∈ S | rank n < rank j}.ncard using Nat.strong_induction_on generalizing n with
  | _ c ih =>
    cases he : next n with
    | none =>
      refine ⟨[], he, .nil, fun j => ⟨fun hj => absurd hj List.not_mem_nil, fun ⟨hj, hlt⟩ => ?_⟩⟩
      exact absurd hlt (h.last hn he hj).not_gt
    | some n' =>
      obtain ⟨hn', hlt⟩ := h.step hn he
      have hsub : {j ∈ S | rank n' < rank j} ⊂ {j ∈ S | rank n < rank j} := by
        refine ⟨fun j hj => ⟨hj.1, hlt.trans hj.2⟩, fun hsub => ?_⟩
        exact lt_irrefl _ (hsub ⟨hn', hlt⟩).2
      obtain ⟨ns, hns, hs, hmem⟩ := ih _ (hc ▸ Set.ncard_lt_ncard hsub (hfin.subset (Set.sep_subset _ _))) hn' rfl
      refine ⟨n' :: ns, ⟨he, hns⟩, List.pairwise_cons.2 ⟨fun j hj => ((hmem j).1 hj).2, hs⟩, fun j => ?_⟩
      rw [List.mem_cons, hmem]
      constructor
      · rintro (rfl | ⟨hj, hj'⟩)
        · exact ⟨hn', hlt⟩
        · exact ⟨hj, hlt.trans hj'⟩
      · rintro ⟨hj, hj'⟩
        rcases (h.between hn he hj hj').eq_or_lt with heq | hgt
        · exact .inl (h.inj hn' hj heq).symm
        · exact .inr ⟨hj, hgt⟩

/-- A part of a set in the order of the ranks is a part of its list. -/
theorem sublist_of_subset {ns ns' : List ι} (hs' : ns'.Pairwise (rank · < rank ·)) (hs : ns.Pairwise (rank · < rank ·))
    (hsub : ns' ⊆ ns) : ns'.Sublist ns := by
  have : Std.Antisymm (rank · < rank ·) := ⟨fun _ _ h h' => absurd h h'.asymm⟩
  have : Std.Irrefl (rank · < rank ·) := ⟨fun _ => lt_irrefl _⟩
  exact List.sublist_of_subperm_of_pairwise (List.subperm_of_subset hs'.nodup hsub) hs' hs

end Linked

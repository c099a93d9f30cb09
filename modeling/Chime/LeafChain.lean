import Chime.LeafLookup

/-!
# `leaf_node_search` along a chain of leaves

The whole function, with its `goto re_read` and its calls for the leaf on the right, on a memory without writers
(`searchLeaves`). On a chain of good leaves (`LeafChain`) each round ends the search or goes one leaf to the right; no
round is repeated, and the search ends at the leaf before the neighbor at the latest (`leaf_search_exact`).
-/

namespace Chime

open Records

variable {L : Layout}

/-- What a round of `leaf_node_search` finds on the client: the old content of the leaf buffer, and the slot that the
hotspot cache names. -/
structure LocalRead (L : Layout) where
  buffer : LeafNode L
  speculativeIdx : Option (Fin L.leafSpanSize)

/-- One more round, on the leaf at `nodeAddr`. -/
def addRound (nodeAddr : GlobalAddress) (x : Option (Checked (Nat × List GlobalAddress))) :
    Option (Checked (Nat × List GlobalAddress)) :=
  x.map fun y => y.map fun z => (z.1, nodeAddr :: z.2)

/-- `leaf_node_search` without cache, with the given fuel: the value, and the leaves of its rounds. `leafAt` is the
memory, `client i` what round `i` finds; a round after `re_read` does not read the slot of the hotspot cache again. -/
def searchLeaves (leafAt : GlobalAddress → LeafNode L) (client : Nat → LocalRead L) (siblingAddr : GlobalAddress)
    (k : Nat) :
    Nat → Nat → GlobalAddress → Bool → Option (Checked (Nat × List GlobalAddress))
  | 0, _, _, _ => none
  | fuel + 1, i, nodeAddr, retry =>
    match leafNodeSearch (leafAt nodeAddr) (client i).buffer siblingAddr k false
        (if retry then none else (client i).speculativeIdx) with
    | .error a => some (.error a)
    | .ok .invalid => some (.ok (kValueNull, [nodeAddr]))
    | .ok .reRead => addRound nodeAddr (searchLeaves leafAt client siblingAddr k fuel (i + 1) nodeAddr true)
    | .ok (.turnRight p) => addRound nodeAddr (searchLeaves leafAt client siblingAddr k fuel (i + 1) p false)
    | .ok (.done v) => some (.ok (v, [nodeAddr]))

/-- The leaves at these addresses are linked from left to right, and the last one has no sibling. -/
inductive LeafChain (leafAt : GlobalAddress → LeafNode L) : List GlobalAddress → Prop
  | last (a : GlobalAddress) : (leafAt a).siblingPtr = .null → LeafChain leafAt [a]
  | link (a b : GlobalAddress) (as : List GlobalAddress) : (leafAt a).siblingPtr = b → b ≠ .null →
      LeafChain leafAt (b :: as) → LeafChain leafAt (a :: b :: as)

/-- The leaves of the chain up to the one whose sibling is `siblingAddr`. -/
def leavesUpTo (leafAt : GlobalAddress → LeafNode L) (siblingAddr : GlobalAddress) :
    List GlobalAddress → List GlobalAddress
  | [] => []
  | a :: as => a :: if (leafAt a).siblingPtr = siblingAddr then [] else leavesUpTo leafAt siblingAddr as

namespace LeafChain

variable {leafAt : GlobalAddress → LeafNode L} {a b : GlobalAddress} {as bs : List GlobalAddress}

/-- The first leaf determines the chain. -/
theorem unique (h : LeafChain leafAt (a :: as)) (h' : LeafChain leafAt (a :: bs)) : as = bs := by
  induction as generalizing a bs with
  | nil =>
    cases h with
    | last _ hnull =>
      cases h' with
      | last => rfl
      | link _ c _ hc hne => exact absurd (hc.symm.trans hnull) hne
  | cons c as ih =>
    cases h with
    | link _ _ _ hc hne htail =>
      cases h' with
      | last _ hnull => exact absurd (hc.symm.trans hnull) hne
      | link _ d ds hd _ htail' =>
        obtain rfl : c = d := hc.symm.trans hd
        rw [ih htail htail']

/-- A leaf of the chain begins a chain. -/
theorem suffix (h : LeafChain leafAt as) (hb : b ∈ as) :
    ∃ pre post, as = pre ++ b :: post ∧ LeafChain leafAt (b :: post) := by
  induction h with
  | last a ha =>
    obtain rfl := List.mem_singleton.1 hb
    exact ⟨[], [], rfl, .last _ ha⟩
  | link a c as hc hne htail ih =>
    rcases List.mem_cons.1 hb with rfl | hb
    · exact ⟨[], c :: as, rfl, .link _ _ _ hc hne htail⟩
    · obtain ⟨pre, post, he, hp⟩ := ih hb
      exact ⟨a :: pre, post, by rw [he, List.cons_append], hp⟩

/-- No leaf occurs twice. -/
theorem nodup (h : LeafChain leafAt as) : as.Nodup := by
  induction h with
  | last a ha => exact List.nodup_singleton a
  | link a c as hc hne htail ih =>
    refine List.nodup_cons.2 ⟨fun hmem => ?_, ih⟩
    -- the chain from the second occurrence would be as long as the whole one
    obtain ⟨pre, post, he, hp⟩ := htail.suffix hmem
    have hlen := congrArg List.length he
    rw [unique hp (.link _ _ _ hc hne htail), List.length_append, List.length_cons] at hlen
    simp only [List.length_cons] at hlen
    omega

end LeafChain

/-- How a search for `k` over the leaves `as` ends: with the value that the first leaf with `k` holds, or without
one. -/
inductive ChainResult (leafAt : GlobalAddress → LeafNode L) (k : Nat) (as : List GlobalAddress) :
    Nat × List GlobalAddress → Prop
  | found (pre post : List GlobalAddress) (b : GlobalAddress) (v : Nat) : as = pre ++ b :: post →
      (∀ c ∈ pre, ¬(leafAt c).records.HasKey k) → (leafAt b).records.Stored k v →
        ChainResult leafAt k as (v, pre ++ [b])
  | absent : (∀ c ∈ as, ¬(leafAt c).records.HasKey k) → ChainResult leafAt k as (kValueNull, as)

/-- A round on a good leaf finds the key, or ends the search at the leaf before the neighbor, or goes to the right. -/
theorem searchLeaves_round {leafAt : GlobalAddress → LeafNode L} {a : GlobalAddress} (hgood : Good (leafAt a).records)
    (siblingAddr : GlobalAddress) {k : Nat} (hk : k ≠ kkeyNull) (client : Nat → LocalRead L) (fuel i : Nat) :
    (∃ v, (leafAt a).records.Stored k v ∧
      searchLeaves leafAt client siblingAddr k (fuel + 1) i a false = some (.ok (v, [a]))) ∨
    (¬(leafAt a).records.HasKey k ∧
      if (leafAt a).siblingPtr = siblingAddr then
        searchLeaves leafAt client siblingAddr k (fuel + 1) i a false = some (.ok (kValueNull, [a]))
      else if (leafAt a).siblingPtr = .null then
        searchLeaves leafAt client siblingAddr k (fuel + 1) i a false = some (.error .siblingNull)
      else searchLeaves leafAt client siblingAddr k (fuel + 1) i a false =
        addRound a (searchLeaves leafAt client siblingAddr k fuel (i + 1) (leafAt a).siblingPtr false)) := by
  have hround := leafNodeSearch_spec ((good_iff _).1 hgood).1 (client i).buffer siblingAddr hk false (by simp)
    (if false = true then none else (client i).speculativeIdx)
  rw [searchLeaves]
  generalize leafNodeSearch (leafAt a) (client i).buffer siblingAddr k false
    (if false = true then none else (client i).speculativeIdx) = x at hround ⊢
  cases hround with
  | found s hs => exact .inl ⟨_, ⟨hk, s, by rw [← hs]; rfl⟩, rfl⟩
  | invalid hc => cases hc
  | turnRight hno hne hnull => exact .inr ⟨hno, by rw [if_neg (Ne.symm hne), if_neg hnull]⟩
  | siblingNull hno hne hnull => exact .inr ⟨hno, by rw [if_neg (Ne.symm hne), if_pos hnull]⟩
  | absent hno he => exact .inr ⟨hno, by rw [if_pos he.symm]⟩

/-- The search along the chain, by induction on the chain. -/
theorem searchLeaves_spec {leafAt : GlobalAddress → LeafNode L} {siblingAddr : GlobalAddress} {k : Nat}
    (hk : k ≠ kkeyNull) (client : Nat → LocalRead L)
    {as : List GlobalAddress} : ∀ {a : GlobalAddress} {fuel : Nat} (i : Nat),
    LeafChain leafAt (a :: as) → (∀ b ∈ a :: as, Good (leafAt b).records) →
    (∃ b ∈ a :: as, (leafAt b).siblingPtr = siblingAddr) → (a :: as).length ≤ fuel →
    ∃ y, searchLeaves leafAt client siblingAddr k fuel i a false = some (.ok y) ∧
      ChainResult leafAt k (leavesUpTo leafAt siblingAddr (a :: as)) y := by
  induction as with
  | nil =>
    intro a fuel i hchain hgood hsib hfuel
    obtain ⟨f, rfl⟩ : ∃ f, fuel = f + 1 := ⟨fuel - 1, by simp only [List.length_cons] at hfuel; omega⟩
    obtain ⟨b, hb, hbs⟩ := hsib
    obtain rfl := List.mem_singleton.1 hb
    rcases searchLeaves_round (hgood b List.mem_cons_self) siblingAddr hk client f i with ⟨v, hv, he⟩ | ⟨hno, he⟩
    · exact ⟨_, he, .found [] _ b v rfl (by simp) hv⟩
    · rw [if_pos hbs] at he
      refine ⟨_, he, ?_⟩
      rw [leavesUpTo, if_pos hbs]
      exact .absent (by simpa using hno)
  | cons c as ih =>
    intro a fuel i hchain hgood hsib hfuel
    obtain ⟨f, rfl⟩ : ∃ f, fuel = f + 1 := ⟨fuel - 1, by simp only [List.length_cons] at hfuel; omega⟩
    cases hchain with
    | link _ _ _ hac hne htail =>
      rcases searchLeaves_round (hgood a List.mem_cons_self) siblingAddr hk client f i with ⟨v, hv, he⟩ | ⟨hno, he⟩
      · exact ⟨_, he, .found [] _ a v rfl (by simp) hv⟩
      by_cases hstop : (leafAt a).siblingPtr = siblingAddr
      · rw [if_pos hstop] at he
        refine ⟨_, he, ?_⟩
        rw [leavesUpTo, if_pos hstop]
        exact .absent (by simpa using hno)
      · rw [if_neg hstop, hac, if_neg hne] at he
        have hsib' : ∃ b ∈ c :: as, (leafAt b).siblingPtr = siblingAddr := by
          obtain ⟨b, hb, hbs⟩ := hsib
          rcases List.mem_cons.1 hb with rfl | hb
          · exact absurd hbs hstop
          · exact ⟨b, hb, hbs⟩
        have hfuel' : (c :: as).length ≤ f := by
          rw [List.length_cons] at hfuel
          omega
        obtain ⟨y, hy, hres⟩ := ih (i + 1) htail (fun b hb => hgood b (List.mem_cons_of_mem _ hb)) hsib' hfuel'
        rw [hy] at he
        refine ⟨(y.1, a :: y.2), he, ?_⟩
        rw [leavesUpTo, if_neg hstop]
        cases hres with
        | found pre post b v hcut hpre hv =>
          rw [hcut]
          refine .found (a :: pre) post b v rfl ?_ hv
          intro d hd
          rcases List.mem_cons.1 hd with rfl | hd
          · exact hno
          · exact hpre d hd
        | absent hall =>
          refine .absent fun d hd => ?_
          rcases List.mem_cons.1 hd with rfl | hd
          · exact hno
          · exact hall d hd

theorem leavesUpTo_sublist (leafAt : GlobalAddress → LeafNode L) (siblingAddr : GlobalAddress)
    (as : List GlobalAddress) :
    (leavesUpTo leafAt siblingAddr as).Sublist as := by
  induction as with
  | nil => exact List.Sublist.slnil
  | cons a as ih =>
    rw [leavesUpTo]
    split
    · exact (List.nil_sublist as).cons_cons a
    · exact ih.cons_cons a

/-- **Quiescent leaf search is exact and does not spin.** On a chain of good leaves, with a neighbor that is the sibling
of one of them, a search returns the value of the first leaf that holds the key, among those up to the one before the
neighbor, or no value if there is none; it ends within as many rounds as there are leaves, none of them repeated. -/
theorem leaf_search_exact {leafAt : GlobalAddress → LeafNode L} {a : GlobalAddress} {as : List GlobalAddress}
    (hchain : LeafChain leafAt (a :: as)) (hgood : ∀ b ∈ a :: as, Good (leafAt b).records) {siblingAddr : GlobalAddress}
    (hsib : ∃ b ∈ a :: as, (leafAt b).siblingPtr = siblingAddr) {k : Nat} (hk : k ≠ kkeyNull)
    (client : Nat → LocalRead L) {fuel : Nat} (hfuel : (a :: as).length ≤ fuel) :
    ∃ y, searchLeaves leafAt client siblingAddr k fuel 0 a false = some (.ok y) ∧ y.2.Nodup ∧
      ChainResult leafAt k (leavesUpTo leafAt siblingAddr (a :: as)) y := by
  obtain ⟨y, hy, hres⟩ := searchLeaves_spec hk client 0 hchain hgood hsib hfuel
  have hupTo := hchain.nodup.sublist (leavesUpTo_sublist leafAt siblingAddr (a :: as))
  refine ⟨y, hy, ?_, hres⟩
  cases hres with
  | found pre post b v hcut =>
    rw [hcut] at hupTo
    exact hupTo.sublist (by simp)
  | absent => exact hupTo

/-- Two leaves of the small build. -/
def twoLeaves : GlobalAddress → LeafNode .small
  | .at 1 => ⟨⟨true, .at 2⟩, Records.sample⟩
  | _ => ⟨⟨true, .null⟩, ![⟨0, 0, 0⟩, ⟨2, 9, 90⟩, ⟨0, 0, 0⟩, ⟨0, 0, 0⟩]⟩

/-- The key 9 is in the second leaf. -/
theorem leaf_search_exact_two :
    ∃ y, searchLeaves twoLeaves (fun _ => ⟨LeafNode.zeroed, some 0⟩) .null 9 2 0 (.at 1) false =
    some (.ok y) ∧ y.2.Nodup ∧ ChainResult twoLeaves 9 (leavesUpTo twoLeaves .null [.at 1, .at 2]) y :=
  have hgood : ∀ b ∈ [GlobalAddress.at 1, .at 2], Good (twoLeaves b).records := by
    intro b hb
    rcases List.mem_cons.1 hb with rfl | hb
    · exact good_sample
    · obtain rfl := List.mem_singleton.1 hb
      exact ⟨by decide +kernel, by decide +kernel, by decide +kernel⟩
  leaf_search_exact (.link _ _ _ rfl (by decide) (.last _ rfl)) hgood ⟨.at 2, by decide, rfl⟩ (by decide) _ (by decide)

end Chime

import Chime.LeafWrites

/-!
# The hopscotch representation invariant of a leaf

`Good` leaves stay good: under the hop insertion (`good_insert`), under `hopscotch_insert_locally`
(`good_insertLocally`) and under a split (`good_split`). The hop loop moves records one hole further along a path
without repetitions and stays between the home of the key and the first empty slot (`hopLoop_moves`).
-/

namespace Chime

open Cyclic (slot gap)
open HopChain (Chain)
open Records

variable {L : Layout} {r r' : Records L} {k : Nat}

/-- A good leaf that holds the pairs of `r` and the pair `(k, v)`. -/
def GoodWith (r : Records L) (k v : Nat) (r' : Records L) : Prop :=
  Good r' ∧ ∀ k' v', r'.Stored k' v' ↔ r.Stored k' v' ∨ (k' = k ∧ v' = v)

theorem good_of_placed {r : Records L} (hp : r.IsPlaced) (hd : r.Distinct) : Good r := (good_iff r).2 ⟨hp, hd⟩

theorem Records.InsertedAt.goodWith {v n : Nat} {e : Int} {hs : List Int} (h : InsertedAt r k v n e hs r')
    (hd : r.Distinct) (hk : k ≠ 0) (hnew : ¬r.HasKey k) : GoodWith r k v r' :=
  ⟨good_of_placed h.inserted.placed (h.adds.distinct hd hnew), fun _ _ => h.adds.stored hk⟩

/-- What the hop loop does from the first empty slot `e`: it gets stuck, or the records of `path` move one place back
along it, and only slots after `home` up to `e` change. -/
def HopLoopMoves (r : Records L) (home : Fin L.leafSpanSize) (e : Int) : Prop :=
  r.hopLoop home.val e [] = .ok none ∨
  ∃ r₁ j path, r.hopLoop home.val e [] = .ok (some (r₁, j, path)) ∧ path.Nodup ∧
    (∀ i (hi : i + 1 < path.length), r₁.items path[i] = r.items path[i + 1]) ∧ (∀ s ∉ path, r₁.items s = r.items s) ∧
    ∀ s, r₁ s ≠ r s → ∃ i, (home.val : Int) < i ∧ i ≤ e ∧ s = slot L.leafSpanSize i

theorem hopLoop_moves (hp : r.IsPlaced) {home : Fin L.leafSpanSize} {n : Nat} {e : Int}
    (he : r.firstEmpty home.val n = some e) : HopLoopMoves r home e := by
  obtain ⟨h1, -, h3, -⟩ := firstEmpty_some he
  have hlt := home.isLt
  have hp' : Placed L (vacate r.keys e) r.hops := by rw [vacate_eq h3]; exact hp
  rcases hopLoop_spec r [] (Int.natCast_nonneg home.val) (Int.ofNat_lt.2 hlt) (firstEmpty_lt he) hp' with
    ⟨hs, r₁, hc, ho, hl⟩ | ⟨-, hl⟩
  swap
  · exact .inl hl
  have hnd := nodup_path hc h1 (firstEmpty_lt he)
  refine .inr ⟨r₁, _, _, hl, hnd, fun i hi => ?_, fun s hs' => ?_, fun s hne => ?_⟩
  · have hi' : i < (hs.map (slot L.leafSpanSize)).length := by simpa using hi
    have := Shift.shift_getElem (f := r.items) hnd hi' (Nat.lt_of_succ_lt hi)
    rw [← ho.items] at this
    exact this
  · rw [ho.items]
    exact Shift.shift_off hs'
  · by_contra hout
    refine hne ?_
    have hpath : ∀ i ∈ e :: hs, s = slot _ i → i = home.val := by
      intro i hi hsi
      by_contra hih
      refine hout ⟨i, ?_, ?_, hsi⟩
      · rcases List.mem_cons.1 hi with rfl | hi
        · omega
        · exact (hc.bounds i hi).1
      · rcases List.mem_cons.1 hi with rfl | hi
        · exact le_rfl
        · exact Int.le_of_lt (hc.bounds i hi).2
    have hitems : r₁.items s = r.items s := by
      rw [ho.items]
      by_cases hmem : s ∈ slot L.leafSpanSize e :: hs.map (slot _)
      · -- only a path without hops can meet the home
        cases hs with
        | nil => rfl
        | cons h hs =>
          rw [← List.map_cons] at hmem
          obtain ⟨i, hi, hsi⟩ := List.mem_map.1 hmem
          have hih := hpath i hi hsi.symm
          rcases List.mem_cons.1 hi with rfl | hi
          · have := hc.bounds h List.mem_cons_self
            omega
          · have := hc.bounds i hi
            omega
      · exact Shift.shift_off hmem
    have hhops : r₁.hops s = r.hops s := by
      by_contra hh
      obtain ⟨i, h5, h6, h7⟩ := ho.hops s hh
      exact hout ⟨i, h5, Int.le_of_lt h6, h7⟩
    exact ext_entry hitems hhops

/-- `hopscotch_insert_and_unlock` never fails an assertion, and gives a good leaf when it succeeds. -/
theorem good_insert (hr : Good r) (v : Nat) (hk : k ≠ 0) (hnew : ¬r.HasKey k) (n : Nat) :
    hopscotchInsertAndUnlock r k v n = .ok none ∨
    ∃ r' last hopped, hopscotchInsertAndUnlock r k v n = .ok (some (r', last, hopped)) ∧ GoodWith r k v r' := by
  obtain ⟨hp, hd⟩ := (good_iff r).1 hr
  rcases insertion_spec hp v hk n with ⟨e, hs, r', h, he⟩ | ⟨-, he⟩
  · exact .inr ⟨r', _, _, he, h.goodWith hd hk hnew⟩
  · exact .inl he

/-- `hopscotch_insert_locally` gives a good leaf, or stops at one of its own two assertions, when the hop insertion
into the whole leaf fails. -/
theorem good_insertLocally (hr : Good r) (v : Nat) (hk : k ≠ 0) (hnew : ¬r.HasKey k) :
    (∃ r' t, hopscotchInsertLocally r k v = .ok (r', t) ∧ GoodWith r k v r') ∨
    (hopscotchInsertAndUnlock r k v L.leafSpanSize = .ok none ∧
      (hopscotchInsertLocally r k v = .error .noEmpty ∨ hopscotchInsertLocally r k v = .error .hopFails)) := by
  obtain ⟨hp, hd⟩ := (good_iff r).1 hr
  rcases insertLocally_spec hp v hk with ⟨e, hs, r', h, he⟩ | ⟨hst, he⟩
  · exact .inl ⟨r', _, he, h.goodWith hd hk hnew⟩
  · refine .inr ⟨?_, he⟩
    rcases insertion_spec hp v hk L.leafSpanSize with ⟨e, hs, r', h, -⟩ | ⟨-, he'⟩
    · exact absurd h.chain (hst e h.firstEmpty hs)
    · exact he'

/-- Both halves of the moved data are good. -/
theorem good_moveData (hr : Good r) (splitKey : Nat) :
    ∃ l s, moveData splitKey r LeafNode.empty.records = .ok (l, s) ∧ Good l ∧ Good s ∧
      ∀ k' v', (l.Stored k' v' ↔ r.Stored k' v' ∧ k' < splitKey) ∧
        (s.Stored k' v' ↔ r.Stored k' v' ∧ splitKey ≤ k') := by
  obtain ⟨hp, hd⟩ := (good_iff r).1 hr
  obtain ⟨l, s, h, hh⟩ := moveData_spec hp splitKey
  exact ⟨l, s, h, good_of_placed hh.left_placed (hd.of_keys hh.keys_left),
    good_of_placed hh.right_placed (hd.of_keys hh.keys_right), fun _ _ => ⟨hh.stored_left, hh.stored_right⟩⟩

/-- Two good leaves that hold the pairs of `r` and the pair `(k, v)` between them. -/
def GoodSplit (r : Records L) (k v : Nat) (l s : Records L) : Prop :=
  Good l ∧ Good s ∧ ∀ k' v', (l.Stored k' v' ∨ s.Stored k' v') ↔ r.Stored k' v' ∨ (k' = k ∧ v' = v)

theorem goodSplit_left {l s l' : Records L} {m v : Nat} (h : Halves r m l s) (hd : r.Distinct)
    (hg : GoodWith l k v l') : GoodSplit r k v l' s := by
  refine ⟨hg.1, good_of_placed h.right_placed (hd.of_keys h.keys_right), fun k' v' => ?_⟩
  rw [hg.2, h.stored_left, h.stored_right]
  have := Nat.lt_or_ge k' m
  tauto

theorem goodSplit_right {l s s' : Records L} {m v : Nat} (h : Halves r m l s) (hd : r.Distinct)
    (hg : GoodWith s k v s') : GoodSplit r k v l s' := by
  refine ⟨good_of_placed h.left_placed (hd.of_keys h.keys_left), hg.1, fun k' v' => ?_⟩
  rw [hg.2, h.stored_left, h.stored_right]
  have := Nat.lt_or_ge k' m
  tauto

/-- `update_vacancy_bitmap` passes its assertions. -/
theorem updateVacancyBitmap_ok (rs : Records L) (lock : Valock L) : ∃ w, updateVacancyBitmap rs lock = .ok w := by
  obtain ⟨w, hw, -⟩ := lock.updateVacancy_spec 0 (L.leafSpanSize - 1)
    (getEmptyIdxes rs 0 L.leafSpanSize) fun x _ => covered_all (Valock.bucketOf_lt x)
  exact ⟨w, hw⟩

/-- `hopscotch_split_and_unlock` gives two good leaves, or stops at an assertion about the split key or about the room
in a half. -/
theorem good_split (hr : Good r) (v : Nat) (hk : k ≠ 0) (hnew : ¬r.HasKey k) (metadata : LeafMetadata)
    (lock : Valock L) (siblingAddr : GlobalAddress) :
    (∃ x, hopscotchSplitAndUnlock ⟨metadata, r⟩ k v lock siblingAddr = .ok x ∧
      GoodSplit r k v x.left.records x.right.records) ∨
    ∃ a, hopscotchSplitAndUnlock ⟨metadata, r⟩ k v lock siblingAddr = .error a ∧
      (a = .noCritical ∨ a = .noEmpty ∨ a = .hopFails) := by
  obtain ⟨hp, hd⟩ := (good_iff r).1 hr
  simp only [hopscotchSplitAndUnlock]
  cases hm : hopscotchGetSplitKey r k with
  | error a =>
    refine .inr ⟨a, rfl, .inl ?_⟩
    simp only [hopscotchGetSplitKey, Checked.bind_eq_error] at hm
    rcases hm with hm | ⟨_, _, hm⟩
    · unfold Checked.assert at hm
      split at hm
      · cases hm
      · exact (Except.error.inj hm).symm
    · cases hm
  | ok m =>
    obtain ⟨l, s, hmove, hh⟩ := moveData_spec hp m
    simp only [hmove, Checked.ok_bind, Checked.pure_eq_ok]
    by_cases hkm : k < m
    · have hnew' : ¬l.HasKey k := fun h => hnew (hh.hasKey_left.1 h).1
      simp only [if_pos hkm]
      rcases insertLocally_spec hh.left_placed v hk with ⟨e, hs, l', h, he⟩ | ⟨-, he⟩
      · obtain ⟨wl, hwl⟩ := updateVacancyBitmap_ok l' (lock.updateMaxKeyIdx l'.getMaxKeyIdx.val)
        obtain ⟨wr, hwr⟩ := updateVacancyBitmap_ok s (Valock.mk' 0 s.getMaxKeyIdx.val)
        simp only [he, Checked.ok_bind, hwl, hwr]
        exact .inl ⟨_, rfl, goodSplit_left hh hd (h.goodWith (hd.of_keys hh.keys_left) hk hnew')⟩
      · rcases he with he | he <;> rw [he]
        · exact .inr ⟨_, rfl, .inr (.inl rfl)⟩
        · exact .inr ⟨_, rfl, .inr (.inr rfl)⟩
    · have hnew' : ¬s.HasKey k := fun h => hnew (hh.hasKey_right.1 h).1
      simp only [if_neg hkm]
      rcases insertLocally_spec hh.right_placed v hk with ⟨e, hs, s', h, he⟩ | ⟨-, he⟩
      · obtain ⟨wl, hwl⟩ := updateVacancyBitmap_ok l (lock.updateMaxKeyIdx l.getMaxKeyIdx.val)
        obtain ⟨wr, hwr⟩ := updateVacancyBitmap_ok s' (Valock.mk' 0 s'.getMaxKeyIdx.val)
        simp only [he, Checked.ok_bind, hwl, hwr]
        exact .inl ⟨_, rfl, goodSplit_right hh hd (h.goodWith (hd.of_keys hh.keys_right) hk hnew')⟩
      · rcases he with he | he <;> rw [he]
        · exact .inr ⟨_, rfl, .inr (.inl rfl)⟩
        · exact .inr ⟨_, rfl, .inr (.inr rfl)⟩

/-- A split of a good leaf that the key does not fit passes every assertion. -/
theorem good_split_of_stuck (hr : Good r) (v : Nat) (hk : k ≠ 0) (hnew : ¬r.HasKey k)
    (hins : hopscotchInsertAndUnlock r k v L.leafSpanSize = .ok none) (metadata : LeafMetadata) (lock : Valock L)
    (siblingAddr : GlobalAddress) : ∃ x, hopscotchSplitAndUnlock ⟨metadata, r⟩ k v lock siblingAddr = .ok x := by
  obtain ⟨hp, hd⟩ := (good_iff r).1 hr
  have hst : Stuck r k L.leafSpanSize := by
    rcases insertion_spec hp v hk L.leafSpanSize with ⟨e, hs, r', -, he⟩ | ⟨hst, -⟩
    · exact absurd (Except.ok.inj (hins.symm.trans he)) (by simp)
    · exact hst
  rcases splitAndUnlock_spec ⟨metadata, r⟩ hp v hk hst lock siblingAddr with ⟨x, hx, -⟩ | ⟨hno, -⟩
  · exact ⟨x, hx⟩
  · exact absurd hno (by rw [not_or, not_not]; exact ⟨hd, hnew⟩)

/-- **The representation invariant**: on a good leaf and a new key, the hop insertion, the local insertion and the split
keep leaves good and add the pair, without a failing assertion on a hop bit; the hop loop ends, moves each record at
most once, and stays in the interval after the home up to the first empty slot. -/
theorem hopscotch_keeps_good (r : Records L) (hr : Good r) (k v : Nat) (hk : k ≠ kkeyNull) (hnew : ∀ s, (r s).key ≠ k) :
    (∀ n e, r.firstEmpty (L.getHashedLeafEntryIndex k).val n = some e →
      HopLoopMoves r (L.getHashedLeafEntryIndex k) e) ∧
    (∀ n, hopscotchInsertAndUnlock r k v n = .ok none ∨
      ∃ r' last hopped, hopscotchInsertAndUnlock r k v n = .ok (some (r', last, hopped)) ∧ GoodWith r k v r') ∧
    ((∃ r' t, hopscotchInsertLocally r k v = .ok (r', t) ∧ GoodWith r k v r') ∨
      hopscotchInsertAndUnlock r k v L.leafSpanSize = .ok none ∧
        (hopscotchInsertLocally r k v = .error .noEmpty ∨ hopscotchInsertLocally r k v = .error .hopFails)) ∧
    (∀ splitKey, ∃ l s, moveData splitKey r LeafNode.empty.records = .ok (l, s) ∧ Good l ∧ Good s ∧
      ∀ k' v', (l.Stored k' v' ↔ r.Stored k' v' ∧ k' < splitKey) ∧ (s.Stored k' v' ↔ r.Stored k' v' ∧ splitKey ≤ k')) ∧
    ∀ metadata lock siblingAddr,
      ((∃ x, hopscotchSplitAndUnlock ⟨metadata, r⟩ k v lock siblingAddr = .ok x ∧
          GoodSplit r k v x.left.records x.right.records) ∨
        ∃ a, hopscotchSplitAndUnlock ⟨metadata, r⟩ k v lock siblingAddr = .error a ∧
          (a = .noCritical ∨ a = .noEmpty ∨ a = .hopFails)) ∧
      (hopscotchInsertAndUnlock r k v L.leafSpanSize = .ok none →
        ∃ x, hopscotchSplitAndUnlock ⟨metadata, r⟩ k v lock siblingAddr = .ok x) := by
  obtain ⟨hp, -⟩ := (good_iff r).1 hr
  have hnk : ¬r.HasKey k := fun ⟨_, s, hs⟩ => hnew s hs
  exact ⟨fun n e he => hopLoop_moves hp he, good_insert hr v hk hnk, good_insertLocally hr v hk hnk, good_moveData hr,
    fun metadata lock siblingAddr => ⟨good_split hr v hk hnk metadata lock siblingAddr,
      fun hins => good_split_of_stuck hr v hk hnk hins metadata lock siblingAddr⟩⟩

/-- In the sample table the key 2 hops out of the neighborhood of the key 1. -/
theorem hopscotch_keeps_good_sample : ∃ r' last hopped,
    hopscotchInsertAndUnlock sample 1 10 4 = .ok (some (r', last, hopped)) ∧ GoodWith sample 1 10 r' :=
  ((hopscotch_keeps_good sample good_sample 1 10 (by decide) (by decide)).2.1 4).resolve_left (by decide +kernel)

end Chime

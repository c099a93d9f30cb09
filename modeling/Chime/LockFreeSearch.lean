import Chime.LeafWrites

/-!
# The lock-free scan during a hop insertion

A search reads the neighborhood of its key without a lock, while an insertion may be writing its segment. The scan
finds a key that it sees (`scan_of_seen`); otherwise it compares the bitmap of the keys it saw with the stored one
(`scan_of_not_seen`). The items that one insertion moves have pairwise different homes, and none has the home of the
new key (`chain_homes`); so a view that has lost a key has a bitmap that fits neither version.
-/

namespace Chime

open Cyclic (slot gap)
open HopChain (Chain)
open Records

variable {L : Layout}

/-! ## The scan -/

/-- The bits that the scan computes. -/
theorem scanLoop_spec (r : Records L) (s : Fin L.leafSpanSize) {k : Nat} (hk : k ≠ 0)
    (hs : L.getHashedLeafEntryIndex k = s) : ∀ (is : List Nat) (bm : BitVec L.neighborSize),
    (∀ i ∈ is, i < L.neighborSize) →
      (∃ i ∈ is, r.keys (slot _ (s.val + i : Nat)) = k ∧
        scanLoop r s k is bm = .inl (r (slot _ (s.val + i : Nat))).value) ∨
      ((∀ i ∈ is, r.keys (slot _ (s.val + i : Nat)) ≠ k) ∧ ∃ bm', scanLoop r s k is bm = .inr bm' ∧
        ∀ j < L.neighborSize, hopBitOf bm' j = (hopBitOf bm j || decide (j ∈ is ∧
          r.keys (slot _ (s.val + j : Nat)) ≠ 0 ∧ L.getHashedLeafEntryIndex (r.keys (slot _ (s.val + j : Nat))) = s)))
  | [], bm, _ => .inr ⟨by simp, bm, rfl, by simp⟩
  | i :: is, bm, hlt => by
    have hi := hlt i List.mem_cons_self
    have hlt' : ∀ j ∈ is, j < L.neighborSize := fun j hj => hlt j (List.mem_cons_of_mem _ hj)
    by_cases hik : r.keys (slot _ (s.val + i : Nat)) = k
    · refine .inl ⟨i, List.mem_cons_self, hik, ?_⟩
      have hcond : (r (slot L.leafSpanSize (s.val + i : Nat))).key ≠ kkeyNull ∧
          L.getHashedLeafEntryIndex (r (slot L.leafSpanSize (s.val + i : Nat))).key = s :=
        ⟨fun h => hk (hik.symm.trans h), (congrArg _ hik).trans hs⟩
      exact (if_pos hcond).trans (if_pos hik)
    by_cases hcond : r.keys (slot _ (s.val + i : Nat)) ≠ 0 ∧
        L.getHashedLeafEntryIndex (r.keys (slot _ (s.val + i : Nat))) = s
    · have hloop : scanLoop r s k (i :: is) bm = scanLoop r s k is (withHop bm i) := (if_pos hcond).trans (if_neg hik)
      rw [hloop]
      rcases scanLoop_spec r s hk hs is (withHop bm i) hlt' with ⟨j, hj, h1, h2⟩ | ⟨h1, bm', h2, h3⟩
      · exact .inl ⟨j, List.mem_cons_of_mem _ hj, h1, h2⟩
      · refine .inr ⟨fun j hj => ?_, bm', h2, fun j hj => ?_⟩
        · rcases List.mem_cons.1 hj with rfl | hj
          · exact hik
          · exact h1 j hj
        · rw [h3 j hj, hopBitOf_withHop _ hi hj, Bool.or_assoc, ← Bool.decide_or]
          congr 1
          refine decide_eq_decide.2 ?_
          rw [List.mem_cons, or_and_right]
          refine or_congr_left ⟨fun h => ⟨h, h ▸ hcond⟩, fun h => h.1⟩
    · have hloop : scanLoop r s k (i :: is) bm = scanLoop r s k is bm := if_neg hcond
      rw [hloop]
      rcases scanLoop_spec r s hk hs is bm hlt' with ⟨j, hj, h1, h2⟩ | ⟨h1, bm', h2, h3⟩
      · exact .inl ⟨j, List.mem_cons_of_mem _ hj, h1, h2⟩
      · refine .inr ⟨fun j hj => ?_, bm', h2, fun j hj => ?_⟩
        · rcases List.mem_cons.1 hj with rfl | hj
          · exact hik
          · exact h1 j hj
        · rw [h3 j hj]
          congr 1
          refine decide_eq_decide.2 ?_
          rw [List.mem_cons, or_and_right]
          exact ⟨.inr, fun h => h.resolve_left fun h' => hcond (h'.1 ▸ h'.2)⟩

theorem slot_add_gap' (s t : Fin L.leafSpanSize) : slot L.leafSpanSize ((s.val + gap s t : Nat) : Int) = t := by
  push_cast
  exact Cyclic.slot_add_gap s t

/-- A key that the scan sees is found. -/
theorem scan_of_seen {r : Records L} {k : Nat} (hk : k ≠ 0) {t : Fin L.leafSpanSize} (ht : r.keys t = k)
    (hd : gap (L.getHashedLeafEntryIndex k) t < L.neighborSize) :
    ∃ u, r.keys u = k ∧ scan r k = .found (r u).value := by
  rcases scanLoop_spec r _ hk rfl (List.range L.neighborSize) 0 (fun i hi => List.mem_range.1 hi) with
    ⟨i, -, h1, h2⟩ | ⟨h1, -⟩
  · exact ⟨_, h1, by rw [scan, h2]⟩
  · exact absurd (by rw [slot_add_gap']; exact ht) (h1 _ (List.mem_range.2 hd))

/-- Without the key, the scan compares bitmaps. -/
theorem scan_of_not_seen {r : Records L} {k : Nat} (hk : k ≠ 0)
    (hno : ∀ t, gap (L.getHashedLeafEntryIndex k) t < L.neighborSize → r.keys t ≠ k) :
    scan r k = .absent ∧ (∀ t, gap (L.getHashedLeafEntryIndex k) t < L.neighborSize →
      (hopBitOf (r (L.getHashedLeafEntryIndex k)).hopBitmap (gap (L.getHashedLeafEntryIndex k) t) = true ↔
        r.keys t ≠ 0 ∧ L.getHashedLeafEntryIndex (r.keys t) = L.getHashedLeafEntryIndex k)) ∨
    scan r k = .retry := by
  rcases scanLoop_spec r _ hk rfl (List.range L.neighborSize) 0 (fun i hi => List.mem_range.1 hi) with
    ⟨i, hi, h1, -⟩ | ⟨-, bm, h2, h3⟩
  · exact absurd h1 (hno _ (by rw [gap_slot_add _ (List.mem_range.1 hi)]; exact List.mem_range.1 hi))
  · simp only [scan, h2]
    by_cases hb : bm = (r (L.getHashedLeafEntryIndex k)).hopBitmap
    · refine .inl ⟨by simp [hb], fun t ht => ?_⟩
      rw [← hb, h3 _ ht, slot_add_gap']
      simp [hopBitOf, ht]
    · exact .inr (by simp [hb])

/-- Without the key, the scan concludes that it is absent where the stored bitmap is that of the keys. -/
theorem scan_absent {r : Records L} {k : Nat} (hk : k ≠ 0)
    (hno : ∀ t, gap (L.getHashedLeafEntryIndex k) t < L.neighborSize → r.keys t ≠ k)
    (hbits : ∀ t, gap (L.getHashedLeafEntryIndex k) t < L.neighborSize →
      (hopBitOf (r (L.getHashedLeafEntryIndex k)).hopBitmap (gap (L.getHashedLeafEntryIndex k) t) = true ↔
        r.keys t ≠ 0 ∧ L.getHashedLeafEntryIndex (r.keys t) = L.getHashedLeafEntryIndex k)) : scan r k = .absent := by
  rcases scanLoop_spec r _ hk rfl (List.range L.neighborSize) 0 (fun i hi => List.mem_range.1 hi) with
    ⟨i, hi, h1, -⟩ | ⟨-, bm, h2, h3⟩
  · exact absurd h1 (hno _ (by rw [gap_slot_add _ (List.mem_range.1 hi)]; exact List.mem_range.1 hi))
  · have hb : bm = (r (L.getHashedLeafEntryIndex k)).hopBitmap := by
      refine hopBitOf_ext fun j hj => ?_
      have hg := gap_slot_add (L.getHashedLeafEntryIndex k) hj
      have hbit := hbits (slot _ ((L.getHashedLeafEntryIndex k).val + j : Nat)) (hg.symm ▸ hj)
      rw [hg] at hbit
      rw [h3 j hj, Bool.eq_iff_iff, hbit]
      simp [hopBitOf, hj]
    simp only [scan, h2, hb, ne_eq, not_true, if_false]

/-! ## The items that an insertion moves -/

/-- The items of a chain come from homes after the start of the window. -/
theorem base_lt_origin {keys : Fin L.leafSpanSize → Nat} {base j : Int} {hs : List Int}
    (hc : Chain (origin keys) L.neighborSize base j hs) : ∀ h ∈ hs, base < origin keys h := by
  induction hc with
  | done _ => simp
  | hop hj hv _ ih =>
    intro x hx
    rcases List.mem_cons.1 hx with rfl | hx
    · have := hv.1.2.2
      omega
    · exact ih x hx

/-- A chain visits each home at most once, and not the home of the new key. -/
theorem chain_homes {keys : Fin L.leafSpanSize → Nat} {home : Fin L.leafSpanSize} {j : Int} {hs : List Int}
    (hc : Chain (origin keys) L.neighborSize home.val j hs) (hj : j < home.val + L.leafSpanSize) :
    (∀ a ∈ hs, L.getHashedLeafEntryIndex (keys (slot _ a)) ≠ home) ∧
    ∀ a ∈ hs, ∀ b ∈ hs, L.getHashedLeafEntryIndex (keys (slot _ a)) = L.getHashedLeafEntryIndex (keys (slot _ b)) →
      a = b := by
  have hbound : ∀ a ∈ hs, (home.val : Int) < origin keys a ∧ origin keys a < home.val + L.leafSpanSize := by
    intro a ha
    have h1 := base_lt_origin hc a ha
    have h2 := origin_le keys a
    have h3 := hc.bounds a ha
    omega
  have hN := L.leafSpanSize_pos
  refine ⟨fun a ha he => ?_, fun a ha b hb he => ?_⟩
  · have hor := slot_origin (chain_ne_zero hc a ha)
    rw [he, ← Cyclic.slot_coe home] at hor
    have := Cyclic.slot_inj (a := home.val) (by have := hbound a ha; omega) (by omega) hor
    have := hbound a ha
    omega
  · by_contra hab
    have hor : origin keys a = origin keys b := by
      refine Cyclic.slot_inj (a := home.val) (n := L.leafSpanSize) (by have := hbound a ha; omega)
        (by have := hbound b hb; omega) ?_
      rw [slot_origin (chain_ne_zero hc a ha), slot_origin (chain_ne_zero hc b hb), he]
    have hpw := hc.origins fun i _ => origin_le keys i
    have hsymm : Std.Symm fun a b => origin keys a ≠ origin keys b := ⟨fun _ _ h => h.symm⟩
    exact hpw.forall ha hb hab hor

/-- The mixed views: every slot is as before or as after the insertion. -/
def Mixes (r r' view : Records L) : Prop := ∀ s, view s = r s ∨ view s = r' s

/-- An item that moved, with the hole it moved to: in each of the two slots, the other version holds no item of the same
home. -/
theorem moved_homes {r r' : Records L} {k v n : Nat} {e : Int} {hs : List Int} (h : InsertedAt r k v n e hs r')
    {t p : Fin L.leafSpanSize} (ht : t ∈ hs.map (slot L.leafSpanSize))
    (hp : p ∈ slot L.leafSpanSize e :: hs.map (slot _))
    (hpt : p ≠ t) (hpe : r'.keys p = r.keys t) (hd : r'.Distinct) :
    (r'.keys t ≠ 0 → L.getHashedLeafEntryIndex (r'.keys t) ≠ L.getHashedLeafEntryIndex (r.keys t)) ∧
    (r.keys p ≠ 0 → L.getHashedLeafEntryIndex (r.keys p) ≠ L.getHashedLeafEntryIndex (r.keys t)) := by
  obtain ⟨hnew, hinj⟩ := chain_homes h.chain (firstEmpty_lt h.firstEmpty)
  obtain ⟨a, ha, rfl⟩ := List.mem_map.1 ht
  constructor
  · intro h0 heq
    rcases h.items_on (List.mem_cons_of_mem _ ht) with he | ⟨u, hu, he⟩
    · have hk : r'.keys (slot _ a) = k := congrArg Prod.fst he
      rw [hk] at heq
      exact hnew a ha heq.symm
    · obtain ⟨b, hb, rfl⟩ := List.mem_map.1 hu
      have hk := keys_of_items he
      rw [hk] at heq h0
      -- the same key would be in the two slots
      obtain rfl := hinj b hb a ha heq
      exact hpt (hd _ _ (hpe.trans hk.symm) (by rw [hpe]; exact h0))
  · intro h0 heq
    rcases List.mem_cons.1 hp with rfl | hp
    · exact h0 (firstEmpty_some h.firstEmpty).2.2.1
    · obtain ⟨b, hb, rfl⟩ := List.mem_map.1 hp
      exact hpt (congrArg _ (hinj b hb a ha heq))

/-- **Lock-free search**: in every mixed view of a hop insertion, the scan for a key stored before finds its value or
asks for a retry. -/
theorem scan_of_mixes {r r' view : Records L} (hr : Good r) {k v n : Nat} (hk : k ≠ 0) (hnew : ¬r.HasKey k) {e : Int}
    {hs : List Int} (h : InsertedAt r k v n e hs r') (hm : Mixes r r' view) {k' v' : Nat} (hst : r.Stored k' v') :
    scan view k' = .found v' ∨ scan view k' = .retry := by
  obtain ⟨hp, hd⟩ := (good_iff r).1 hr
  have hd' : r'.Distinct := h.adds.distinct hd hnew
  obtain ⟨hk0, t, ht⟩ := hst
  have htk : r.keys t = k' := congrArg Prod.fst ht
  have hkk : k' ≠ k := fun he => hnew ⟨hk, t, htk.trans he⟩
  have hgt : gap (L.getHashedLeafEntryIndex k') t < L.neighborSize := htk ▸ hp.homed t (htk ▸ hk0)
  -- the value at any slot that shows the key
  have hval : ∀ u, view.keys u = k' → (view u).value = v' := by
    intro u hu
    rcases hm u with he | he
    · have hur : r.keys u = k' := (congrArg LeafEntry.key he).symm.trans hu
      obtain rfl := hd u t (hur.trans htk.symm) (hur ▸ hk0)
      rw [he]
      exact congrArg Prod.snd ht
    · have hur : r'.keys u = k' := (congrArg LeafEntry.key he).symm.trans hu
      have hst' : r'.Stored k' (r' u).value := ⟨hk0, u, Prod.ext hur rfl⟩
      rcases (h.adds.stored hk).1 hst' with ⟨-, w, hw⟩ | ⟨he', -⟩
      · have hwk : r.keys w = k' := congrArg Prod.fst hw
        obtain rfl := hd w t (hwk.trans htk.symm) (hwk ▸ hk0)
        rw [he]
        exact (congrArg Prod.snd hw).symm.trans (congrArg Prod.snd ht)
      · exact absurd he' hkk
  by_cases hseen : ∃ u, gap (L.getHashedLeafEntryIndex k') u < L.neighborSize ∧ view.keys u = k'
  · obtain ⟨u, hu, huk⟩ := hseen
    obtain ⟨w, hw, hs⟩ := scan_of_seen hk0 huk hu
    exact .inl (by rw [hs, hval w hw])
  have hno : ∀ u, gap (L.getHashedLeafEntryIndex k') u < L.neighborSize → view.keys u ≠ k' :=
    fun u hu he => hseen ⟨u, hu, he⟩
  rcases scan_of_not_seen hk0 hno with ⟨-, hbits⟩ | hretry
  swap
  · exact .inr hretry
  -- the key is in neither slot of the view, so it moved from `t` to `p`
  exfalso
  have hvt : view t = r' t := (hm t).resolve_left fun he =>
    hno t hgt ((congrArg LeafEntry.key he).trans htk)
  have htpath : t ∈ slot L.leafSpanSize e :: hs.map (slot _) := by
    by_contra hoff
    exact hno t hgt ((congrArg LeafEntry.key hvt).trans ((keys_of_items (h.items_off hoff)).trans htk))
  have htm : t ∈ hs.map (slot L.leafSpanSize) := by
    refine (List.mem_cons.1 htpath).resolve_left fun he => hk0 ?_
    rw [← htk, he]
    exact (firstEmpty_some h.firstEmpty).2.2.1
  obtain ⟨p, hpp, hpi⟩ := h.items_moved htm
  have hpk : r'.keys p = k' := (keys_of_items hpi).trans htk
  have hgp : gap (L.getHashedLeafEntryIndex k') p < L.neighborSize :=
    hpk ▸ h.inserted.placed.homed p (hpk ▸ hk0)
  have hvp : view p = r p := (hm p).resolve_right fun he => hno p hgp ((congrArg LeafEntry.key he).trans hpk)
  have hpt : p ≠ t := fun he => hno t hgt ((congrArg LeafEntry.key hvt).trans (he ▸ hpk))
  obtain ⟨hht, hhp⟩ := moved_homes h htm hpp hpt (hpk.trans htk.symm) hd'
  rw [htk] at hht hhp
  -- neither version of the stored bitmap fits the keys of the view
  rcases hm (L.getHashedLeafEntryIndex k') with hb | hb
  · have hset : hopBitOf (r.hops (L.getHashedLeafEntryIndex k')) (gap (L.getHashedLeafEntryIndex k') t) = true :=
      hp.bit htk hk0
    have hb' : (view (L.getHashedLeafEntryIndex k')).hopBitmap = r.hops (L.getHashedLeafEntryIndex k') :=
      congrArg LeafEntry.hopBitmap hb
    have hvk : view.keys t = r'.keys t := congrArg LeafEntry.key hvt
    rw [← hb', hbits t hgt, hvk] at hset
    exact hht hset.1 hset.2
  · have hset : hopBitOf (r'.hops (L.getHashedLeafEntryIndex k')) (gap (L.getHashedLeafEntryIndex k') p) = true :=
      h.inserted.placed.bit hpk hk0
    have hb' : (view (L.getHashedLeafEntryIndex k')).hopBitmap = r'.hops (L.getHashedLeafEntryIndex k') :=
      congrArg LeafEntry.hopBitmap hb
    have hvk : view.keys p = r.keys p := congrArg LeafEntry.key hvp
    rw [← hb', hbits p hgp, hvk] at hset
    exact hhp hset.1 hset.2

/-- The same in terms of the code's functions: a search that runs into a hop insertion never concludes that a stored
key is absent. -/
theorem search_during_insert {r r' view : Records L} (hr : Good r) {k v n : Nat} (hk : k ≠ kkeyNull)
    (hnew : ∀ s, (r s).key ≠ k) {last : Fin L.leafSpanSize} {hopped : List (Fin L.leafSpanSize)}
    (hins : hopscotchInsertAndUnlock r k v n = .ok (some (r', last, hopped)))
    (hview : ∀ s, view s = r s ∨ view s = r' s) {k' : Nat} (hk' : k' ≠ kkeyNull) {t : Fin L.leafSpanSize}
    (ht : (r t).key = k') : scan view k' = .found (r t).value ∨ scan view k' = .retry := by
  obtain ⟨hp, -⟩ := (good_iff r).1 hr
  have hnk : ¬r.HasKey k := fun ⟨_, s, hs⟩ => hnew s hs
  rcases insertion_spec hp v hk n with ⟨e, hs, r'', h, he⟩ | ⟨-, he⟩
  · obtain ⟨rfl, -⟩ := Prod.mk.inj (Option.some.inj (Except.ok.inj (hins.symm.trans he)))
    exact scan_of_mixes hr hk hnk h hview ⟨hk', t, Prod.ext ht rfl⟩
  · exact absurd (Except.ok.inj (hins.symm.trans he)) (by simp)

/-- A view of the sample table before the slot 3 is written: the key 2 has left its home and is not yet in the slot it
hops to. -/
theorem search_during_insert_sample : ∃ r' last hopped,
    hopscotchInsertAndUnlock sample 1 10 4 = .ok (some (r', last, hopped)) ∧
    (scan (fun s => if s = 3 then sample s else r' s) 2 = .found 20 ∨
      scan (fun s => if s = 3 then sample s else r' s) 2 = .retry) := by
  rcases insertion_spec ((good_iff _).1 good_sample).1 10 (k := 1) (by decide) 4 with ⟨e, hs, r', -, he⟩ | ⟨-, he⟩
  · refine ⟨r', _, _, he, search_during_insert good_sample (k := 1) (by decide) (by decide) he (fun s => ?_) (by decide)
      (t := 2) rfl⟩
    by_cases hs : s = 3
    · exact .inl (if_pos hs)
    · exact .inr (if_neg hs)
  · exact absurd he (by decide +kernel)

end Chime

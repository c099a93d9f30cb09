import Chime.LeafInsert
import Chime.LockFreeSearch

/-!
# `leaf_node_update` and `leaf_node_search` on one leaf

On a leaf whose items are placed, both find a stored key in its neighborhood, whatever the hotspot cache names
(`leafNodeUpdate_spec`, `leafNodeSearch_spec`); without the key, they turn right or end. A read fetches the neighborhood
with a replica of the metadata (`neighborhoodRead_eq`).
-/

namespace Chime

open Cyclic (slot gap)
open Records

variable {L : Layout}

/-- The read of a neighborhood. -/
theorem neighborhoodRead_eq (remote buffer : LeafNode L) (home : Fin L.leafSpanSize) :
    hopscotchSearch remote home L.neighborSize buffer =
      .ok ⟨remote.metadata, mask (window home L.neighborSize) buffer.records remote.records⟩ := by
  obtain ⟨md, hs, hmd, -⟩ := hopscotchSearch_eq remote buffer home L.neighborSize_le
  rw [hs, hmd (readsMetadata_of_le le_rfl)]

theorem mem_neighborhood {home s : Fin L.leafSpanSize} : s ∈ neighborhood L home ↔ gap home s < L.neighborSize := by
  rw [neighborhood, List.mem_map]
  constructor
  · rintro ⟨i, hi, rfl⟩
    have hi := List.mem_range.1 hi
    rwa [gap_slot_add _ hi]
  · exact fun h => ⟨gap home s, List.mem_range.2 h, slot_add_gap' home s⟩

/-- The search of a neighborhood finds a stored key, and nothing else. -/
theorem find_neighborhood {r : Records L} (hp : r.IsPlaced) {k : Nat} (hk : k ≠ 0) (view : Records L)
    (hv : ∀ s, gap (L.getHashedLeafEntryIndex k) s < L.neighborSize → view s = r s) :
    (∃ i, (neighborhood L (L.getHashedLeafEntryIndex k)).find? (fun i => (view i).key = k) = some i ∧ view i = r i ∧
      r.keys i = k) ∨
    ((neighborhood L (L.getHashedLeafEntryIndex k)).find? (fun i => (view i).key = k) = none ∧ ¬r.HasKey k) := by
  cases hf : (neighborhood L (L.getHashedLeafEntryIndex k)).find? (fun i => (view i).key = k) with
  | some i =>
    have hi := hv i (mem_neighborhood.1 (List.mem_of_find?_eq_some hf))
    have hk : (view i).key = k := by simpa only [decide_eq_true_eq] using List.find?_some hf
    exact .inl ⟨i, rfl, hi, by rw [hi] at hk; exact hk⟩
  | none =>
    refine .inr ⟨rfl, fun ⟨_, s, hs⟩ => ?_⟩
    have hd : gap (L.getHashedLeafEntryIndex k) s < L.neighborSize := hs ▸ hp.homed s (hs ▸ hk)
    have := List.find?_eq_none.1 hf s (mem_neighborhood.2 hd)
    rw [hv s hd] at this
    exact this (decide_eq_true hs)

/-- A speculative read that hits shows the slot of the key. -/
theorem speculativeRead_some {remote buffer leaf : LeafNode L} {k : Nat} {speculativeIdx : Option (Fin L.leafSpanSize)}
    {i : Fin L.leafSpanSize} (h : speculativeRead remote buffer k speculativeIdx = some (leaf, i)) :
    leaf.records i = remote.records i ∧ remote.records.keys i = k := by
  cases speculativeIdx with
  | none => cases h
  | some j =>
    rw [speculativeRead] at h
    split at h
    · rename_i hk
      obtain ⟨rfl, rfl⟩ := Prod.mk.inj (Option.some.inj h)
      exact ⟨Function.update_self _ _ _, hk⟩
    · cases h

/-- How an update ends on a leaf. -/
inductive UpdateResult (remote : LeafNode L) (lock : Valock L) (siblingAddr : GlobalAddress) (k v : Nat)
    (fromCache : Bool) : Checked (LeafUpdate L) → Prop
  | write (i : Fin L.leafSpanSize) (w : LeafWrite L) : remote.records.keys i = k →
      w.apply remote = { remote with records := remote.records.update i.val k v } → w.lock = lock →
      UpdateResult remote lock siblingAddr k v fromCache (.ok (.write w))
  | invalid : fromCache = true → siblingAddr ≠ remote.siblingPtr →
      UpdateResult remote lock siblingAddr k v fromCache (.ok .invalid)
  | turnRight : ¬remote.records.HasKey k → siblingAddr ≠ remote.siblingPtr → remote.siblingPtr ≠ .null →
      fromCache = false → UpdateResult remote lock siblingAddr k v fromCache (.ok (.turnRight remote.siblingPtr))
  | siblingNull : ¬remote.records.HasKey k → siblingAddr ≠ remote.siblingPtr → remote.siblingPtr = .null →
      UpdateResult remote lock siblingAddr k v fromCache (.error .siblingNull)
  | keyMissing : ¬remote.records.HasKey k → siblingAddr = remote.siblingPtr →
      UpdateResult remote lock siblingAddr k v fromCache (.error .keyMissing)

/-- **`leaf_node_update`** overwrites a stored key, unless it gives up on a stale cache entry. -/
theorem leafNodeUpdate_spec {remote : LeafNode L} (hp : remote.records.IsPlaced) (hvalid : remote.metadata.valid = true)
    (buffer : LeafNode L) (lock : Valock L) (siblingAddr : GlobalAddress) {k : Nat} (hk : k ≠ 0) (v : Nat)
    (fromCache : Bool) (speculativeIdx : Option (Fin L.leafSpanSize)) :
    UpdateResult remote lock siblingAddr k v fromCache
      (leafNodeUpdate remote buffer lock siblingAddr k v fromCache speculativeIdx) := by
  unfold leafNodeUpdate
  cases hsp : speculativeRead remote buffer k speculativeIdx with
  | some y =>
    obtain ⟨leaf, i⟩ := y
    obtain ⟨h1, h2⟩ := speculativeRead_some hsp
    obtain ⟨hw, hl⟩ := entryWrite_spec remote lock (k := k) (v := v) h1
    exact .write i _ h2 hw hl
  | none =>
    have hsib : (⟨remote.metadata, mask (window (L.getHashedLeafEntryIndex k) L.neighborSize) buffer.records
        remote.records⟩ : LeafNode L).siblingPtr = remote.siblingPtr := rfl
    simp only [neighborhoodRead_eq, Checked.ok_bind, hvalid, not_true, false_or, hsib]
    split
    · rename_i hc
      exact .invalid hc.1 hc.2
    rename_i hfresh
    rcases find_neighborhood hp hk (mask (window (L.getHashedLeafEntryIndex k) L.neighborSize) buffer.records
      remote.records) (fun s hs => mask_of_mem (mem_window.2 hs)) with ⟨i, hf, hv, hi⟩ | ⟨hf, hno⟩
    · simp only [hf]
      obtain ⟨hw, hl⟩ := entryWrite_spec remote lock (k := k) (v := v) hv
      exact .write i _ hi hw hl
    · simp only [hf]
      split
      · rename_i hs
        by_cases hnull : remote.siblingPtr = .null
        · rw [hnull, Checked.assert_of_not (by simp)]
          exact .siblingNull hno hs hnull
        · rw [Checked.assert_of hnull]
          exact .turnRight hno hs hnull (Bool.eq_false_iff.2 fun hc => hfresh ⟨hc, hs⟩)
      · rename_i hs
        exact .keyMissing hno (not_not.1 hs)

/-- How one round of a search ends on a leaf. -/
inductive SearchResult (remote : LeafNode L) (siblingAddr : GlobalAddress) (k : Nat) (fromCache : Bool) :
    Checked LeafSearch → Prop
  | found (i : Fin L.leafSpanSize) : remote.records.keys i = k →
      SearchResult remote siblingAddr k fromCache (.ok (.done (remote.records i).value))
  | invalid : fromCache = true → siblingAddr ≠ remote.siblingPtr →
      SearchResult remote siblingAddr k fromCache (.ok .invalid)
  | turnRight : ¬remote.records.HasKey k → siblingAddr ≠ remote.siblingPtr → remote.siblingPtr ≠ .null →
      fromCache = false → SearchResult remote siblingAddr k fromCache (.ok (.turnRight remote.siblingPtr))
  | siblingNull : ¬remote.records.HasKey k → siblingAddr ≠ remote.siblingPtr → remote.siblingPtr = .null →
      SearchResult remote siblingAddr k fromCache (.error .siblingNull)
  | absent : ¬remote.records.HasKey k → siblingAddr = remote.siblingPtr →
      SearchResult remote siblingAddr k fromCache (.ok (.done kValueNull))

/-- **`leaf_node_search`** on a consistent leaf returns the value of a stored key, unless it gives up on a stale cache
entry; it never asks for a retry. -/
theorem leafNodeSearch_spec {remote : LeafNode L} (hp : remote.records.IsPlaced) (buffer : LeafNode L)
    (siblingAddr : GlobalAddress) {k : Nat} (hk : k ≠ 0) (fromCache : Bool)
    (hvalid : fromCache = true → remote.metadata.valid = true) (speculativeIdx : Option (Fin L.leafSpanSize)) :
    SearchResult remote siblingAddr k fromCache
      (leafNodeSearch remote buffer siblingAddr k fromCache speculativeIdx) := by
  unfold leafNodeSearch
  cases hsp : speculativeRead remote buffer k speculativeIdx with
  | some y =>
    obtain ⟨leaf, i⟩ := y
    obtain ⟨h1, h2⟩ := speculativeRead_some hsp
    simp only [h1]
    exact .found i h2
  | none =>
    have hsib : (⟨remote.metadata, mask (window (L.getHashedLeafEntryIndex k) L.neighborSize) buffer.records
        remote.records⟩ : LeafNode L).siblingPtr = remote.siblingPtr := rfl
    have hcond : (fromCache = true ∧ (¬remote.metadata.valid = true ∨ siblingAddr ≠ remote.siblingPtr)) ↔
        fromCache = true ∧ siblingAddr ≠ remote.siblingPtr :=
      and_congr_right fun hc => or_iff_right (not_not.2 (hvalid hc))
    simp only [neighborhoodRead_eq, Checked.ok_bind, hsib, hcond]
    split
    · rename_i hc
      exact .invalid hc.1 hc.2
    rename_i hfresh
    set view := mask (window (L.getHashedLeafEntryIndex k) L.neighborSize) buffer.records remote.records with hview
    have hseen : ∀ s, gap (L.getHashedLeafEntryIndex k) s < L.neighborSize → view s = remote.records s :=
      fun s hs => mask_of_mem (mem_window.2 hs)
    have hkeys : ∀ s, gap (L.getHashedLeafEntryIndex k) s < L.neighborSize → view.keys s = remote.records.keys s :=
      fun s hs => congrArg LeafEntry.key (hseen s hs)
    by_cases hkey : remote.records.HasKey k
    · obtain ⟨-, s, hs⟩ := hkey
      have hd : gap (L.getHashedLeafEntryIndex k) s < L.neighborSize := hs ▸ hp.homed s (hs ▸ hk)
      rcases scanLoop_spec view _ hk rfl (List.range L.neighborSize) 0 (fun i hi => List.mem_range.1 hi) with
        ⟨i, hi, h1, h2⟩ | ⟨h1, -⟩
      · have hgi := gap_slot_add (L.getHashedLeafEntryIndex k) (List.mem_range.1 hi)
        have hgi' := hgi.symm ▸ List.mem_range.1 hi
        have hscan : scan view k = .found (view (slot _ ((L.getHashedLeafEntryIndex k).val + i : Nat))).value := by
          rw [scan, h2]
        rw [hscan, hseen _ hgi']
        exact .found _ ((hkeys _ hgi').symm.trans h1)
      · exact absurd (by rw [slot_add_gap', hkeys s hd]; exact hs) (h1 _ (List.mem_range.2 hd))
    · have hno : ∀ t, gap (L.getHashedLeafEntryIndex k) t < L.neighborSize → view.keys t ≠ k := by
        intro t ht he
        exact hkey ⟨hk, t, (hkeys t ht).symm.trans he⟩
      have habsent : scan view k = .absent := by
        refine scan_absent hk hno fun t ht => ?_
        rw [hkeys t ht, hseen _ (by rw [Cyclic.gap_self]; exact L.neighborSize_pos)]
        exact hp.exact _ t ht
      rw [habsent]
      simp only
      split
      · rename_i hs
        by_cases hnull : remote.siblingPtr = .null
        · rw [hnull, Checked.assert_of_not (by simp)]
          exact .siblingNull hkey hs hnull
        · rw [Checked.assert_of hnull]
          exact .turnRight hkey hs hnull (Bool.eq_false_iff.2 fun hc => hfresh ⟨hc, hs⟩)
      · rename_i hs
        exact .absent hkey (not_not.1 hs)

end Chime

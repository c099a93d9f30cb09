import Chime.TreeInv

/-!
# What steps do to the shared state

A step writes a linked node (`TreeOk.write`), writes a private one (`TreeOk.writePrivate`), writes the left node of a
split and so links its right one (`TreeOk.link`), or publishes a new root (`TreeOk.grow`). Each keeps the shared
invariant, and each leaves to the other clients what they rely on (`Rely.same`, `Rely.write`, `Rely.link`, `Rely.grow`).
-/

namespace Chime

open Boundary (Next Extends Below)

variable [Arithmetic] {L : Layout} {g : Charted L} {O : Resource → Prop} {m l k h a new : Nat} {cell : Cell L}

/-- The node in a larger directory that does not cut its range. -/
theorem CellOk.grow {d d' : Directory} (hc : CellOk L d m l cell) (hd : d.Le d')
    (hn : ∀ h, Next (d m) L.keyFull l h → Next (d' m) L.keyFull l h) : CellOk L d' m l cell := by
  cases hc with
  | leaf hok ht => exact .leaf (hok.grow (hd 0) (hn _ hok.next)) ht
  | internal hok => exact .internal (hok.grow hd (hn _ hok.next))

/-! ## The shared invariant -/

theorem TreeOk.alloc (hg : TreeOk g) : TreeOk ⟨g.store.alloc, g.dir⟩ :=
  { hg with allocated := fun ha => Nat.lt_succ_of_lt (hg.allocated ha) }

theorem TreeOk.cacheNode (hg : TreeOk g) {nd : InternalNode} (hr : Routes L g.dir nd) :
    TreeOk ⟨g.store.cacheNode nd, g.dir⟩ :=
  { hg with cached := fun nd' h => (List.mem_cons.1 h).elim (fun h => h ▸ hr) (hg.cached nd') }

/-- A linked node is written. -/
theorem TreeOk.write (hg : TreeOk g) (ha : g.dir m l = some a) (hc : CellOk L g.dir m l cell) :
    TreeOk ⟨g.store.write a cell, g.dir⟩ :=
  { hg with
    cells := fun {m' k' b} hb => by
      show CellOk L g.dir m' k' ((g.store.write a cell).mem b)
      by_cases hba : b = a
      · subst hba
        obtain ⟨rfl, rfl⟩ := hg.inj ha hb
        rwa [Store.write_self]
      · rw [Store.write_of_ne _ hba]
        exact hg.cells hb }

/-- A node that is not linked is written. -/
theorem TreeOk.writePrivate (hg : TreeOk g) (hp : ∀ m l, g.dir m l ≠ some a) : TreeOk ⟨g.store.write a cell, g.dir⟩ :=
  { hg with
    cells := fun {m' k' b} hb => by
      show CellOk L g.dir m' k' ((g.store.write a cell).mem b)
      have hba : b ≠ a := by
        rintro rfl
        exact hp m' k' hb
      rw [Store.write_of_ne _ hba]
      exact hg.cells hb }

/-- **A split**: the left node is written, and the right one is linked. -/
theorem TreeOk.link (hg : TreeOk g) (ha : g.dir m l = some a) (hp : Private g new)
    (hn : Next (g.dir m) L.keyFull l h) (hl : l < k) (hk : k < h) (hleft : CellOk L (g.dir.insert m k new) m l cell)
    (hright : CellOk L (g.dir.insert m k new) m k (g.store.mem new)) :
    TreeOk ⟨g.store.write a cell, g.dir.insert m k new⟩ := by
  have hd : g.dir.Le (g.dir.insert m k new) := Directory.insert_le (hn.free k hl hk)
  have hkf := hn.le_top (hg.below m)
  have hna : new ≠ a := by
    rintro rfl
    exact hp.2 m l ha
  refine ⟨?_, ?_, ?_, ?_, hg.root_pos, hg.root.mono (hd _), ?_, fun nd hnd => (hg.cached nd hnd).mono hd⟩
  · intro j l' b hb
    rcases Directory.insert_cases hb with ⟨rfl, rfl, rfl⟩ | hb
    · have := (hg.range ha).1
      omega
    · exact hg.range hb
  · intro j l' b hb
    rcases Directory.insert_cases hb with ⟨rfl, rfl, rfl⟩ | hb
    · exact hp.1
    · exact hg.allocated hb
  · intro j l' b hb
    show CellOk L (g.dir.insert m k new) j l' ((g.store.write a cell).mem b)
    rcases Directory.insert_cases hb with ⟨rfl, rfl, rfl⟩ | hold
    · rwa [Store.write_of_ne _ hna]
    · by_cases hba : b = a
      · subst hba
        obtain ⟨rfl, rfl⟩ := hg.inj ha hold
        rwa [Store.write_self]
      · rw [Store.write_of_ne _ hba]
        refine (hg.cells hold).grow hd fun h' hn' => ?_
        by_cases hj : j = m
        · subst hj
          have hne : l' ≠ l := by
            rintro rfl
            exact hba (Option.some.inj (hold.symm.trans ha))
          rw [Directory.insert_level]
          exact hn.cutOff hl hk hn' ha hold hne
        · rwa [Directory.insert_of_ne hj]
  · intro j l' b hb
    rcases Directory.insert_cases hb with ⟨rfl, rfl, rfl⟩ | hb
    · exact hg.below_root ha
    · exact hg.below_root hb
  · intro j hj
    obtain ⟨k', b, h1, h2⟩ := hg.grown hj
    exact ⟨k', b, h1, hd _ _ _ h2⟩

/-- **The root entry** moves to a new root over the two nodes of the top level. -/
theorem TreeOk.grow (hg : TreeOk g) {level sib : Nat} (hroot : g.store.root = ⟨level + 1, .at a⟩)
    (ha : g.dir level 1 = some a) (hk : g.dir level k = some sib) (h1 : 1 < k) (hp : Private g new)
    (hm : g.store.mem new = .internal (InternalNode.newRoot L level (.at a) k (.at sib)) false) :
    TreeOk ⟨{ g.store with root := ⟨level + 2, .at new⟩ }, g.dir.insert (level + 1) 1 new⟩ := by
  have hnone : ∀ k, g.dir (level + 1) k = none := by
    intro k
    by_contra hne
    obtain ⟨b, hb⟩ := Option.ne_none_iff_exists'.1 hne
    have := hg.below_root hb
    rw [hroot] at this
    exact lt_irrefl _ this
  have hd : g.dir.Le (g.dir.insert (level + 1) 1 new) := Directory.insert_le (hnone 1)
  have hkf := (hg.range hk).2
  refine ⟨?_, ?_, ?_, ?_, by simp, ⟨new, ?_, rfl⟩, ?_, fun nd hnd => (hg.cached nd hnd).mono hd⟩
  · intro j l' b hb
    rcases Directory.insert_cases hb with ⟨rfl, rfl, rfl⟩ | hb
    · omega
    · exact hg.range hb
  · intro j l' b hb
    rcases Directory.insert_cases hb with ⟨rfl, rfl, rfl⟩ | hb
    · exact hp.1
    · exact hg.allocated hb
  · intro j l' b hb
    show CellOk L (g.dir.insert (level + 1) 1 new) j l' (g.store.mem b)
    rcases Directory.insert_cases hb with ⟨rfl, rfl, rfl⟩ | hold
    · rw [hm]
      refine .internal (newRoot_ok (hd _ _ _ ha) (hd _ _ _ hk) h1 hkf ⟨by omega, .inl rfl, fun j h1 h2 => ?_⟩)
      rw [Directory.insert_level, Function.update_of_ne (by omega)]
      exact hnone j
    · refine (hg.cells hold).grow hd fun h' hn' => ?_
      rw [Directory.insert_of_ne]
      · exact hn'
      · rintro rfl
        cases (hnone l').symm.trans hold
  · intro j l' b hb
    rcases Directory.insert_cases hb with ⟨rfl, rfl, rfl⟩ | hb
    · show level + 1 < level + 2
      omega
    · have := hg.below_root hb
      rw [hroot] at this
      exact Nat.lt_succ_of_lt this
  · show g.dir.insert (level + 1) 1 new (level + 1) 1 = some new
    rw [Directory.insert_level, Function.update_self]
  · intro j hj
    by_cases hjl : j = level
    · subst hjl
      exact ⟨k, sib, h1, hd _ _ _ hk⟩
    · obtain ⟨k', b, h1, h2⟩ := hg.grown (m := j) (by
        rw [hroot]
        simp only at hj ⊢
        omega)
      exact ⟨k', b, h1, hd _ _ _ h2⟩

/-! ## What the others rely on -/

omit [Arithmetic] in
theorem Rely.same {s' : Store L} (hm : s'.mem = g.store.mem) (hr : s'.root = g.store.root)
    (hn : g.store.next ≤ s'.next) :
    Rely g ⟨s', g.dir⟩ O where
  dir := .refl _
  next := hn
  mem := fun a _ => congrFun hm a
  linked := fun _ _ _ _ h => h
  sep := fun _ _ _ _ hf => ⟨hf.one_lt, hf.boundary, fun hl hc => hf.record hl ((congrFun hm _).symm.trans hc)⟩
  root := fun _ => hr

omit [Arithmetic] in
theorem Rely.trans {g' g'' : Charted L} (h : Rely g g' O) (h' : Rely g' g'' O) : Rely g g'' O where
  dir := h.dir.trans h'.dir
  next := h.next.trans h'.next
  mem := fun a ha => (h'.mem a ha).trans (h.mem a ha)
  linked := fun a ha m l hl => h.linked a ha m l (h'.linked a ha m l hl)
  sep := fun m k hm hk hf => h'.sep m k hm hk (h.sep m k hm hk hf)
  root := fun hr => (h'.root hr).trans (h.root hr)

/-- No record of the cell has the key. -/
def Lacks (cell : Cell L) (k : Nat) : Prop := ∀ nd locked, cell = .internal nd locked → ∀ e ∈ nd.records, e.key ≠ k

omit [Arithmetic] in
theorem lacks_leaf (lf : LeafNode L) (lock : Option (Valock L)) : Lacks (.leaf lf lock) k :=
  fun _ _ h => by cases h

omit [Arithmetic] in
theorem lacks_internal {nd : InternalNode} {locked : Bool} (h : ∀ e ∈ nd.records, e.key ≠ k) :
    Lacks (.internal nd locked : Cell L) k := fun _ _ he => by
  cases he
  exact h

omit [Arithmetic] in
/-- A node that the other client does not own is written. -/
theorem Rely.write (ho : ¬O (.addr a)) (hs : ∀ m k l, 1 ≤ m → O (.sep m k) → Fresh g m k → g.dir m l = some a →
    Lacks cell k) :
    Rely g ⟨g.store.write a cell, g.dir⟩ O where
  dir := .refl _
  next := le_rfl
  mem := fun b hb => g.store.write_of_ne (by rintro rfl; exact ho hb) cell
  linked := fun _ _ _ _ h => h
  sep := fun m k hm hk hf => by
    refine ⟨hf.one_lt, hf.boundary, fun {l b nd locked} hl hc => ?_⟩
    by_cases hba : b = a
    · subst hba
      exact hs m k l hm hk hf hl nd locked ((g.store.write_self b cell).symm.trans hc)
    · exact hf.record hl ((g.store.write_of_ne hba cell).symm.trans hc)
  root := fun _ => rfl

omit [Arithmetic] in
/-- A split. -/
theorem Rely.link (hk : g.dir m k = none) (ho : ¬O (.addr a)) (ho' : ¬O (.addr new))
    (hs : ∀ k', 1 ≤ m → O (.sep m k') → Fresh g m k' → k' ≠ k ∧ Lacks cell k' ∧ Lacks (g.store.mem new) k')
    (hinj : ∀ j l', g.dir j l' = some a → j = m) :
    Rely g ⟨g.store.write a cell, g.dir.insert m k new⟩ O where
  dir := Directory.insert_le hk
  next := le_rfl
  mem := fun b hb => g.store.write_of_ne (by rintro rfl; exact ho hb) cell
  linked := fun b hb j l' hl => by
    rcases Directory.insert_cases hl with ⟨-, -, rfl⟩ | hold
    · exact absurd hb ho'
    · exact hold
  sep := fun j k' hj1 hk' hf => by
    refine ⟨hf.one_lt, ?_, fun {l' b nd locked} hl hc => ?_⟩
    · show g.dir.insert m k new j k' = none
      by_cases hj : j = m
      · subst hj
        obtain ⟨hne, -, -⟩ := hs k' hj1 hk' hf
        rw [Directory.insert_level, Function.update_of_ne hne]
        exact hf.boundary
      · rw [Directory.insert_of_ne hj]
        exact hf.boundary
    · have hcell : (g.store.write a cell).mem b = .internal nd locked := hc
      rcases Directory.insert_cases hl with ⟨rfl, -, rfl⟩ | hold
      · by_cases hba : b = a
        · subst hba
          rw [Store.write_self] at hcell
          exact (hs k' hj1 hk' hf).2.1 nd locked hcell
        · rw [Store.write_of_ne _ hba] at hcell
          exact (hs k' hj1 hk' hf).2.2 nd locked hcell
      · by_cases hba : b = a
        · subst hba
          obtain rfl := hinj j l' hold
          rw [Store.write_self] at hcell
          exact (hs k' hj1 hk' hf).2.1 nd locked hcell
        · rw [Store.write_of_ne _ hba] at hcell
          exact hf.record hold hcell
  root := fun _ => rfl

omit [Arithmetic] in
/-- A new root. -/
theorem Rely.grow {level : Nat} (hnone : g.dir (level + 1) 1 = none) (hroot : ¬O .root) (ho : ¬O (.addr new))
    (hs : ∀ k', O (.sep (level + 1) k') → Lacks (g.store.mem new) k') :
    Rely g ⟨{ g.store with root := ⟨level + 2, .at new⟩ }, g.dir.insert (level + 1) 1 new⟩ O where
  dir := Directory.insert_le hnone
  next := le_rfl
  mem := fun _ _ => rfl
  linked := fun b hb j l' hl => by
    rcases Directory.insert_cases hl with ⟨-, -, rfl⟩ | hold
    · exact absurd hb ho
    · exact hold
  sep := fun j k' _ hk' hf => by
    refine ⟨hf.one_lt, ?_, fun {l' b nd locked} hl hc => ?_⟩
    · have hne : k' ≠ 1 := hf.one_lt.ne'
      show g.dir.insert (level + 1) 1 new j k' = none
      by_cases hj : j = level + 1
      · subst hj
        rw [Directory.insert_level, Function.update_of_ne hne]
        exact hf.boundary
      · rw [Directory.insert_of_ne hj]
        exact hf.boundary
    · rcases Directory.insert_cases hl with ⟨rfl, -, rfl⟩ | hold
      · exact hs k' hk' nd locked hc
      · exact hf.record hold hc
  root := fun h => absurd h hroot

end Chime

import Chime.Reachability

/-!
# The levels of the tree

In every state of every run, whatever splits are under way, the nodes of a level are linked by their siblings from left
to right and cut the key space without gaps (`Tiles`), the root is the first node of the top level, and the pointers of
an internal node lead to nodes of the level below that begin at its lowest fence and at its separators
(`level_chains`).
-/

namespace Chime

open Boundary (Next Extends Below)
open Records

variable {L : Layout}

/-- The nodes of level `m` from the one at a pointer on, each with the key it begins at: they follow one another up to
the upper end of the keys. -/
inductive Tiles (s : Store L) (m : Nat) : Nat → GlobalAddress → List (Nat × Nat) → Prop
  | nil : Tiles s m L.keyFull .null []
  /-- the leaf has keys from `l` up to `h`, and the last one of them -/
  | leaf {l h a : Nat} {lf : LeafNode L} {lock : Option (Valock L)} {ns : List (Nat × Nat)} : m = 0 →
      s.mem a = .leaf lf lock → (∀ k, lf.records.HasKey k → l ≤ k ∧ k < h) → (∃ k, lf.records.HasKey k ∧ k + 1 = h) →
      Tiles s m h lf.siblingPtr ns → Tiles s m l (.at a) ((l, a) :: ns)
  /-- the fences of the node are `l` and the beginning of the next one -/
  | internal {a : Nat} {nd : InternalNode} {locked : Bool} {ns : List (Nat × Nat)} : s.mem a = .internal nd locked →
      nd.level = m → nd.lowest < nd.highest → Tiles s m nd.highest nd.siblingPtr ns →
      Tiles s m nd.lowest (.at a) ((nd.lowest, a) :: ns)

/-- A pointer of the list leads to the node that begins at `l`. -/
def LeadsTo (ns : List (Nat × Nat)) (l : Nat) (p : GlobalAddress) : Prop := ∃ a, p = .at a ∧ (l, a) ∈ ns

/-- The shape of a tree: the nodes of the levels, each with the key it begins at. -/
structure Shape (s : Store L) (chain : Nat → List (Nat × Nat)) : Prop where
  levels : ∀ m < s.root.level, ∃ p, Tiles s m kKeyMin p (chain m)
  /-- no node is in two places -/
  apart : ∀ {m m' l l' a}, (l, a) ∈ chain m → (l', a) ∈ chain m' → m = m' ∧ l = l'
  root : LeadsTo (chain (s.root.level - 1)) kKeyMin s.root.ptr
  leftmost : ∀ {m l a nd locked}, (l, a) ∈ chain m → s.mem a = .internal nd locked →
    LeadsTo (chain (m - 1)) nd.lowest nd.leftmostPtr
  records : ∀ {m l a nd locked}, (l, a) ∈ chain m → s.mem a = .internal nd locked →
    ∀ e ∈ nd.records, LeadsTo (chain (m - 1)) e.key e.ptr

section Tiles

variable {g : Charted L} {m l : Nat} {p : GlobalAddress} {ns : List (Nat × Nat)}

/-- **The nodes from a boundary on**: the list has all later boundaries of the level, and no other nodes. -/
theorem TreeOk.tiles (hg : TreeOk g) : ∀ {l a}, g.dir m l = some a → ∃ ns, Tiles g.store m l (.at a) ns ∧
    ∀ l' a', (l', a') ∈ ns ↔ l ≤ l' ∧ g.dir m l' = some a' := by
  intro l
  -- by induction on the number of keys on the right
  induction hn : L.keyFull - l using Nat.strong_induction_on generalizing l with
  | _ n ih =>
    intro a ha
    obtain ⟨hl, hlk⟩ := hg.range ha
    -- the list after this node
    have hrest : ∀ {h sib}, Next (g.dir m) L.keyFull l h → Target L (g.dir m) h sib →
        ∃ ns, Tiles g.store m h sib ns ∧ ∀ l' a', (l', a') ∈ (l, a) :: ns ↔ l ≤ l' ∧ g.dir m l' = some a' := by
      intro h sib hnext htarget
      have hlt := hnext.lt
      have hcut : ∀ l' a', g.dir m l' = some a' → l ≤ l' → (l', a') = (l, a) ∨ h ≤ l' := by
        intro l' a' ha' hle
        rcases hle.eq_or_lt with rfl | hlt'
        · cases ha.symm.trans ha'
          exact .inl rfl
        · exact .inr (hnext.le ha' hlt')
      rcases htarget with ⟨rfl, rfl⟩ | ⟨b, hb, rfl⟩
      · refine ⟨[], .nil, fun l' a' => ?_⟩
        rw [List.mem_singleton, Prod.mk.injEq]
        refine ⟨?_, fun ⟨hle, ha'⟩ => ?_⟩
        · rintro ⟨rfl, rfl⟩
          exact ⟨le_rfl, ha⟩
        · rcases hcut l' a' ha' hle with he | hle
          · exact Prod.mk.inj he
          · have := (hg.range ha').2
            omega
      · obtain ⟨ns, hns, hmem⟩ := ih (L.keyFull - h) (by omega) rfl hb
        refine ⟨ns, hns, fun l' a' => ?_⟩
        rw [List.mem_cons, hmem]
        refine ⟨?_, fun ⟨hle, ha'⟩ => (hcut l' a' ha' hle).imp_right fun hle => ⟨hle, ha'⟩⟩
        rintro (he | ⟨hle, ha'⟩)
        · obtain ⟨rfl, rfl⟩ := Prod.mk.inj he
          exact ⟨le_rfl, ha⟩
        · exact ⟨hlt.le.trans hle, ha'⟩
    rcases Nat.eq_zero_or_pos m with rfl | hm
    · obtain ⟨h, lf, lock, hmem, hok, -⟩ := hg.leaf ha
      obtain ⟨ns, hns, hin⟩ := hrest hok.next hok.sibling
      exact ⟨_, .leaf rfl hmem hok.range hok.last hns, hin⟩
    · obtain ⟨nd, locked, hmem, hok⟩ := hg.internal hm ha
      obtain rfl := hok.lowest
      obtain ⟨ns, hns, hin⟩ := hrest hok.next hok.sibling
      exact ⟨_, .internal hmem hok.level hok.next.lt hns, hin⟩

/-- Every level below the root begins at the first key. -/
theorem TreeOk.first (hg : TreeOk g) (hm : m < g.store.root.level) : ∃ a, g.dir m kKeyMin = some a := by
  obtain ⟨a, ha, -⟩ := hg.root
  exact hg.nested_le (show m ≤ g.store.root.level - 1 by omega) ha

end Tiles

section Runs

open Chime.Tree

variable {s : Tree L} {h : List Event}

/-- **The shape of the tree**, in every state of every run: each level is a chain of siblings that cuts the key space,
and the pointers of an internal node lead to nodes of the level below that begin where the node says. -/
theorem level_chains (hrun : (machine L).Run ValidKeys s h) : ∃ chain, Shape s.store chain := by
  obtain ⟨d, hg⟩ := tree_good hrun
  have hok := hg.shared
  have hlevel : ∀ m, ∃ ns : List (Nat × Nat), (m < s.store.root.level → ∃ p, Tiles s.store m kKeyMin p ns) ∧
      ∀ l a, (l, a) ∈ ns ↔ d m l = some a := by
    intro m
    by_cases hm : m < s.store.root.level
    · obtain ⟨a, ha⟩ := hok.first hm
      obtain ⟨ns, hns, hmem⟩ := hok.tiles ha
      exact ⟨ns, fun _ => ⟨_, hns⟩, fun l a => (hmem l a).trans (and_iff_right_of_imp fun ha => (hok.range ha).1)⟩
    · exact ⟨[], fun h => absurd h hm, fun l a => ⟨nofun, fun ha => absurd (hok.below_root ha) hm⟩⟩
  choose chain htiles hmem using hlevel
  have hleads : ∀ {m l p}, Points (d m) l p → LeadsTo (chain m) l p := fun ⟨a, ha, hp⟩ =>
    ⟨a, hp, (hmem _ _ _).2 ha⟩
  -- an internal node of a chain is what the directory says
  have hnode : ∀ {m l a nd locked}, (l, a) ∈ chain m → s.store.mem a = .internal nd locked → InternalOk L d m l nd := by
    intro m l a nd locked ha hnd
    have hcell := hok.cells ((hmem _ _ _).1 ha)
    rw [show (Charted.store ⟨s.store, d⟩).mem a = .internal nd locked from hnd] at hcell
    exact CellOk.internal_iff.1 hcell
  refine ⟨chain, htiles, fun ha ha' => hok.inj ((hmem _ _ _).1 ha) ((hmem _ _ _).1 ha'), hleads hok.root,
    fun ha hnd => ?_, fun ha hnd e he => ?_⟩
  · have hint := hnode ha hnd
    rw [← hint.level]
    exact hleads hint.routes.leftmost
  · have hint := hnode ha hnd
    rw [← hint.level]
    exact hleads (hint.routes.records e he).1

/-- In the middle of the split of the root leaf. -/
theorem level_chains_split : ∃ s h, (machine .small).Run ValidKeys s h ∧ s.store.root.level = 1 ∧
    (s.clients 1).isSome = true ∧ ∃ chain, Shape s.store chain := by
  have hsome : (((machine .small).exec keysChecked (init _) [] splitInFlight).map fun y =>
      (y.1.store.root.level, (y.1.clients 1).isSome)) = some (1, true) := by decide +kernel
  obtain ⟨⟨s, h⟩, hexec, heq⟩ := Option.map_eq_some_iff.1 hsome
  obtain ⟨hlevel, hclient⟩ := Prod.mk.inj heq
  exact ⟨s, h, run_of_exec hexec, hlevel, hclient, level_chains (run_of_exec hexec)⟩

end Runs
end Chime

import Chime.TreeRuns

/-!
# The holders of the node locks

A client holds the lock of one node at most (`TreePc.lockedNode`). In a run in which no assertion has failed the locked
nodes are those that a client holds, each held by one client (`lock_holders`): no lock is lost on the way through a
split, a turn to the right or a new start from the root.
-/

namespace Chime

variable {L : Layout} {g g' : Charted L} {ch : Choice L} {cl cl' : Client L} {pc : TreePc L} {a : Nat}

/-- The node that a client has locked. -/
def TreePc.lockedNode : TreePc L → Option Nat
  | .leafLocked a _ _ | .leafUnlock a _ _ | .leafWrite a _ | .leafSplitSibling a _ _ | .leafSplitWrite a _ _
  | .internalLocked _ a _ | .internalUnlock _ a _ | .internalWrite _ a _ | .internalSplitSibling _ a _ _
  | .internalSplitWrite _ a _ _ => some a
  | .start | .visit _ | .leaf _ | .newRoot .. | .rootCas .. | .parent _ | .readRoot _ | .insertInternal ..
  | .internal .. | .done _ | .crashed _ => none

/-- A locked node is owned. -/
theorem TreePc.owned_of_lockedNode (h : pc.lockedNode = some a) : .addr a ∈ pc.owned := by
  cases pc <;> cases h <;> simp [owned]

/-- The node that a client holds is locked. -/
theorem ClientOk.isLocked (hc : ClientOk g cl) (h : cl.pc.lockedNode = some a) : (g.store.mem a).isLocked = true := by
  obtain ⟨-, -, hpc⟩ := hc
  revert h hpc
  cases cl.pc with
  | leafLocked b => rintro ⟨⟩ ⟨-, -, -, ⟨-, lf, hm, -⟩, -⟩; rw [hm]; rfl
  | leafUnlock b => rintro ⟨⟩ ⟨-, ⟨-, lf, hm, -⟩, -⟩; rw [hm]; rfl
  | leafWrite b => rintro ⟨⟩ ⟨lf, -, hat, -⟩; rw [hat.mem]; rfl
  | leafSplitSibling b => rintro ⟨⟩ ⟨-, -, -, lf, hat, -⟩; rw [hat.mem]; rfl
  | leafSplitWrite b => rintro ⟨⟩ ⟨-, -, -, ⟨lf, hat, -⟩, -⟩; rw [hat.mem]; rfl
  | internalLocked e b => rintro ⟨⟩ ⟨-, -, nd, hat⟩; rw [hat.mem]; rfl
  | internalUnlock e b => rintro ⟨⟩ ⟨-, -, ⟨nd, hat⟩, -⟩; rw [hat.mem]; rfl
  | internalWrite e b => rintro ⟨⟩ ⟨-, nd, hat, -⟩; rw [hat.mem]; rfl
  | internalSplitSibling e b => rintro ⟨⟩ ⟨-, -, -, nd, hat, -⟩; rw [hat.mem]; rfl
  | internalSplitWrite e b => rintro ⟨⟩ ⟨-, -, -, ⟨nd, hat, -⟩, -⟩; rw [hat.mem]; rfl
  | _ => nofun

/-! ## Steps -/

/-- What is locked after a write. -/
theorem isLocked_write {s : Store L} {b : Nat} {cell : Cell L} (h : ((s.write b cell).mem a).isLocked = true) :
    (a = b ∧ cell.isLocked = true) ∨ (a ≠ b ∧ (s.mem a).isLocked = true) := by
  by_cases hab : a = b
  · rw [hab, Store.write_self] at h
    exact .inl ⟨hab, h⟩
  · rw [Store.write_of_ne _ hab] at h
    exact .inr ⟨hab, h⟩

/-- The node `a` is locked after the step by its own client, or before it by another one. -/
def LockKept (g g' : Charted L) (pc pc' : TreePc L) (a : Nat) : Prop :=
  (g'.store.mem a).isLocked = true → pc'.lockedNode = some a ∨
    ((g.store.mem a).isLocked = true ∧ pc.lockedNode ≠ some a)

theorem LockKept.same {pc' : TreePc L} (hl : ∀ a, pc.lockedNode = some a → pc'.lockedNode = some a) :
    LockKept g g pc pc' a := fun h => by
  by_cases hp : pc.lockedNode = some a
  · exact .inl (hl a hp)
  · exact .inr ⟨h, hp⟩

/-- A node is locked. -/
theorem LockKept.lock {pc' : TreePc L} {b : Nat} {cell : Cell L} {d' : Directory} (hp : pc.lockedNode = none)
    (hp' : pc'.lockedNode = some b) : LockKept g ⟨g.store.write b cell, d'⟩ pc pc' a := fun h => by
  rcases isLocked_write h with ⟨rfl, -⟩ | ⟨-, h⟩
  · exact .inl hp'
  · exact .inr ⟨h, by rw [hp]; nofun⟩

/-- A node is unlocked. -/
theorem LockKept.unlock {pc' : TreePc L} {b : Nat} {cell : Cell L} {d' : Directory} (hp : pc.lockedNode = some b)
    (hcell : cell.isLocked = false) : LockKept g ⟨g.store.write b cell, d'⟩ pc pc' a := fun h => by
  rcases isLocked_write h with ⟨-, h⟩ | ⟨hab, h⟩
  · cases hcell.symm.trans h
  · exact .inr ⟨h, fun he => hab (Option.some.inj (he.symm.trans hp))⟩

/-- A new node is written. -/
theorem LockKept.fresh {pc' : TreePc L} {b : Nat} {cell : Cell L} (hp : pc'.lockedNode = pc.lockedNode)
    (hcell : cell.isLocked = false) : LockKept g ⟨g.store.write b cell, g.dir⟩ pc pc' a := fun h => by
  rcases isLocked_write h with ⟨-, h⟩ | ⟨-, h⟩
  · cases hcell.symm.trans h
  · by_cases hl : pc.lockedNode = some a
    · exact .inl (hp.trans hl)
    · exact .inr ⟨h, hl⟩

/-- **A step** locks and unlocks what it holds, unless it fails an assertion. -/
theorem TreeMove.lockKept (hcl : cl.pc = pc) (hm : TreeMove g ch cl pc g' cl')
    (hcrash : ∀ b, cl'.pc ≠ .crashed b) : LockKept g g' pc cl'.pc a := by
  cases hm with
  | lockLeaf | lockInternal => exact .lock rfl rfl
  | unlockLeaf | writeLeaf | splitLeaf | unlockInternal | writeInternal | splitInternal => exact .unlock rfl rfl
  | writeLeafSibling | writeInternalSibling => exact .fresh rfl rfl
  | newRoot => exact LockKept.fresh (g := g) rfl rfl
  | growRoot => exact fun h => .inr ⟨h, nofun⟩
  | stuck | keyMissing | parentNull | noTarget => exact absurd rfl (hcrash _)
  | spinLeaf | spinInternal => rw [hcl]; exact .same fun _ => id
  | _ => exact .same fun _ => id

/-! ## Runs -/

namespace Tree

/-- An assertion has failed. -/
def Crashed (s : Tree L) : Prop := ∃ c cl b, s.clients c = some cl ∧ cl.pc = .crashed b

/-- Client `c` has locked the node `a`. -/
def Holds (s : Tree L) (c a : Nat) : Prop := ∃ cl, s.clients c = some cl ∧ cl.pc.lockedNode = some a

/-- Every locked node is held. -/
def LocksHeld (s : Tree L) : Prop := ∀ a, (s.store.mem a).isLocked = true → ∃ c, s.Holds c a

end Tree

section Runs

open Chime.Tree

variable {s s' : Tree L} {d d' : Directory} {x : Action L} {h es : List Event}

/-- A crashed client makes no step. -/
theorem TreeStep.crashed (hs : TreeStep s d x s' d' es) (h : s.Crashed) : s'.Crashed := by
  obtain ⟨c, cl, b, hc, hb⟩ := h
  cases hs with
  | @invoke c' key request hc' =>
    have hne : c ≠ c' := by rintro rfl; cases hc.symm.trans hc'
    exact ⟨c, cl, b, (Function.update_of_ne hne ..).trans hc, hb⟩
  | @move c' ch cl₁ cl' g' hc' hm =>
    have hne : c ≠ c' := by
      rintro rfl
      cases hc.symm.trans hc'
      rw [hb] at hm
      cases hm
    exact ⟨c, cl, b, (Function.update_of_ne hne ..).trans hc, hb⟩
  | @ret c' v cl₁ hc' hv =>
    have hne : c ≠ c' := by
      rintro rfl
      cases hc.symm.trans hc'
      cases hb.symm.trans hv
    exact ⟨c, cl, b, (Function.update_of_ne hne ..).trans hc, hb⟩

/-- **A step** loses no lock, unless an assertion fails. -/
theorem TreeStep.locksHeld (hs : TreeStep s d x s' d' es) (h : s.LocksHeld) (hno : ¬s'.Crashed) : s'.LocksHeld := by
  cases hs with
  | @invoke c key request hc =>
    intro a ha
    obtain ⟨c', cl, hcl, hl⟩ := h a ha
    have hne : c' ≠ c := by rintro rfl; cases hcl.symm.trans hc
    exact ⟨c', cl, (Function.update_of_ne hne ..).trans hcl, hl⟩
  | @move c ch cl cl' g' hc hm =>
    intro a ha
    have hcrash : ∀ b, cl'.pc ≠ .crashed b := fun b hb => hno ⟨c, cl', b, Function.update_self .., hb⟩
    rcases hm.lockKept rfl hcrash ha with hl | ⟨hl, hne⟩
    · exact ⟨c, cl', Function.update_self .., hl⟩
    · obtain ⟨c', cl₁, hcl, hl⟩ := h a hl
      have hcc : c' ≠ c := by
        rintro rfl
        cases hcl.symm.trans hc
        exact hne hl
      exact ⟨c', cl₁, (Function.update_of_ne hcc ..).trans hcl, hl⟩
  | @ret c v cl hc hv =>
    intro a ha
    obtain ⟨c', cl₁, hcl, hl⟩ := h a ha
    have hne : c' ≠ c := by
      rintro rfl
      cases hcl.symm.trans hc
      rw [hv] at hl
      cases hl
    exact ⟨c', cl₁, (Function.update_of_ne hne ..).trans hcl, hl⟩

theorem init_locksHeld : (Tree.init L).LocksHeld := by
  intro a ha
  obtain ⟨lf, lock, he, -⟩ := init_store L
  have hfree : ((Tree.init L).store.mem a).isLocked = false := by
    simp only [Tree.init]
    split
    · rfl
    · rfl
  cases hfree.symm.trans ha

/-- The invariants hold, and an assertion has failed or every locked node is held. -/
theorem run_locksHeld (hrun : (machine L).Run ValidKeys s h) :
    (∃ d, TreeGood s d) ∧ (s.Crashed ∨ s.LocksHeld) := by
  refine hrun.invariant (I := fun s _ => (∃ d, TreeGood s d) ∧ (s.Crashed ∨ s.LocksHeld))
    ⟨⟨_, init_good L⟩, .inr init_locksHeld⟩ ?_
  rintro s h a s' es - ⟨⟨d, hg⟩, hl⟩ hv hstep
  obtain ⟨d', hs⟩ := Tree.step_cases hg hstep
  refine ⟨⟨d', hs.good hg hv⟩, ?_⟩
  rcases hl with hl | hl
  · exact .inl (hs.crashed hl)
  · by_cases hno : s'.Crashed
    · exact .inl hno
    · exact .inr (hs.locksHeld hl hno)

/-- **The locks of the nodes**: in every run in which no assertion has failed, a node is locked exactly if one client
holds it. -/
theorem lock_holders (hrun : (machine L).Run ValidKeys s h) :
    s.Crashed ∨ ∀ a, (s.store.mem a).isLocked = true ↔ ∃! c, s.Holds c a := by
  obtain ⟨⟨d, hg⟩, hl⟩ := run_locksHeld hrun
  refine hl.imp_right fun hl a => ⟨fun ha => ?_, ?_⟩
  · obtain ⟨c, hc⟩ := hl a ha
    refine ⟨c, hc, fun c' hc' => ?_⟩
    obtain ⟨cl, hcl, hlock⟩ := hc
    obtain ⟨cl', hcl', hlock'⟩ := hc'
    exact Protocol.Good.apart hg hcl' hcl (TreePc.owned_of_lockedNode hlock') (TreePc.owned_of_lockedNode hlock)
  · rintro ⟨c, ⟨cl, hcl, hlock⟩, -⟩
    exact (hg.client hcl).isLocked hlock

/-- One client has locked the root leaf, another one waits for it. -/
def rootLeafLocked : List (Action .small) := operation _ 0 (.insert 11) 1 3 ++ operation _ 1 (.insert 15) 5 5

/-- The root leaf is held by the first one. -/
theorem lock_holders_rootLeaf : ∃ s h, (machine .small).Run ValidKeys s h ∧ s.Holds 0 0 ∧
    (s.Crashed ∨ ∀ a, (s.store.mem a).isLocked = true ↔ ∃! c, s.Holds c a) := by
  have hsome : (((machine .small).exec keysChecked (init _) [] rootLeafLocked).map fun y =>
      (y.1.clients 0).map (·.pc.lockedNode)) = some (some (some 0)) := by decide +kernel
  obtain ⟨⟨s, h⟩, hexec, heq⟩ := Option.map_eq_some_iff.1 hsome
  exact ⟨s, h, run_of_exec hexec, Option.map_eq_some_iff.1 heq, lock_holders (run_of_exec hexec)⟩

end Runs
end Chime

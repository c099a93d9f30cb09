import Chime.LockHolders
import Chime.Sequential

/-!
# No deadlock

A client that runs alone, while no other client holds a node, comes to the end of its operation or to a failed
assertion: every place it goes through has a rank (`Ranked`), and each of its steps leads to a lower one
(`Ranked.step`). A client that holds a node does not wait for another one, so the others can first be led to where they
hold none (`release_all`). So every operation of every state that is reached can be completed (`no_deadlock`).
-/

namespace Chime

open Boundary (Next Extends Below)

variable {L : Layout} {g g' : Charted L} {ch : Choice L} {cl cl' : Client L} {pc : TreePc L} {a : Nat}

/-! ## Ranks -/

theorem Rank.lt_iff {n s i j n' s' i' j' : Nat} : Rank.Lt (n, s, i, j) (n', s', i', j') ↔
    n < n' ∨ n = n' ∧ (s < s' ∨ s = s' ∧ (i < i' ∨ i = i' ∧ j < j')) := by
  simp only [Rank.Lt, Prod.lex_def]

/-- **The rank** of a place: the levels above the separator, the stage of the operation, and two counters within the
stage. A stage that works with a pointer of a cache has a higher one than the same stage without, a stage that goes to
the right counts the keys on the right of its node. -/
inductive Ranked (d : Directory) (top : Nat) : Rank → TreePc L → Prop
  | unlockCached {a : Nat} {w : Valock L} {p : Position} : p.fromCache = true →
      Ranked d top (top + 1, 13, 0, 0) (.leafUnlock a w (some p))
  | visitCached {p : Position} : p.fromCache = true → Ranked d top (top + 1, 12, 0, 0) (.visit p)
  | leafCached {p : Position} : p.fromCache = true → Ranked d top (top + 1, 11, 0, 0) (.leaf p)
  | lockedCached {a : Nat} {p : Position} {w : Valock L} : p.fromCache = true →
      Ranked d top (top + 1, 10, 0, 0) (.leafLocked a p w)
  | unlockStart {a : Nat} {w : Valock L} : Ranked d top (top + 1, 9, 0, 0) (.leafUnlock a w none)
  | start : Ranked d top (top + 1, 8, 0, 0) .start
  | visit {p : Position} {l : Nat} : p.fromCache = false → Points (d (p.level - 1)) l p.nodeAddr →
      Ranked d top (top + 1, 7, p.level, L.keyFull - l) (.visit p)
  | unlock {a l : Nat} {w : Valock L} {p : Position} : p.fromCache = false → Points (d 0) l p.nodeAddr →
      Ranked d top (top + 1, 6, L.keyFull - l, 3) (.leafUnlock a w (some p))
  | leaf {p : Position} {l : Nat} : p.fromCache = false → Points (d 0) l p.nodeAddr →
      Ranked d top (top + 1, 6, L.keyFull - l, 2) (.leaf p)
  | locked {a l : Nat} {p : Position} {w : Valock L} : p.fromCache = false → d 0 l = some a →
      Ranked d top (top + 1, 6, L.keyFull - l, 1) (.leafLocked a p w)
  | leafWrite {a : Nat} {x : LeafWrite L} : Ranked d top (top + 1, 5, 0, 0) (.leafWrite a x)
  | leafSplitSibling {a new : Nat} {x : LeafSplit L} :
      Ranked d top (top + 1, 5, 0, 0) (.leafSplitSibling a new x)
  | leafSplitWrite {a new : Nat} {x : LeafSplit L} :
      Ranked d top (top + 1, 4, 0, 0) (.leafSplitWrite a new x)
  | parent {e : Separator} : Ranked d top (top - e.level, 12, 0, 0) (.parent e)
  | internalCached {e : Separator} {p : GlobalAddress} :
      Ranked d top (top - e.level, 11, 0, 0) (.internal e p true)
  | internalLockedCached {e : Separator} {a : Nat} :
      Ranked d top (top - e.level, 10, 0, 0) (.internalLocked e a true)
  | unlockRoot {e : Separator} {a : Nat} : Ranked d top (top - e.level, 9, 0, 0) (.internalUnlock e a none)
  | readRoot {e : Separator} : Ranked d top (top - e.level, 8, 0, 0) (.readRoot e)
  | insertInternal {e : Separator} {level l : Nat} {p : GlobalAddress} : Points (d (level - 1)) l p →
      Ranked d top (top - e.level, 7, level, L.keyFull - l) (.insertInternal e level p)
  | internalUnlock {e : Separator} {a l : Nat} {p : GlobalAddress} : Points (d e.level) l p →
      Ranked d top (top - e.level, 6, L.keyFull - l, 3) (.internalUnlock e a (some p))
  | internal {e : Separator} {l : Nat} {p : GlobalAddress} : Points (d e.level) l p →
      Ranked d top (top - e.level, 6, L.keyFull - l, 2) (.internal e p false)
  | internalLocked {e : Separator} {a l : Nat} : d e.level l = some a →
      Ranked d top (top - e.level, 6, L.keyFull - l, 1) (.internalLocked e a false)
  | internalWrite {e : Separator} {a : Nat} {nd : InternalNode} :
      Ranked d top (top - e.level, 5, 0, 0) (.internalWrite e a nd)
  | internalSplitSibling {e : Separator} {a new : Nat} {x : InternalSplit} :
      Ranked d top (top - e.level, 5, 0, 0) (.internalSplitSibling e a new x)
  | internalSplitWrite {e : Separator} {a new : Nat} {x : InternalSplit} :
      Ranked d top (top - e.level, 4, 0, 0) (.internalSplitWrite e a new x)
  | newRoot {level a k sib : Nat} : Ranked d top (0, 1, 0, 0) (.newRoot level a k sib)
  | rootCas {level a r k sib : Nat} : Ranked d top (0, 0, 0, 0) (.rootCas level a r k sib)

/-- **A step** of a client leads to a lower rank, to the end, or to a failed assertion, if no other client holds a node
and it does not look up the cache. -/
theorem Ranked.step {top : Nat} {r : Rank} (hr : Ranked g.dir top r pc) (htop : g.store.root.level = top) (hg : TreeOk g)
    (h3 : 3 ≤ L.internalSpanSize) (hc : ClientOk g cl) (hcl : cl.pc = pc) (hch : ch.cache = none)
    (hfree : ∀ a, (g.store.mem a).isLocked = true → pc.lockedNode = some a) (hm : TreeMove g ch cl pc g' cl') :
    (∃ r', Rank.Lt r' r ∧ Ranked g'.dir top r' cl'.pc) ∨ (∃ v, cl'.pc = .done v) ∨ ∃ b, cl'.pc = .crashed b := by
  have hc' : ClientOk g' cl' := (hm.change hg hc hcl).client
  have hlevel : ∀ {m l a}, g.dir m l = some a → m < top := htop ▸ hg.below_root
  obtain ⟨-, -, hpc⟩ := hc
  rw [hcl] at hpc
  cases hm with
  | found | absent | writeLeaf | growRoot | writeInternal => exact .inr (.inl ⟨_, rfl⟩)
  | stuck | keyMissing | parentNull | noTarget => exact .inr (.inr ⟨_, rfl⟩)
  | fromRoot =>
    cases hr
    exact .inl ⟨_, Rank.lt_iff.2 (by omega), .visit (p := ⟨_, _, _, false⟩) rfl hg.root⟩
  | fromCache hc => cases hch.symm.trans hc
  | atLeaf h1 =>
    cases hr with
    | visitCached hfc => exact .inl ⟨_, Rank.lt_iff.2 (by omega), .leafCached hfc⟩
    | visit hfc hp =>
      rw [h1] at hp
      exact .inl ⟨_, Rank.lt_iff.2 (by omega), .leaf hfc hp⟩
  | staleVisit hfc =>
    cases hr with
    | visitCached => exact .inl ⟨_, Rank.lt_iff.2 (by omega), .start⟩
    | visit hfc' => cases hfc.symm.trans hfc'
  | @visitRight p a l nd locked _ hpa hnd _ hpt hfc =>
    cases hr with
    | visitCached hfc' => cases hfc.symm.trans hfc'
    | visit _ hp =>
      obtain rfl := hg.begins hp hpa hnd.linked
      have hlt := hnd.ok.next.lt
      have hkf := (hg.range hnd.linked).2
      refine .inl ⟨(top + 1, 7, p.level, L.keyFull - nd.highest), Rank.lt_iff.2 (by omega), ?_⟩
      exact .visit (p := ⟨p.level, nd.siblingPtr, p.siblingAddr, false⟩) rfl hpt
  | @down p a l nd locked _ hpa hnd =>
    obtain ⟨b, -, hpb⟩ := hc'.pc.2.node.points h3
    have hnl := hnd.ok.level
    refine .inl ⟨(top + 1, 7, nd.level, L.keyFull - b), ?_,
      .visit (p := ⟨nd.level, _, _, false⟩) rfl hpb⟩
    cases hr with
    | visitCached => exact Rank.lt_iff.2 (by omega)
    | visit => exact Rank.lt_iff.2 (by omega)
  | @walk p a l h h' lf lock sib _ hpa hat _ _ _ _ hpt hfc =>
    cases hr with
    | leafCached hfc' => cases hfc.symm.trans hfc'
    | leaf _ hp =>
      obtain rfl := hg.begins hp hpa hat.linked
      have hlt := hat.ok.next.lt
      have hkf := (hg.range hat.linked).2
      exact .inl ⟨(top + 1, 6, L.keyFull - h, 2), Rank.lt_iff.2 (by omega),
        .leaf (p := ⟨1, sib, p.siblingAddr, false⟩) rfl hpt⟩
  | staleLeaf hfc =>
    cases hr with
    | leafCached => exact .inl ⟨_, Rank.lt_iff.2 (by omega), .start⟩
    | leaf hfc' => cases hfc.symm.trans hfc'
  | spinLeaf _ _ hmem =>
    cases hfree _ (by rw [hmem]; rfl)
  | @lockLeaf p a lf w _ hpa hmem =>
    cases hr with
    | leafCached hfc => exact .inl ⟨_, Rank.lt_iff.2 (by omega), .lockedCached hfc⟩
    | leaf hfc hp =>
      obtain ⟨b, hb, hpb⟩ := hp
      cases hpa.symm.trans hpb
      exact .inl ⟨_, Rank.lt_iff.2 (by omega), .locked hfc hb⟩
  | staleLocked hfc =>
    cases hr with
    | lockedCached => exact .inl ⟨_, Rank.lt_iff.2 (by omega), .unlockStart⟩
    | locked hfc' => cases hfc.symm.trans hfc'
  | @insertRight a l h v p w lf sib _ hat _ hpt =>
    refine .inl ⟨(top + 1, 6, L.keyFull - h, 3), ?_, .unlock (p := ⟨1, sib, .null, false⟩) rfl hpt⟩
    have hlt := hat.ok.next.lt
    have hkf := (hg.range hat.linked).2
    cases hr with
    | lockedCached => exact Rank.lt_iff.2 (by omega)
    | locked _ hl =>
      obtain rfl := hg.inj_level 0 _ _ _ hl hat.linked
      exact Rank.lt_iff.2 (by omega)
  | @updateRight a l h h' v p w lf sib _ hat _ _ _ _ hpt =>
    refine .inl ⟨(top + 1, 6, L.keyFull - h, 3), ?_,
      .unlock (p := ⟨1, sib, p.siblingAddr, false⟩) rfl hpt⟩
    have hlt := hat.ok.next.lt
    have hkf := (hg.range hat.linked).2
    cases hr with
    | lockedCached => exact Rank.lt_iff.2 (by omega)
    | locked _ hl =>
      obtain rfl := hg.inj_level 0 _ _ _ hl hat.linked
      exact Rank.lt_iff.2 (by omega)
  | toWrite =>
    refine .inl ⟨_, ?_, .leafWrite⟩
    cases hr <;> exact Rank.lt_iff.2 (by omega)
  | toSplit =>
    refine .inl ⟨_, ?_, .leafSplitSibling⟩
    cases hr <;> exact Rank.lt_iff.2 (by omega)
  | unlockLeaf =>
    cases hr with
    | unlockCached hfc => exact .inl ⟨_, Rank.lt_iff.2 (by omega), .leafCached hfc⟩
    | unlockStart => exact .inl ⟨_, Rank.lt_iff.2 (by omega), .start⟩
    | unlock hfc hp => exact .inl ⟨_, Rank.lt_iff.2 (by omega), .leaf hfc hp⟩
  | writeLeafSibling =>
    cases hr
    exact .inl ⟨_, Rank.lt_iff.2 (by omega), .leafSplitWrite⟩
  | @splitLeaf a new x =>
    cases hr
    left
    cases hroot : x.isRoot with
    | true => exact ⟨_, Rank.lt_iff.2 (by omega), .newRoot⟩
    | false => exact ⟨_, Rank.lt_iff.2 (by omega), .parent⟩
  | newRoot =>
    cases hr
    exact .inl ⟨_, Rank.lt_iff.2 (by omega), .rootCas⟩
  | @parentPath e hne =>
    cases hr
    obtain ⟨-, hpath⟩ := hpc
    obtain ⟨l, -, hp⟩ := hpath e.level le_rfl hne
    exact .inl ⟨_, Rank.lt_iff.2 (by omega), .internal hp⟩
  | parentCache hc => cases hch.symm.trans hc
  | parentRoot =>
    cases hr
    exact .inl ⟨_, Rank.lt_iff.2 (by omega), .readRoot⟩
  | readRoot =>
    cases hr
    exact .inl ⟨_, Rank.lt_iff.2 (by omega), .insertInternal hg.root⟩
  | @atTarget e level p _ hlev =>
    cases hr with
    | insertInternal hp =>
      rw [hlev] at hp
      exact .inl ⟨_, Rank.lt_iff.2 (by omega), .internal hp⟩
  | @targetRight e level a l p nd locked _ _ hpa hnd _ hpt =>
    cases hr with
    | insertInternal hp =>
      obtain rfl := hg.begins hp hpa hnd.linked
      have hlt := hnd.ok.next.lt
      have hkf := (hg.range hnd.linked).2
      exact .inl ⟨_, Rank.lt_iff.2 (by omega), .insertInternal hpt⟩
  | @targetDown e level a l p nd locked _ _ hpa hnd =>
    obtain ⟨-, -, -, hheld⟩ := hc'.pc
    obtain ⟨b, -, hpb⟩ := hheld.points h3
    have hnl := hnd.ok.level
    cases hr with
    | insertInternal =>
      exact .inl ⟨_, Rank.lt_iff.2 (by omega), .insertInternal hpb⟩
  | spinInternal _ hmem => cases hfree _ (by rw [hmem]; rfl)
  | @lockInternal e p fc a nd hpa hmem =>
    cases hr with
    | internalCached => exact .inl ⟨_, Rank.lt_iff.2 (by omega), .internalLockedCached⟩
    | internal hp =>
      obtain ⟨b, hb, hpb⟩ := hp
      cases hpa.symm.trans hpb
      exact .inl ⟨_, Rank.lt_iff.2 (by omega), .internalLocked hb⟩
  | staleInternal hfc =>
    cases hr with
    | internalLockedCached => exact .inl ⟨_, Rank.lt_iff.2 (by omega), .unlockRoot⟩
    | internalLocked => cases hfc
  | @internalRight e a l fc nd hnd _ hpt =>
    have hlt := hnd.ok.next.lt
    have hkf := (hg.range hnd.linked).2
    refine .inl ⟨_, ?_, .internalUnlock hpt⟩
    cases hr with
    | internalLockedCached => exact Rank.lt_iff.2 (by omega)
    | internalLocked hl =>
      obtain rfl := hg.inj_level _ _ _ _ hl hnd.linked
      exact Rank.lt_iff.2 (by omega)
  | toInternalWrite =>
    refine .inl ⟨_, ?_, .internalWrite⟩
    cases hr <;> exact Rank.lt_iff.2 (by omega)
  | toInternalSplit =>
    refine .inl ⟨_, ?_, .internalSplitSibling⟩
    cases hr <;> exact Rank.lt_iff.2 (by omega)
  | unlockInternal =>
    cases hr with
    | unlockRoot => exact .inl ⟨_, Rank.lt_iff.2 (by omega), .readRoot⟩
    | internalUnlock hp => exact .inl ⟨_, Rank.lt_iff.2 (by omega), .internal hp⟩
  | writeInternalSibling =>
    cases hr
    exact .inl ⟨_, Rank.lt_iff.2 (by omega), .internalSplitWrite⟩
  | @splitInternal e a new x =>
    cases hr
    left
    -- the node that is split is linked, so its level is below the root
    obtain ⟨-, -, -, ⟨nd, hat, -⟩, -⟩ := hpc
    obtain ⟨l, -, hl⟩ := hat.linked
    have hlt := hlevel hl
    cases hroot : x.isRoot with
    | true => exact ⟨_, Rank.lt_iff.2 (by omega), .newRoot⟩
    | false =>
      exact ⟨(top - (e.level + 1), 12, 0, 0), Rank.lt_iff.2 (by omega),
        Ranked.parent (e := ⟨e.level + 1, x.splitKey, .at new⟩)⟩

/-! ## What a client with a lock does -/

/-- The steps until a client has unlocked its node. -/
def TreePc.lockedSteps : TreePc L → Nat
  | .leafLocked .. | .internalLocked .. => 3
  | .leafSplitSibling .. | .internalSplitSibling .. => 2
  | .leafUnlock .. | .leafWrite .. | .leafSplitWrite .. | .internalUnlock .. | .internalWrite ..
  | .internalSplitWrite .. => 1
  | _ => 0

theorem TreePc.lockedSteps_eq_zero (h : pc.lockedSteps = 0) : pc.lockedNode = none := by
  cases pc <;> first | rfl | cases h

theorem TreePc.not_ended (h : pc.lockedSteps ≠ 0) : (∀ v, pc ≠ .done v) ∧ ∀ b, pc ≠ .crashed b := by
  constructor <;> rintro _ rfl <;> exact h rfl

/-- **A client with a lock does not wait**: each step brings it closer to the unlock. -/
theorem TreeMove.lockedSteps (hm : TreeMove g ch cl pc g' cl') (h : pc.lockedSteps ≠ 0) :
    cl'.pc.lockedSteps < pc.lockedSteps := by
  cases hm with
  | @splitLeaf a new x => cases x.isRoot <;> simp [Client.updateParent, TreePc.lockedSteps]
  | @splitInternal e a new x => cases x.isRoot <;> simp [Client.updateParent, TreePc.lockedSteps]
  | @unlockLeaf a w next => cases next <;> exact Nat.zero_lt_one
  | @unlockInternal e a next => cases next <;> exact Nat.zero_lt_one
  | staleLocked | insertRight | updateRight | toWrite | toSplit | stuck | keyMissing | writeLeaf | writeLeafSibling
  | staleInternal | internalRight | toInternalWrite | toInternalSplit | writeInternal | writeInternalSibling =>
    simp [TreePc.lockedSteps]
  | _ => exact absurd rfl h

/-! ## Runs of one client -/

section Runs

open Chime.Tree

variable {s s' : Tree L} {d : Directory} {c : Nat} {h : List Event}

/-- The invariants hold, and an assertion has failed or every locked node is held. -/
def Tree.Sound (s : Tree L) : Prop := (∃ d, TreeGood s d) ∧ (s.Crashed ∨ s.LocksHeld)

/-- A choice without a cache. -/
def Choice.uncached : Choice L := ⟨none, LeafNode.empty, none⟩

/-- **A client in an operation has a step**, which leaves the others where they are. -/
theorem TreeGood.exists_step (hg : TreeGood s d) (hl : s.Crashed ∨ s.LocksHeld) (h3 : 3 ≤ L.internalSpanSize)
    (hc : s.clients c = some cl) (hdone : ∀ v, cl.pc ≠ .done v) (hcrash : ∀ b, cl.pc ≠ .crashed b) :
    ∃ g' cl' es, TreeMove ⟨s.store, d⟩ .uncached cl cl.pc g' cl' ∧
      (machine L).step s (.step c .uncached) = some (⟨g'.store, Function.update s.clients c (some cl')⟩, es) ∧
      TreeGood ⟨g'.store, Function.update s.clients c (some cl')⟩ g'.dir ∧
      (Crashed ⟨g'.store, Function.update s.clients c (some cl')⟩ ∨
        LocksHeld ⟨g'.store, Function.update s.clients c (some cl')⟩) := by
  obtain ⟨s', cl', hstep⟩ := Client.exists_step hg.shared h3 (hg.client hc)
    (show (Choice.uncached : Choice L).cache = none from rfl) hdone hcrash
  obtain ⟨d', hm⟩ := Client.step_moves hg.shared (hg.client hc) hstep
  have hs := TreeStep.move hc hm
  refine ⟨⟨s', d'⟩, cl', if cl.writesLeaf then [.write c cl.key cl.request.value] else [], hm, ?_,
    hs.good hg (by exact trivial), ?_⟩
  · simp only [machine, Tree.step, hc, hstep]
  · rcases hl with hl | hl
    · exact .inl (hs.crashed hl)
    · by_cases hno : Crashed ⟨s', Function.update s.clients c (some cl')⟩
      · exact .inl hno
      · exact .inr (hs.locksHeld hl hno)

/-- Client `c` can be led to where it holds no node. -/
theorem release (h3 : 3 ≤ L.internalSpanSize) (hs : s.Sound) (c : Nat) (h : List Event) :
    ∃ s' h', (machine L).Steps ValidKeys s h s' h' ∧ s'.Sound ∧ (∀ a, ¬s'.Holds c a) ∧
      ∀ c' ≠ c, s'.clients c' = s.clients c' := by
  let I (n : Nat) (s' : Tree L) : Prop := s'.Sound ∧ (∀ c' ≠ c, s'.clients c' = s.clients c') ∧
    ∀ cl, s'.clients c = some cl → cl.pc.lockedSteps ≤ n
  have hlead := Machine.Steps.of_rank (M := machine L) (G := ValidKeys) Nat.lt_wfRel.wf (I := I)
    (Q := fun s' => s'.Sound ∧ (∀ a, ¬s'.Holds c a) ∧ ∀ c' ≠ c, s'.clients c' = s.clients c') ?_
  · exact hlead 3 s ⟨hs, fun _ _ => rfl, fun cl _ => by cases cl.pc <;> simp [TreePc.lockedSteps]⟩ h
  rintro n s₁ ⟨⟨⟨d, hg⟩, hl⟩, hother, hn⟩
  by_cases hidle : ∀ a, ¬s₁.Holds c a
  · exact .inl ⟨⟨⟨d, hg⟩, hl⟩, hidle, hother⟩
  obtain ⟨a, cl, hc, ha⟩ := not_forall_not.1 hidle
  have hpos : cl.pc.lockedSteps ≠ 0 := fun h0 => by cases (TreePc.lockedSteps_eq_zero h0).symm.trans ha
  obtain ⟨hdone, hcrash⟩ := TreePc.not_ended hpos
  obtain ⟨g', cl', es, hm, hstep, hg', hl'⟩ := hg.exists_step hl h3 hc hdone hcrash
  have hlt := hm.lockedSteps hpos
  have hle := hn cl hc
  refine .inr ⟨.step c .uncached, _, _, trivial, hstep, .inr ⟨n - 1, Nat.sub_lt (by omega) Nat.zero_lt_one,
    ⟨⟨_, hg'⟩, hl'⟩, fun c' hne => ?_, fun cl₁ hcl₁ => ?_⟩⟩
  · exact (Function.update_of_ne hne ..).trans (hother c' hne)
  · have hself : Function.update s₁.clients c (some cl') c = some cl' := Function.update_self ..
    cases hself.symm.trans hcl₁
    omega

end Runs
end Chime

import Chime.LowerFence

/-!
# Root growth

The node that was the root is unlocked before the root entry moves. While it is split and the entry still names it, the
client that has split it stands before the compare-and-swap of the entry (`window`), in every run. So a client that
reads the root entry for a separator finds a level above the separator's if and only if no client grows the tree from
the level below it (`level_lt_iff`); when all clients meet this, no descent of `insert_internal` misses its level
(`enters_above`). In the window a second split can reach `insert_internal` with the old entry, and fails its assertion
(`not_enters_above`).
-/

namespace Chime

open Boundary (Next Extends Below)

variable {L : Layout} {s s' : Tree L} {d d' : Directory} {es : List Tree.Event}

/-- The client has split the root node of `level`, and has not yet moved the root entry. -/
def TreePc.growsRoot (level : Nat) : TreePc L → Prop
  | .newRoot m _ _ _ => m = level
  | .rootCas m _ _ _ _ => m = level
  | _ => False

/-- No client grows the tree from `level`. -/
def NoGrowth (s : Tree L) (level : Nat) : Prop := ∀ c cl, s.clients c = some cl → ¬cl.pc.growsRoot level

/-- A client reads the root entry for a separator only while no client grows the tree from the level below the
separator's. -/
def TimelyRead (s : Tree L) (a : Tree.Action L) : Prop :=
  Tree.ValidKeys s a ∧ ∀ c ch, a = .step c ch → ∀ cl e, s.clients c = some cl → cl.pc = .readRoot e →
    NoGrowth s (e.level - 1)

/-- Every client in `insert_internal` is above its target level, and no client has failed `assert(level > 1)`; where the
descent ends, it is at a node of the target level. -/
def EntersAbove (s : Tree L) : Prop := ∀ c cl, s.clients c = some cl →
  (∀ e level p, cl.pc = .insertInternal e level p → e.level < level) ∧ cl.pc ≠ .crashed .levelOne ∧
  ∀ e p fromCache nd locked, cl.pc = .internal e p fromCache → s.store.read p = .internal nd locked → nd.level = e.level

/-! ## The window -/

/-- The top level has a boundary after the first. -/
def RootSplit (s : Tree L) (d : Directory) : Prop := ∃ k b, 1 < k ∧ d (s.store.root.level - 1) k = some b

/-- While the root node is split and the root entry still names it, a client owns the root entry. -/
def Window (s : Tree L) (d : Directory) : Prop :=
  RootSplit s d → ∃ c cl, s.clients c = some cl ∧ .root ∈ cl.pc.owned

theorem growsRoot_of_owned {g : Charted L} {cl : Client L} (hc : ClientOk g cl) (ho : .root ∈ cl.pc.owned) {level : Nat}
    (hlevel : g.store.root.level = level + 1) : cl.pc.growsRoot level := by
  obtain ⟨-, -, hpc⟩ := hc
  revert hpc ho
  cases cl.pc <;> simp only [TreePc.owned, List.mem_cons, List.not_mem_nil, or_false, reduceCtorEq, false_imp_iff]
  case newRoot =>
    rintro - ⟨-, -, hroot⟩
    rw [hroot] at hlevel
    exact Nat.succ.inj hlevel
  case rootCas =>
    rintro - ⟨-, -, hroot, -⟩
    rw [hroot] at hlevel
    exact Nat.succ.inj hlevel

theorem level_of_growsRoot {g : Charted L} {cl : Client L} (hc : ClientOk g cl) {level : Nat}
    (hgrows : cl.pc.growsRoot level) : g.store.root.level = level + 1 := by
  obtain ⟨-, -, hpc⟩ := hc
  revert hpc hgrows
  cases cl.pc with
  | newRoot m a k sib =>
    rintro rfl ⟨-, -, hroot⟩
    rw [hroot]
  | rootCas m a r k sib =>
    rintro rfl ⟨-, -, hroot, -⟩
    rw [hroot]
  | _ => exact fun h _ => absurd h id

/-- Apart from splits and the growth of the root, a move leaves the directory and the root entry, and the owner of the
root entry keeps it. -/
theorem TreeMove.quiet {g g' : Charted L} {ch : Choice L} {cl cl' : Client L} {pc : TreePc L}
    (hm : TreeMove g ch cl pc g' cl') :
    (g'.dir = g.dir ∧ g'.store.root = g.store.root ∧ (.root ∈ pc.owned → .root ∈ cl'.pc.owned)) ∨
    (∃ a new x, pc = .leafSplitWrite a new x) ∨ (∃ e a new x, pc = .internalSplitWrite e a new x) ∨
    ∃ level a r k sib, pc = .rootCas level a r k sib := by
  cases hm
  case splitLeaf => exact .inr (.inl ⟨_, _, _, rfl⟩)
  case splitInternal => exact .inr (.inr (.inl ⟨_, _, _, _, rfl⟩))
  case growRoot => exact .inr (.inr (.inr ⟨_, _, _, _, _, rfl⟩))
  all_goals exact .inl ⟨rfl, rfl, by simp [TreePc.owned]⟩

/-- After a split of the only node of a level, its client owns the root entry. -/
theorem window_link {c m a k new l h : Nat} {cl : Client L} {isRoot : Bool} {cell : Cell L}
    (hg : TreeOk ⟨s.store, d⟩) (hc : s.clients c = some cl) (ho : .root ∉ cl.pc.owned) (hw : Window s d)
    (ha : d m l = some a) (hn : Next (d m) L.keyFull l h) (hroot : isRoot = true ↔ l = 1 ∧ h = L.keyFull) :
    Window ⟨s.store.write a cell, Function.update s.clients c (some (cl.updateParent isRoot m a k new))⟩
      (d.insert m k new) := by
  rintro ⟨k', b, h1, hb⟩
  -- the client of the step does not own the entry before
  have hother : RootSplit s d → ∃ c' cl', Function.update s.clients c (some (cl.updateParent isRoot m a k new)) c' =
      some cl' ∧ .root ∈ cl'.pc.owned := by
    intro hsplit
    obtain ⟨c', cl', hc', ho'⟩ := hw hsplit
    have hne : c' ≠ c := by
      rintro rfl
      cases hc.symm.trans hc'
      exact ho ho'
    exact ⟨c', cl', by rwa [Function.update_of_ne hne], ho'⟩
  rcases Directory.insert_cases hb with ⟨hm, -, -⟩ | hold
  swap
  · exact hother ⟨k', b, h1, hold⟩
  have hm : s.store.root.level - 1 = m := hm
  by_cases hsplit : RootSplit s d
  · exact hother hsplit
  -- the level has one boundary
  have honly : ∀ j b, d m j = some b → ¬1 < j := fun j b hj h1 => hsplit ⟨j, b, h1, hm ▸ hj⟩
  have hl : l = 1 := by
    have := (hg.range ha).1
    have := honly l a ha
    omega
  have hh : h = L.keyFull := by
    rcases hn.bound with hh | ⟨b, hb⟩
    · exact hh
    · exact absurd (by have := hn.lt; omega) (honly h b hb)
  refine ⟨c, _, Function.update_self .., ?_⟩
  rw [Client.updateParent, if_pos (hroot.2 ⟨hl, hh⟩)]
  simp [TreePc.owned]

theorem TreeStep.window (hg : TreeGood s d) (hw : Window s d) {a : Tree.Action L} (hs : TreeStep s d a s' d' es) :
    Window s' d' := by
  have hlift : ∀ {c : Nat} {f : Option (Client L)}, (∀ cl, s.clients c = some cl → .root ∈ cl.pc.owned →
      ∃ cl', f = some cl' ∧ .root ∈ cl'.pc.owned) → (∃ c' cl', s.clients c' = some cl' ∧ .root ∈ cl'.pc.owned) →
      ∃ c' cl', Function.update s.clients c f c' = some cl' ∧ .root ∈ cl'.pc.owned := by
    rintro c f hf ⟨c', cl', hc', ho⟩
    by_cases hcc : c' = c
    · subst hcc
      obtain ⟨cl', he, ho⟩ := hf cl' hc' ho
      exact ⟨c', cl', by rw [Function.update_self, he], ho⟩
    · exact ⟨c', cl', by rwa [Function.update_of_ne hcc], ho⟩
  cases hs with
  | invoke hc => exact fun hsplit => hlift (fun cl hcl _ => by cases hc.symm.trans hcl) (hw hsplit)
  | ret hc hpc =>
    refine fun hsplit => hlift (fun cl hcl ho => ?_) (hw hsplit)
    cases hc.symm.trans hcl
    rw [hpc] at ho
    cases ho
  | @move c ch cl cl' g' hc hm =>
    have hok := hg.client hc
    rcases hm.quiet with ⟨hdir, hroot, hkeep⟩ | ⟨a, new, x, hpc⟩ | ⟨e, a, new, x, hpc⟩ | ⟨level, a, r, k, sib, hpc⟩
    · rintro ⟨k, b, h1, hb⟩
      simp only [hroot, hdir] at hb
      refine hlift (fun cl₁ hcl ho => ?_) (hw ⟨k, b, h1, hb⟩)
      cases hc.symm.trans hcl
      exact ⟨cl', rfl, hkeep ho⟩
    · have hpcOk := hok.pc
      rw [hpc] at hm hpcOk
      cases hm
      obtain ⟨-, -, -, ⟨lf, ⟨⟨l, -, hl⟩, hm, -⟩, hx⟩, -⟩ := hpcOk
      obtain ⟨h, hat⟩ := hg.shared.leafAt hl hm
      exact window_link hg.shared hc (by simp [hpc, TreePc.owned]) hw hl hat.ok.next (hx.isRoot ▸ hat.ok.root)
    · have hpcOk := hok.pc
      rw [hpc] at hm hpcOk
      cases hm
      obtain ⟨hs, -, -, ⟨nd, ⟨⟨l, -, hl⟩, hm⟩, -, hx⟩, -⟩ := hpcOk
      obtain ⟨nd', locked, hnd⟩ := hg.shared.internalAt hs.level_pos hl
      cases hm.symm.trans hnd.mem
      refine window_link hg.shared hc (by simp [hpc, TreePc.owned]) hw hl hnd.ok.next ?_
      rw [hx.isRoot, InternalNode.isRoot, hnd.ok.lowest]
      exact decide_eq_true_iff
    · have hpcOk := hok.pc
      rw [hpc] at hm hpcOk
      cases hm
      obtain ⟨-, -, hroot, -⟩ := hpcOk
      rintro ⟨k', b, h1, hb⟩
      rcases Directory.insert_cases hb with ⟨-, rfl, -⟩ | hold
      · exact absurd h1 (lt_irrefl _)
      · have := hg.shared.below_root hold
        rw [hroot] at this
        exact absurd this (Nat.lt_irrefl _)

theorem init_window (L : Layout) : Window (Tree.init L) rootDirectory := by
  rintro ⟨k, b, h1, hb⟩
  obtain ⟨-, rfl, -⟩ := rootDirectory_eq hb
  exact absurd h1 (lt_irrefl _)

/-- **In every run** the window has an owner. -/
theorem tree_window {h : List Tree.Event} (hrun : (Tree.machine L).Run Tree.ValidKeys s h) :
    ∃ d, TreeGood s d ∧ Window s d := by
  refine hrun.invariant (I := fun s _ => ∃ d, TreeGood s d ∧ Window s d) ⟨_, init_good L, init_window L⟩ ?_
  rintro s h a s' es - ⟨d, hg, hw⟩ hv hs
  obtain ⟨d', hs⟩ := Tree.step_cases hg hs
  exact ⟨d', hs.good hg hv, hs.window hg hw⟩

/-- **The condition is exact**: the root entry is above the separator if and only if no client grows the tree from the
level below the separator's. -/
theorem level_lt_iff (hg : TreeGood s d) (hw : Window s d) {c : Nat} {cl : Client L} (hc : s.clients c = some cl)
    {e : Separator} (hpc : cl.pc = .readRoot e) : e.level < s.store.root.level ↔ NoGrowth s (e.level - 1) := by
  have hok := (hg.client hc).pc
  rw [hpc] at hok
  obtain ⟨hs, -⟩ := hok
  obtain ⟨b, hb, -⟩ := hs.points
  have hlt := hg.shared.below_root hb
  have hpos := hs.level_pos
  simp only at hlt
  constructor
  · intro hle c' cl' hc' hgrows
    have := level_of_growsRoot (hg.client hc') hgrows
    simp only at this
    omega
  · intro hno
    by_contra hge
    have hlevel : s.store.root.level = e.level - 1 + 1 := by omega
    obtain ⟨c', cl', hc', ho⟩ := hw ⟨e.key, b, hs.fresh.one_lt, by rw [hlevel, Nat.add_sub_cancel]; exact hb⟩
    exact hno c' cl' hc' (growsRoot_of_owned (hg.client hc') ho hlevel)

/-! ## Descents to the target level -/

/-- A client is above its target level, and has not failed to meet it. -/
def TreePc.Above : TreePc L → Prop
  | .insertInternal e level _ => e.level < level
  | .crashed a => a ≠ .levelOne
  | _ => True

/-- A move keeps a client above its target level, if the root entry is above it when it is read. -/
theorem TreeMove.above {g g' : Charted L} {ch : Choice L} {cl cl' : Client L} {pc : TreePc L} (hcl : cl.pc = pc)
    (hpc : PcOk g cl pc) (hread : ∀ e, pc = .readRoot e → e.level < g.store.root.level) (ha : pc.Above)
    (hm : TreeMove g ch cl pc g' cl') : cl'.pc.Above := by
  cases hm
  case readRoot e => exact hread e rfl
  case noTarget e level p hlevel =>
    have := hpc.1.level_pos
    have hlt : e.level < level := ha
    omega
  case targetRight => exact ha
  case targetDown e level a l p nd locked hlevel hne hpa hnd hl hk =>
    have hlt : e.level < level := ha
    show e.level < nd.level
    rw [hnd.ok.level]
    omega
  case stuck hb => rcases hb with rfl | rfl <;> exact nofun
  case keyMissing => exact nofun
  case parentNull => exact nofun
  case unlockLeaf next _ _ => cases next <;> trivial
  case unlockInternal next _ _ => cases next <;> trivial
  case splitLeaf x =>
    show (Client.updateParent cl x.isRoot _ _ _ _).pc.Above
    rw [Client.updateParent]
    split <;> trivial
  case splitInternal x =>
    show (Client.updateParent cl x.isRoot _ _ _ _).pc.Above
    rw [Client.updateParent]
    split <;> trivial
  case spinLeaf => exact hcl ▸ ha
  case spinInternal => exact hcl ▸ ha
  all_goals trivial

/-- All clients are above their target levels. -/
def AllAbove (s : Tree L) : Prop := ∀ c cl, s.clients c = some cl → cl.pc.Above

theorem TreeStep.above (hg : TreeGood s d) (hw : Window s d) (ha : AllAbove s) {a : Tree.Action L} (ht : TimelyRead s a)
    (hs : TreeStep s d a s' d' es) : AllAbove s' := by
  have hset : ∀ {c : Nat} {f : Option (Client L)}, (∀ cl, f = some cl → cl.pc.Above) →
      ∀ c' cl, Function.update s.clients c f c' = some cl → cl.pc.Above := by
    intro c f hf c' cl hcl
    by_cases hcc : c' = c
    · subst hcc
      rw [Function.update_self] at hcl
      exact hf cl hcl
    · rw [Function.update_of_ne hcc] at hcl
      exact ha c' cl hcl
  cases hs with
  | invoke hc =>
    refine hset fun cl hcl => ?_
    cases hcl
    trivial
  | ret hc hpc => exact hset fun _ h => by cases h
  | @move c ch cl cl' g' hc hm =>
    refine hset fun cl₁ hcl => ?_
    cases hcl
    exact hm.above rfl (hg.client hc).pc
      (fun e hpc => (level_lt_iff hg hw hc hpc).2 (ht.2 c ch rfl cl e hc hpc)) (ha c cl hc)

/-- **Root growth**: when the root entry is read for a separator only while no client grows the tree from the level
below the separator's, every descent of `insert_internal` starts above its target level and meets it, and `assert(level
> 1)` holds. -/
theorem enters_above {h : List Tree.Event} (hrun : (Tree.machine L).Run TimelyRead s h) : EntersAbove s := by
  have hinv : ∃ d, (TreeGood s d ∧ Window s d) ∧ AllAbove s := by
    refine hrun.invariant (I := fun s _ => ∃ d, (TreeGood s d ∧ Window s d) ∧ AllAbove s)
      ⟨_, ⟨init_good L, init_window L⟩, fun _ _ h => by cases h⟩ ?_
    rintro s h a s' es - ⟨d, ⟨hg, hw⟩, ha⟩ ht hs
    obtain ⟨d', hs⟩ := Tree.step_cases hg hs
    exact ⟨d', ⟨hs.good hg ht.1, hs.window hg hw⟩, hs.above hg hw ha ht⟩
  obtain ⟨d, ⟨hg, -⟩, ha⟩ := hinv
  refine fun c cl hc => ⟨fun e level p hpc => ?_, fun hpc => ?_, fun e p fromCache nd locked hpc hread => ?_⟩
  · have hab := ha c cl hc
    rwa [hpc] at hab
  · have hab := ha c cl hc
    rw [hpc] at hab
    exact hab rfl
  · have hok := (hg.client hc).pc
    rw [hpc] at hok
    obtain ⟨-, -, ⟨l, -, b, hb, rfl⟩ | ⟨rfl, -⟩⟩ := hok
    · have hcell := hg.shared.cells hb
      rw [show s.store.mem b = .internal nd locked from hread, CellOk.internal_iff] at hcell
      exact hcell.level
    · cases hread

/-! ## Runs -/

/-- `TreePc.growsRoot`, as a check. -/
def TreePc.growsRootAt (level : Nat) : TreePc L → Bool
  | .newRoot m _ _ _ => m = level
  | .rootCas m _ _ _ _ => m = level
  | _ => false

theorem growsRootAt_iff {pc : TreePc L} {level : Nat} : pc.growsRootAt level = true ↔ pc.growsRoot level := by
  cases pc <;> simp [TreePc.growsRootAt, TreePc.growsRoot]

/-- `TimelyRead` for the clients 0 and 1, as a check. -/
def timelyChecked (s : Tree L) (a : Tree.Action L) : Bool :=
  Tree.keysChecked s a && match a with
  | .invoke c _ _ => c < 2
  | .ret _ => true
  | .step c _ =>
    match s.clients c with
    | some cl =>
      match cl.pc with
      | .readRoot e => [0, 1].all fun c' => (s.clients c').all fun cl' => !cl'.pc.growsRootAt (e.level - 1)
      | _ => true
    | none => true

theorem run_of_timely {as : List (Tree.Action L)} {h : List Tree.Event}
    (he : (Tree.machine L).exec timelyChecked (Tree.init L) [] as = some (s, h)) :
    (Tree.machine L).Run TimelyRead s h := by
  refine .of_exec (I := fun s => ∀ c, 2 ≤ c → s.clients c = none) ?_ ?_ (fun _ _ => rfl) .init he
  · intro s a hI ha
    unfold timelyChecked at ha
    rw [Bool.and_eq_true] at ha
    refine ⟨Tree.validKeys_of_check ha.1, ?_⟩
    rintro c ch rfl cl e hc hpc c' cl' hc' hgrows
    have hlt : c' < 2 := by
      by_contra hge
      cases (hI c' (by omega)).symm.trans hc'
    have hall := ha.2
    simp only [hc, hpc, List.all_cons, List.all_nil, Bool.and_true, Bool.and_eq_true] at hall
    have hno : (s.clients c').all (fun cl' => !cl'.pc.growsRootAt (e.level - 1)) = true := by
      rcases (show c' = 0 ∨ c' = 1 by omega) with rfl | rfl
      · exact hall.1
      · exact hall.2
    rw [hc', Option.all_some, growsRootAt_iff.2 hgrows] at hno
    cases hno
  · intro s a s' es hI ha hs c hc
    unfold timelyChecked at ha
    rw [Bool.and_eq_true] at ha
    cases a with
    | invoke c' request key =>
      have hlt : c' < 2 := by simpa using ha.2
      simp only [Tree.machine, Tree.step] at hs
      split at hs
      · cases hs
        show Function.update s.clients c' _ c = none
        rw [Function.update_of_ne (by omega), hI c hc]
      · cases hs
    | step c' ch =>
      simp only [Tree.machine, Tree.step] at hs
      split at hs
      · cases hs
      · rename_i cl hcl
        split at hs
        · cases hs
        · cases hs
          show Function.update s.clients c' _ c = none
          have hne : c ≠ c' := by
            rintro rfl
            cases (hI c hc).symm.trans hcl
          rw [Function.update_of_ne hne, hI c hc]
    | ret c' =>
      simp only [Tree.machine, Tree.step] at hs
      split at hs
      · split at hs
        · cases hs
          show Function.update s.clients c' _ c = none
          by_cases hcc : c = c'
          · rw [hcc, Function.update_self]
          · rw [Function.update_of_ne hcc, hI c hc]
        · cases hs
      · cases hs

/-- A client that has read the root entry before the root grows, and splits a leaf after that. -/
def splitAfterGrowth : List (Tree.Action .small) :=
  Tree.completed _ 0 (.insert 11) 1 5 ++ Tree.completed _ 0 (.insert 15) 5 5 ++ Tree.operation _ 1 (.insert 23) 13 2 ++
    Tree.completed _ 0 (.insert 19) 9 8 ++ List.replicate 9 (.step 1 ⟨none, LeafNode.empty, none⟩)

/-- In that run the client enters `insert_internal` from the new root. -/
theorem enters_above_split : ∃ s h cl e p, (Tree.machine .small).Run TimelyRead s h ∧ s.clients 1 = some cl ∧
    cl.pc = .insertInternal e 2 p ∧ e.level < 2 := by
  have hsome : (((Tree.machine .small).exec timelyChecked (Tree.init _) [] splitAfterGrowth).bind fun y =>
      (y.1.clients 1).bind fun cl => match cl.pc with | .insertInternal _ level _ => some level | _ => none) = some 2 := by
    decide +kernel
  simp only [Option.bind_eq_some_iff] at hsome
  obtain ⟨⟨s, h⟩, hexec, cl, hcl, hpc⟩ := hsome
  split at hpc
  · rename_i e level p he
    cases hpc
    exact ⟨s, h, cl, e, p, run_of_timely hexec, hcl, he, (enters_above (run_of_timely hexec) 1 cl hcl).1 e 2 p he⟩
  · cases hpc

/-- Client 0 has split the root leaf and not yet moved the root entry, when client 1 splits the right leaf. -/
def splitInWindow : List (Tree.Action .small) :=
  Tree.completed _ 0 (.insert 11) 1 5 ++ Tree.completed _ 0 (.insert 15) 5 5 ++ Tree.operation _ 0 (.insert 19) 9 6 ++
    Tree.operation _ 1 (.insert 23) 13 12

/-- **In the window** a client enters `insert_internal` at its target level, and fails `assert(level > 1)`. -/
theorem not_enters_above : ∃ s h, (Tree.machine .small).Run Tree.ValidKeys s h ∧ ¬EntersAbove s := by
  have hsome : (((Tree.machine .small).exec Tree.keysChecked (Tree.init _) [] splitInWindow).bind fun y =>
      (y.1.clients 1).bind fun cl => match cl.pc with | .crashed .levelOne => some () | _ => none) = some () := by
    decide +kernel
  simp only [Option.bind_eq_some_iff] at hsome
  obtain ⟨⟨s, h⟩, hexec, cl, hcl, hpc⟩ := hsome
  refine ⟨s, h, Tree.run_of_exec hexec, fun hent => ?_⟩
  split at hpc
  · rename_i he
    exact (hent 1 cl hcl).2.1 he
  · cases hpc

end Chime

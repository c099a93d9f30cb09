import Chime.TreeSteps

/-!
# Runs of the tree

`TreeGood s d`: with the directory `d`, the state meets the invariants of the tree. `Tree.step_cases` says what an
action does to the whole state, `TreeStep.good` that it keeps the invariants, and `tree_good` that they hold in every
run in which the keys of the operations lie between the fences of the tree.
-/

namespace Chime

open Boundary (Next Extends Below)
open Records

variable {L : Layout} {s s' : Tree L} {d d' : Directory} {es : List Tree.Event}

namespace Tree

/-- A client makes no step of an insert that reads up to a bucket whose range lacks slots of the bucket. -/
def InRange [Arithmetic] (s : Tree L) : Action L → Prop
  | .step c _ => ∀ cl, s.clients c = some cl → cl.InRange
  | _ => True

/-- The keys of the operations lie between the lowest and the highest fence. -/
def ValidKeys (_ : Tree L) : Action L → Prop
  | .invoke _ _ key => kKeyMin ≤ key ∧ key < L.keyFull
  | _ => True

end Tree

section Arithmetic

variable [Arithmetic]

/-- With the directory `d`, all invariants hold. -/
def TreeGood (s : Tree L) (d : Directory) : Prop := (treeProtocol L).Good ⟨s.store, d⟩ s.clients

theorem TreeGood.shared (h : TreeGood s d) : TreeOk ⟨s.store, d⟩ := Protocol.Good.shared h

theorem TreeGood.client (h : TreeGood s d) {c : Nat} {cl : Client L} (hc : s.clients c = some cl) :
    ClientOk ⟨s.store, d⟩ cl := Protocol.Good.client h hc

/-! ## The initial tree -/

/-- The directory of the initial tree. -/
def rootDirectory : Directory := fun m l => if m = 0 ∧ l = kKeyMin then some 0 else none

omit [Arithmetic] in
theorem rootDirectory_eq {m l a : Nat} (h : rootDirectory m l = some a) : m = 0 ∧ l = 1 ∧ a = 0 := by
  rw [rootDirectory] at h
  split at h
  · rename_i hml
    cases h
    exact ⟨hml.1, hml.2, rfl⟩
  · cases h

/-- The root leaf covers all keys. -/
theorem rootLeaf_ok (L : Layout) : ∃ lf lock, rootLeaf L = .ok (lf, lock) ∧ LeafOk L (rootDirectory 0) 1 L.keyFull lf ∧
    LockTells lock lf.records ∧ lf.records.Distinct ∧ ∀ k v, lf.records.Stored k v → k = L.ghostKey := by
  obtain ⟨lf, lock, he, hi, hd⟩ := rootLeaf_spec L
  obtain ⟨r', hr', -, -, hkeys⟩ := rootRecords_eq (L := L)
  have hghost : L.ghostKey + 1 = L.keyFull := by
    have := L.keySpace_ge
    simp only [Layout.ghostKey, Layout.keyFull]
    omega
  -- the leaf has the records with the ghost key, and the root tag
  have hlf : lf = ⟨⟨true, .widest⟩, r'⟩ := by
    have he' := he
    simp only [rootLeaf, hr', Checked.ok_bind, Checked.pure_eq_ok, Checked.bind_eq_ok] at he'
    obtain ⟨w, -, h⟩ := he'
    exact (Prod.mk.inj (Except.ok.inj h)).1.symm
  have hkey : ∀ k, lf.records.HasKey k → k = L.ghostKey := by
    rintro k ⟨h0, t, ht⟩
    rw [hlf] at ht
    simp only [hkeys, Function.update_apply] at ht
    split at ht
    · exact ht.symm
    · exact absurd ht.symm h0
  refine ⟨lf, lock, he, ⟨hi.placed, hi.valid, ⟨?_, .inl rfl, ?_⟩, ?_, ⟨L.ghostKey, ?_, hghost⟩, .inl ⟨rfl, ?_⟩, ?_⟩,
    hi.tells, hd, fun k v hs => hkey k (hasKey_iff.2 ⟨v, hs⟩)⟩
  · have := L.keySpace_ge
    simp only [Layout.keyFull]
    omega
  · intro k h1 _
    rw [rootDirectory, if_neg]
    rw [kKeyMin_eq]
    omega
  · intro k hk
    obtain rfl := hkey k hk
    have := L.keySpace_ge
    simp only [Layout.ghostKey, Layout.keyFull]
    omega
  · refine ⟨ghostKey_pos, L.getHashedLeafEntryIndex L.ghostKey, ?_⟩
    rw [hlf]
    simp only [hkeys, Function.update_self]
  · rw [hlf]
    rfl
  · rw [hlf]
    simp [LeafNode.isRoot]

theorem init_store (L : Layout) : ∃ lf lock, rootLeaf L = .ok (lf, lock) ∧
    (Tree.init L).store.mem 0 = .leaf lf (some lock) := by
  obtain ⟨lf, lock, he, -⟩ := rootLeaf_spec L
  exact ⟨lf, lock, he, by simp only [Tree.init, he]⟩

/-- The initial tree meets the invariants. -/
theorem init_good (L : Layout) : TreeGood (Tree.init L) rootDirectory := by
  obtain ⟨lf, lock, he, hok, ht, -⟩ := rootLeaf_ok L
  obtain ⟨lf', lock', he', hm⟩ := init_store L
  cases he.symm.trans he'
  refine ⟨⟨?_, ?_, ?_, ?_, le_rfl, ⟨0, rfl, rfl⟩, fun h => ?_, nofun⟩, nofun, nofun⟩
  · intro m k a h
    obtain ⟨-, rfl, -⟩ := rootDirectory_eq h
    exact ⟨le_rfl, hok.next.lt⟩
  · intro m k a h
    obtain ⟨-, -, rfl⟩ := rootDirectory_eq h
    exact Nat.zero_lt_one
  · intro m k a h
    obtain ⟨rfl, rfl, rfl⟩ := rootDirectory_eq h
    show CellOk L rootDirectory 0 1 ((Tree.init L).store.mem 0)
    rw [hm]
    exact .leaf hok fun w hw => Option.some.inj hw ▸ ht
  · intro m k a h
    obtain ⟨rfl, -, -⟩ := rootDirectory_eq h
    exact Nat.zero_lt_one
  · exact absurd h (Nat.not_lt.2 (Nat.le_add_left 1 _))

/-! ## Steps of the whole system -/

/-- **An action** of the machine. -/
inductive TreeStep (s : Tree L) (d : Directory) : Tree.Action L → Tree L → Directory → List Tree.Event → Prop
  | invoke {c key : Nat} {request : Request} : s.clients c = none →
      TreeStep s d (.invoke c request key)
        { s with clients := Function.update s.clients c (some ⟨request, key, fun _ => .null, .start⟩) } d
        [.invoke c request key]
  | move {c : Nat} {ch : Choice L} {cl cl' : Client L} {g' : Charted L} : s.clients c = some cl →
      TreeMove ⟨s.store, d⟩ ch cl cl.pc g' cl' →
      TreeStep s d (.step c ch) ⟨g'.store, Function.update s.clients c (some cl')⟩ g'.dir
        (if cl.writesLeaf then [.write c cl.key cl.request.value] else [])
  | ret {c v : Nat} {cl : Client L} : s.clients c = some cl → cl.pc = .done v →
      TreeStep s d (.ret c) { s with clients := Function.update s.clients c none } d [.ret c cl.request cl.key v]

/-- **What an action does**, if it is not an insert that reads up to a bucket whose range lacks slots. -/
theorem Tree.step_cases_of_inRange (h : TreeGood s d) {a : Tree.Action L} (hrange : Tree.InRange s a)
    (hs : Tree.step s a = some (s', es)) : ∃ d', TreeStep s d a s' d' es := by
  cases a with
  | invoke c request key =>
    rw [Tree.step] at hs
    split at hs
    · rename_i hc
      cases hs
      exact ⟨_, .invoke hc⟩
    · cases hs
  | step c ch =>
    rw [Tree.step] at hs
    split at hs
    · cases hs
    · rename_i cl hc
      split at hs
      · cases hs
      · rename_i store cl' hstep
        cases hs
        obtain ⟨d', hm⟩ := cl.step_moves_of_inRange h.shared (h.client hc) (hrange cl hc) hstep
        exact ⟨_, .move hc hm⟩
  | ret c =>
    rw [Tree.step] at hs
    split at hs
    · rename_i cl hc
      split at hs
      · rename_i v hv
        cases hs
        exact ⟨_, .ret hc hv⟩
      · cases hs
    · cases hs

/-- **Every action** keeps the invariants. -/
theorem TreeStep.good (h : TreeGood s d) {a : Tree.Action L} (hv : Tree.ValidKeys s a) (hs : TreeStep s d a s' d' es) :
    TreeGood s' d' := by
  cases hs with
  | @invoke c key request hc =>
    have hpath : PathOk ⟨s.store, d⟩ (fun _ => .null) key 0 := fun _ _ hne => absurd rfl hne
    exact Protocol.Good.enter h ⟨hv.1, hv.2, hpath⟩ nofun
  | move hc hm => exact Protocol.Good.step h hc (hm.change h.shared (h.client hc) rfl)
  | ret hc _ => exact Protocol.Good.leave h

theorem TreeStep.le (h : TreeGood s d) {a : Tree.Action L} (hs : TreeStep s d a s' d' es) : d.Le d' := by
  cases hs with
  | invoke hc => exact .refl d
  | move hc hm =>
    have hch := (hm.change h.shared (h.client hc) rfl).guarantee (fun _ => False) nofun
    exact Rely.dir hch
  | ret hc _ => exact .refl d

end Arithmetic

theorem Tree.inRange_exact (s : Tree L) (a : Tree.Action L) : Tree.InRange s a := by
  cases a with
  | step c ch => exact fun cl _ => cl.inRange_exact
  | _ => trivial

theorem Tree.step_cases (h : TreeGood s d) {a : Tree.Action L} (hs : Tree.step s a = some (s', es)) :
    ∃ d', TreeStep s d a s' d' es := Tree.step_cases_of_inRange h (Tree.inRange_exact s a) hs

/-- **In every run** the invariants hold. -/
theorem tree_good {h : List Tree.Event} (hrun : (Tree.machine L).Run Tree.ValidKeys s h) : ∃ d, TreeGood s d := by
  refine hrun.invariant (I := fun s _ => ∃ d, TreeGood s d) ⟨_, init_good L⟩ ?_
  rintro s h a s' es - ⟨d, hg⟩ hv hs
  obtain ⟨d', hs⟩ := Tree.step_cases hg hs
  exact ⟨d', hs.good hg hv⟩

/-! ## Runs of given actions -/

namespace Tree

/-- Client `c` begins an operation and makes `n` steps with empty caches. -/
def operation (L : Layout) (c : Nat) (request : Request) (key n : Nat) : List (Action L) :=
  .invoke c request key :: List.replicate n (.step c ⟨none, LeafNode.empty, none⟩)

/-- The same, and client `c` returns. -/
def completed (L : Layout) (c : Nat) (request : Request) (key n : Nat) : List (Action L) :=
  operation L c request key n ++ [.ret c]

/-- `ValidKeys`, as a check. -/
def keysChecked (_ : Tree L) : Action L → Bool
  | .invoke _ _ key => kKeyMin ≤ key ∧ key < L.keyFull
  | _ => true

theorem validKeys_of_check {a : Action L} (h : keysChecked s a = true) : ValidKeys s a := by
  cases a with
  | invoke c request key =>
    simp only [keysChecked, decide_eq_true_eq] at h
    exact h
  | _ => trivial

theorem run_of_exec {as : List (Action L)} {h : List Event}
    (he : (machine L).exec keysChecked (init L) [] as = some (s, h)) : (machine L).Run ValidKeys s h :=
  .of_exec (I := fun _ => True) (fun _ h => validKeys_of_check h) (fun _ _ _ => trivial) trivial .init he

end Tree
end Chime

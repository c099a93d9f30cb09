import Chime.TreeRuns

/-!
# What the leaves store

`Leaves g l lf`: the leaf `lf` begins at `l`. A step leaves all leaves as they are, or it is the write of a leaf, and
then the pair of the client is put into the leaves (`TreeMove.leaves`): the other pairs stay, and a key stays in one
slot, unless it is inserted a second time (`Puts`).
-/

namespace Chime

open Boundary (Next Extends Below)
open Records

variable [Arithmetic] {L : Layout} {g g' : Charted L} {ch : Choice L} {cl cl' : Client L}

def Cell.leafNode : Cell L → Option (LeafNode L)
  | .leaf lf _ => some lf
  | _ => none

/-- The leaf `lf` begins at `l`. -/
def Leaves (g : Charted L) (l : Nat) (lf : LeafNode L) : Prop :=
  ∃ a, g.dir 0 l = some a ∧ (g.store.mem a).leafNode = some lf

/-- A leaf stores the pair. -/
def Contents (g : Charted L) (k v : Nat) : Prop := ∃ l lf, Leaves g l lf ∧ lf.records.Stored k v

/-- No leaf has the key twice. -/
def OnceEach (g : Charted L) (k : Nat) : Prop := ∀ l lf, Leaves g l lf → lf.records.Once k

omit [Arithmetic] in
theorem LeafAt.leaves {a l h : Nat} {lf : LeafNode L} {lock : Option (Valock L)} (hat : LeafAt g a l h lf lock) :
    Leaves g l lf := ⟨a, hat.linked, by rw [hat.mem]; rfl⟩

omit [Arithmetic] in
theorem leafNode_eq {cell : Cell L} {lf : LeafNode L} : cell.leafNode = some lf ↔ ∃ lock, cell = .leaf lf lock := by
  cases cell with
  | leaf lf' lock => simp [Cell.leafNode]
  | _ => simp [Cell.leafNode]

namespace TreeOk

variable {l l' k v w : Nat} {lf lf' : LeafNode L}

theorem leaves_ok (hg : TreeOk g) (hl : Leaves g l lf) : ∃ h, LeafOk L (g.dir 0) l h lf := by
  obtain ⟨a, ha, hm⟩ := hl
  obtain ⟨lock, hm⟩ := leafNode_eq.1 hm
  obtain ⟨h, hat⟩ := hg.leafAt ha hm
  exact ⟨h, hat.ok⟩

omit [Arithmetic] in
/-- One leaf begins at a boundary. -/
theorem leaves_unique (hl : Leaves g l lf) (hl' : Leaves g l lf') : lf = lf' := by
  obtain ⟨a, ha, hm⟩ := hl
  obtain ⟨b, hb, hm'⟩ := hl'
  cases ha.symm.trans hb
  exact Option.some.inj (hm.symm.trans hm')

/-- **One leaf has a key.** -/
theorem leaves_of_hasKey (hg : TreeOk g) (hl : Leaves g l lf) (hl' : Leaves g l' lf') (hk : lf.records.HasKey k)
    (hk' : lf'.records.HasKey k) : l = l' ∧ lf = lf' := by
  obtain ⟨h, hok⟩ := hg.leaves_ok hl
  obtain ⟨h', hok'⟩ := hg.leaves_ok hl'
  obtain ⟨h1, h2⟩ := hok.range k hk
  obtain ⟨h3, h4⟩ := hok'.range k hk'
  have hll : l = l' := by
    obtain ⟨a, ha, -⟩ := hl
    obtain ⟨b, hb, -⟩ := hl'
    exact hok.next.disjoint hok'.next ha hb h1 h2 h3 h4
  subst hll
  exact ⟨rfl, leaves_unique hl hl'⟩

/-- A key that no leaf has twice has one value. -/
theorem contents_unique (hg : TreeOk g) (ho : OnceEach g k) (hv : Contents g k v) (hw : Contents g k w) : v = w := by
  obtain ⟨l, lf, hl, hs⟩ := hv
  obtain ⟨l', lf', hl', hs'⟩ := hw
  obtain ⟨rfl, rfl⟩ := hg.leaves_of_hasKey hl hl' (hasKey_iff.2 ⟨v, hs⟩) (hasKey_iff.2 ⟨w, hs'⟩)
  exact (ho l lf hl).stored_unique hs hs'

end TreeOk

/-! ## Steps that leave the leaves -/

/-- The leaves are the same. -/
def SameLeaves (g g' : Charted L) : Prop := ∀ l lf, Leaves g' l lf ↔ Leaves g l lf

omit [Arithmetic] in
/-- A node gets another lock word, or is not a leaf. -/
theorem sameLeaves_write {a : Nat} {cell : Cell L} {d' : Directory} (hc : cell.leafNode = (g.store.mem a).leafNode)
    (hd : d' 0 = g.dir 0) : SameLeaves g ⟨g.store.write a cell, d'⟩ := by
  intro l lf
  simp only [Leaves, hd]
  refine exists_congr fun b => and_congr_right fun _ => ?_
  by_cases hb : b = a
  · rw [hb, Store.write_self, hc]
  · rw [Store.write_of_ne _ hb]

omit [Arithmetic] in
/-- A node that is not linked is written. -/
theorem sameLeaves_private {a : Nat} {cell : Cell L} (hp : ∀ m l, g.dir m l ≠ some a) :
    SameLeaves g ⟨g.store.write a cell, g.dir⟩ := by
  intro l lf
  refine exists_congr fun b => and_congr_right fun hb => ?_
  have hba : b ≠ a := by
    rintro rfl
    exact hp 0 l hb
  rw [Store.write_of_ne _ hba]

omit [Arithmetic] in
/-- A node of another level is linked. -/
theorem insert_leaf_level {d : Directory} {m k a : Nat} (hm : 1 ≤ m) : d.insert m k a 0 = d 0 :=
  Directory.insert_of_ne (by omega)

/-! ## Steps that write a leaf -/

/-- The pair is put into the leaves. -/
structure Puts (g g' : Charted L) (k v : Nat) (update : Prop) : Prop where
  stored : ∀ j w, Contents g' j w → Contents g j w ∨ (j = k ∧ w = v)
  kept : ∀ j w, j ≠ k → Contents g j w → Contents g' j w
  self : Contents g' k v
  /-- an update writes over an old pair -/
  old : update → ∃ w, Contents g k w
  once : ∀ j, j ≠ 0 → OnceEach g j → (j = k → ¬update → ∀ w, ¬Contents g j w) → OnceEach g' j

/-- The other leaves. -/
theorem leaves_of_ne {a l b : Nat} {cell : Cell L} {d' : Directory} (hg : TreeOk g) (ha : g.dir 0 l = some a)
    (hb : g.dir 0 b = d' 0 b) (hne : b ≠ l) {lf : LeafNode L} :
    Leaves ⟨g.store.write a cell, d'⟩ b lf ↔ Leaves g b lf := by
  simp only [Leaves, ← hb]
  refine exists_congr fun c => and_congr_right fun hc => ?_
  have hca : c ≠ a := by
    rintro rfl
    exact hne (hg.inj_level 0 b l c hc ha)
  rw [Store.write_of_ne _ hca]

omit [Arithmetic] in
/-- The leaf at `l` is replaced by the leaves `new`, which have its pairs and a new one. -/
theorem puts_of_replaced {l k v : Nat} {lf : LeafNode L} {update : Prop} (new : Nat → LeafNode L → Prop)
    (hl : Leaves g l lf) (hnew : ∀ b lf', Leaves g' b lf' ↔ new b lf' ∨ (b ≠ l ∧ Leaves g b lf'))
    (hstored : ∀ j w, (∃ b lf', new b lf' ∧ lf'.records.Stored j w) → lf.records.Stored j w ∨ (j = k ∧ w = v))
    (hkept : ∀ j w, j ≠ k → lf.records.Stored j w → ∃ b lf', new b lf' ∧ lf'.records.Stored j w)
    (hself : ∃ b lf', new b lf' ∧ lf'.records.Stored k v) (hold : update → lf.records.HasKey k)
    (honce : ∀ j, j ≠ 0 → lf.records.Once j → (j = k → ¬update → ¬lf.records.HasKey j) →
      ∀ b lf', new b lf' → lf'.records.Once j) :
    Puts g g' k v update where
  stored := by
    rintro j w ⟨b, lf', hb, hs⟩
    rcases (hnew b lf').1 hb with hb | ⟨-, hb⟩
    · exact (hstored j w ⟨b, lf', hb, hs⟩).imp_left fun hs => ⟨l, lf, hl, hs⟩
    · exact .inl ⟨b, lf', hb, hs⟩
  kept := by
    rintro j w hj ⟨b, lf', hb, hs⟩
    by_cases hbl : b = l
    · subst hbl
      obtain rfl := TreeOk.leaves_unique hl hb
      obtain ⟨b', lf'', hb', hs'⟩ := hkept j w hj hs
      exact ⟨b', lf'', (hnew b' lf'').2 (.inl hb'), hs'⟩
    · exact ⟨b, lf', (hnew b lf').2 (.inr ⟨hbl, hb⟩), hs⟩
  self := by
    obtain ⟨b, lf', hb, hs⟩ := hself
    exact ⟨b, lf', (hnew b lf').2 (.inl hb), hs⟩
  old := fun hu => by
    obtain ⟨w, hw⟩ := hasKey_iff.1 (hold hu)
    exact ⟨w, l, lf, hl, hw⟩
  once := by
    intro j hj ho hk b lf' hb
    rcases (hnew b lf').1 hb with hb | ⟨-, hb⟩
    · refine honce j hj (ho l lf hl) (fun hjk hu hkey => ?_) b lf' hb
      obtain ⟨w, hw⟩ := hasKey_iff.1 hkey
      exact hk hjk hu w ⟨l, lf, hl, hw⟩
    · exact ho b lf' hb

/-- **The write of a pair** into a leaf. -/
theorem puts_write (hg : TreeOk g) {a l k v : Nat} {lf : LeafNode L} {w lock : Option (Valock L)} {r' : Records L}
    {update : Prop} (hk : k ≠ 0) (ha : g.dir 0 l = some a) (hm : g.store.mem a = .leaf lf w)
    (hr : Upserted lf.records k v r') (hu : update → r'.keys = lf.records.keys) :
    Puts g ⟨g.store.write a (.leaf { lf with records := r' } lock), g.dir⟩ k v update := by
  have hl : Leaves g l lf := ⟨a, ha, by rw [hm]; rfl⟩
  refine puts_of_replaced (fun b lf' => b = l ∧ lf' = { lf with records := r' }) hl (fun b lf' => ?_) ?_ ?_ ?_ ?_ ?_
  · by_cases hbl : b = l
    · subst hbl
      simp only [Leaves, ha, Option.some.injEq, exists_eq_left', Store.write_self, Cell.leafNode, true_and, ne_eq,
        not_true, false_and, or_false]
      exact eq_comm
    · rw [leaves_of_ne hg ha rfl hbl]
      simp [hbl]
  · rintro j x ⟨b, lf', ⟨-, rfl⟩, hs⟩
    exact hr.stored hk hs
  · exact fun j x hj hs => ⟨l, _, ⟨rfl, rfl⟩, hr.stored_of_ne hk hj hs⟩
  · exact ⟨l, _, ⟨rfl, rfl⟩, hr.stored_self hk⟩
  · intro hup
    obtain ⟨-, s, hs⟩ := hasKey_iff.2 ⟨v, hr.stored_self hk⟩
    exact ⟨hk, s, by rwa [hu hup] at hs⟩
  · rintro j hj ho hno b lf' ⟨-, rfl⟩
    refine hr.once hj ho fun hjk hkey => ?_
    by_cases hup : update
    · exact hu hup
    · exact absurd hkey (hno hjk hup)

/-- **The write of a split leaf**. -/
theorem puts_split (hg : TreeOk g) {a new l k v : Nat} {lf : LeafNode L} {w : Option (Valock L)} {x : LeafSplit L}
    (hk : k ≠ 0) (ha : g.dir 0 l = some a) (hm : g.store.mem a = .leaf lf w) (hx : SplitOf lf k v (.at new) x)
    (hp : ∀ m l, g.dir m l ≠ some new) (hnew : g.store.mem new = .leaf x.right (some x.rightLock))
    (hs : l ≠ x.splitKey) (hfree : g.dir 0 x.splitKey = none) :
    Puts g ⟨g.store.write a (.leaf x.left (some x.leftLock)), g.dir.insert 0 x.splitKey new⟩ k v False := by
  have hl : Leaves g l lf := ⟨a, ha, by rw [hm]; rfl⟩
  have hna : new ≠ a := by
    rintro rfl
    exact hp 0 l ha
  have hdir : ∀ b, b ≠ x.splitKey → g.dir.insert 0 x.splitKey new 0 b = g.dir 0 b := fun b hb => by
    rw [Directory.insert_level, Function.update_of_ne hb]
  refine puts_of_replaced (fun b lf' => (b = l ∧ lf' = x.left) ∨ (b = x.splitKey ∧ lf' = x.right)) hl
    (fun b lf' => ?_) ?_ ?_ ?_ False.elim ?_
  · by_cases hbl : b = l
    · subst hbl
      simp only [Leaves, hdir b hs, ha, Option.some.injEq, exists_eq_left', Store.write_self, Cell.leafNode, true_and,
        hs, false_and, or_false, ne_eq, not_true]
      exact eq_comm
    · by_cases hbs : b = x.splitKey
      · subst hbs
        simp only [Leaves, Directory.insert_level, Function.update_self, Option.some.injEq, exists_eq_left',
          Store.write_of_ne _ hna, hnew, Cell.leafNode, hbl, false_and, true_and, false_or, hfree, reduceCtorEq,
          exists_false, and_false, or_false]
        exact eq_comm
      · rw [leaves_of_ne hg ha (hdir b hbs).symm hbl]
        simp [hbl, hbs]
  · rintro j y ⟨b, lf', ⟨-, rfl⟩ | ⟨-, rfl⟩, hs⟩
    · exact (hx.stored hk).1 (.inl hs)
    · exact (hx.stored hk).1 (.inr hs)
  · intro j y _ hs
    rcases (hx.stored hk).2 (.inl hs) with hs | hs
    · exact ⟨l, _, .inl ⟨rfl, rfl⟩, hs⟩
    · exact ⟨_, _, .inr ⟨rfl, rfl⟩, hs⟩
  · rcases (hx.stored hk).2 (.inr ⟨rfl, rfl⟩) with hs | hs
    · exact ⟨l, _, .inl ⟨rfl, rfl⟩, hs⟩
    · exact ⟨_, _, .inr ⟨rfl, rfl⟩, hs⟩
  · rintro j hj ho hno b lf' (⟨-, rfl⟩ | ⟨-, rfl⟩)
    · exact (hx.once hj ho fun hjk => hno hjk id).1
    · exact (hx.once hj ho fun hjk => hno hjk id).2

/-! ## Every step -/

/-- The leaves are the same, or the step is the write of a leaf and puts its pair into them. -/
inductive LeavesStep (g g' : Charted L) (cl : Client L) : Prop
  | same : cl.writesLeaf = false → SameLeaves g g' → LeavesStep g g' cl
  | puts : cl.writesLeaf = true → Puts g g' cl.key cl.request.value (∃ v, cl.request = .update v) → LeavesStep g g' cl

/-- **A step** puts its pair into the leaves when it writes a leaf. -/
theorem TreeMove.leaves (hg : TreeOk g) (hc : ClientOk g cl) {pc : TreePc L} (hcl : cl.pc = pc)
    (hm : TreeMove g ch cl pc g' cl') : LeavesStep g g' cl := by
  obtain ⟨hk, hkf, hpc⟩ := hc
  have hk0 : cl.key ≠ 0 := by omega
  rw [hcl] at hpc
  cases hm with
  | lockLeaf _ _ hm =>
    refine .same (by rw [Client.writesLeaf, hcl]) (sameLeaves_write ?_ rfl)
    rw [hm]
    rfl
  | unlockLeaf hm =>
    refine .same (by rw [Client.writesLeaf, hcl]) (sameLeaves_write ?_ rfl)
    rw [hm]
    rfl
  | writeLeaf hm =>
    obtain ⟨lf', r', ⟨⟨l, -, hl⟩, hm', -⟩, hup, happ, -, hkeys⟩ := hpc
    cases hm.symm.trans hm'
    rw [happ]
    refine .puts (by rw [Client.writesLeaf, hcl]) (puts_write hg hk0 hl hm hup ?_)
    rintro ⟨v, hv⟩
    exact hkeys v hv
  | writeLeafSibling =>
    obtain ⟨-, hp, -⟩ := hpc
    exact .same (by rw [Client.writesLeaf, hcl]) (sameLeaves_private hp.2)
  | splitLeaf =>
    obtain ⟨-, hp, ⟨v, hv⟩, ⟨lf, ⟨⟨l, hlk, hl⟩, hm, hr⟩, hx⟩, hnew⟩ := hpc
    obtain ⟨h, hat⟩ := hg.leafAt hl hm
    obtain ⟨⟨h1, h2⟩, -⟩ := hx.ok hat.ok (hg.below 0) (hg.range hl).1 hlk (hat.ok.lt_of_routed hr)
    have hputs := puts_split hg hk0 hl hm hx hp.2 hnew h1.ne (hat.ok.next.free _ h1 h2)
    rw [show False = ∃ u, cl.request = .update u by simp [hv]] at hputs
    exact .puts (by rw [Client.writesLeaf, hcl]) hputs
  | newRoot =>
    exact .same (by rw [Client.writesLeaf, hcl]) (sameLeaves_private fun m l h => lt_irrefl _ (hg.allocated h))
  | @growRoot level a r k sib =>
    have hd : g.dir.insert (level + 1) 1 r 0 = g.dir 0 := insert_leaf_level (Nat.le_add_left 1 level)
    exact .same (by rw [Client.writesLeaf, hcl]) fun l lf => by simp only [Leaves, hd]
  | lockInternal _ hm =>
    refine .same (by rw [Client.writesLeaf, hcl]) (sameLeaves_write ?_ rfl)
    rw [hm]
    rfl
  | unlockInternal hm =>
    refine .same (by rw [Client.writesLeaf, hcl]) (sameLeaves_write ?_ rfl)
    rw [hm]
    rfl
  | writeInternal =>
    obtain ⟨-, nd, hat, -⟩ := hpc
    refine .same (by rw [Client.writesLeaf, hcl]) (sameLeaves_write ?_ rfl)
    rw [hat.mem]
    rfl
  | writeInternalSibling =>
    obtain ⟨-, -, hp, -⟩ := hpc
    exact .same (by rw [Client.writesLeaf, hcl]) (sameLeaves_private hp.2)
  | splitInternal =>
    obtain ⟨hs, -, -, ⟨nd, hat, -⟩, -⟩ := hpc
    refine .same (by rw [Client.writesLeaf, hcl]) (sameLeaves_write ?_ (insert_leaf_level hs.level_pos))
    rw [hat.mem]
    rfl
  | _ => exact .same (by rw [Client.writesLeaf, hcl]) fun _ _ => .rfl

end Chime

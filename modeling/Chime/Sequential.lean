import Chime.Reachability

/-!
# One client at a time

When the other clients are idle and the caches are empty, every node that is locked is locked by the client (`Locks`),
and the top level has one node unless the client is about to move the root entry (`TopAlone`). `SoloAt` says where the
client then can stand, with a rank that every step lowers (`SoloAt.step`): it descends to the leaf of its key, goes
right along the leaves, writes, and carries the separators of its splits up along its path. It fails no assertion, and
it ends.
-/

namespace Chime

open Boundary (Next Extends Below)
open Records

variable [Arithmetic] {L : Layout} {g g' : Charted L} {ch : Choice L} {cl cl' : Client L}

/-! ## Locks -/

/-- Every linked node that is locked is locked by the client. -/
def Locks (g : Charted L) (cl : Client L) : Prop :=
  ∀ m l a, g.dir m l = some a → (g.store.mem a).isLocked = true → .addr a ∈ cl.pc.owned

omit [Arithmetic] in
theorem Locks.congr (h : Locks g cl) {s' : Store L} (hmem : s'.mem = g.store.mem)
    (ho : ∀ a, .addr a ∈ cl.pc.owned → .addr a ∈ cl'.pc.owned) : Locks ⟨s', g.dir⟩ cl' := by
  intro m l a ha hlock
  rw [show (s'.mem a) = g.store.mem a from congrFun hmem a] at hlock
  exact ho a (h m l a ha hlock)

omit [Arithmetic] in
/-- A node is written. -/
theorem Locks.write (h : Locks g cl) {a : Nat} {cell : Cell L} (hcell : cell.isLocked = true → .addr a ∈ cl'.pc.owned)
    (ho : ∀ b, .addr b ∈ cl.pc.owned → b = a ∨ (∀ m l, g.dir m l ≠ some b) ∨ .addr b ∈ cl'.pc.owned) :
    Locks ⟨g.store.write a cell, g.dir⟩ cl' := by
  intro m l b hb hlock
  by_cases hba : b = a
  · subst hba
    rw [Store.write_self] at hlock
    exact hcell hlock
  · rw [Store.write_of_ne _ hba] at hlock
    exact ((ho b (h m l b hb hlock)).resolve_left hba).resolve_left fun hno => hno m l hb

omit [Arithmetic] in
/-- The left node of a split is written, and the right one is linked. -/
theorem Locks.link (h : Locks g cl) {a new m k : Nat} {cell : Cell L} (hcell : cell.isLocked = false)
    (hnew : (g.store.mem new).isLocked = false) (ho : ∀ b, .addr b ∈ cl.pc.owned → b = a ∨ b = new) :
    Locks ⟨g.store.write a cell, g.dir.insert m k new⟩ cl' := by
  intro j l b hb hlock
  by_cases hba : b = a
  · subst hba
    rw [Store.write_self, hcell] at hlock
    cases hlock
  · rw [Store.write_of_ne _ hba] at hlock
    rcases Directory.insert_cases hb with ⟨-, -, rfl⟩ | hold
    · cases hnew.symm.trans hlock
    · rcases ho b (h j l b hold hlock) with rfl | rfl
      · exact absurd rfl hba
      · cases hnew.symm.trans hlock

/-- The locks after a step that fails no assertion. -/
theorem TreeMove.locks (hc : ClientOk g cl) {pc : TreePc L} (hcl : cl.pc = pc) (hl : Locks g cl)
    (hm : TreeMove g ch cl pc g' cl') (hcrash : ∀ a, cl'.pc ≠ .crashed a) : Locks g' cl' := by
  obtain ⟨-, -, hpc⟩ := hc
  rw [hcl] at hpc
  -- steps that leave the memory
  have hlocal : ∀ {s' : Store L}, s'.mem = g.store.mem → (∀ a, .addr a ∈ pc.owned → .addr a ∈ cl'.pc.owned) →
      Locks ⟨s', g.dir⟩ cl' := fun hmem ho => hl.congr hmem (hcl ▸ ho)
  have howned : ∀ {r : Resource}, r ∈ cl.pc.owned → r ∈ pc.owned := hcl ▸ id
  cases hm with
  | lockLeaf => exact hl.write (fun _ => by simp [TreePc.owned]) fun b hb => by cases howned hb
  | unlockLeaf => exact hl.write (fun h => by cases h) fun b hb => .inl (by simpa [TreePc.owned] using howned hb)
  | writeLeaf => exact hl.write (fun h => by cases h) fun b hb => .inl (by simpa [TreePc.owned] using howned hb)
  | writeLeafSibling => exact hl.write (fun h => by cases h) fun b hb => .inr (.inr (howned hb))
  | splitLeaf =>
    obtain ⟨-, -, -, -, hnew⟩ := hpc
    exact hl.link rfl (by rw [hnew]; rfl) fun b hb => by simpa [TreePc.owned] using howned hb
  | newRoot =>
    refine hl.write (fun h => by cases h) fun b hb => ?_
    have := howned hb
    simp [TreePc.owned] at this
  | @growRoot level a r k sib =>
    obtain ⟨-, -, -, -, hmem⟩ := hpc
    intro j l b hb hlock
    rcases Directory.insert_cases hb with ⟨-, -, rfl⟩ | hold
    · rw [show g.store.mem b = _ from hmem] at hlock
      cases hlock
    · have := howned (hl j l b hold hlock)
      simp only [TreePc.owned, List.mem_cons, reduceCtorEq, Resource.addr.injEq, List.not_mem_nil, or_false,
        false_or] at this
      subst this
      rw [show g.store.mem b = _ from hmem] at hlock
      cases hlock
  | lockInternal =>
    refine hl.write (fun _ => by simp [TreePc.owned]) fun b hb => ?_
    have := howned hb
    simp [TreePc.owned] at this
  | unlockInternal => exact hl.write (fun h => by cases h) fun b hb => .inl (by simpa [TreePc.owned] using howned hb)
  | writeInternal => exact hl.write (fun h => by cases h) fun b hb => .inl (by simpa [TreePc.owned] using howned hb)
  | writeInternalSibling => exact hl.write (fun h => by cases h) fun b hb => .inr (.inr (howned hb))
  | splitInternal =>
    obtain ⟨-, -, -, -, hnew⟩ := hpc
    exact hl.link rfl (by rw [hnew]; rfl) fun b hb => by simpa [TreePc.owned] using howned hb
  | stuck => exact absurd rfl (hcrash _)
  | keyMissing => exact absurd rfl (hcrash _)
  | parentNull => exact absurd rfl (hcrash _)
  | noTarget => exact absurd rfl (hcrash _)
  | spinLeaf => exact hl
  | spinInternal => exact hl
  | staleLocked | insertRight | updateRight | toWrite | staleInternal | internalRight | toInternalWrite =>
    exact hlocal rfl fun _ ha => ha
  | toSplit => exact hlocal rfl fun a ha => List.mem_append_left [_] ha
  | toInternalSplit => exact hlocal rfl fun a ha => List.mem_append_left [_] ha
  | _ => exact hlocal rfl fun a ha => by simp [TreePc.owned] at ha

/-! ## The top level -/

/-- The top level has one node, unless the client moves the root entry. -/
def TopAlone (g : Charted L) (cl : Client L) : Prop :=
  ∀ k a, g.dir (g.store.root.level - 1) k = some a → k = 1 ∨ .root ∈ cl.pc.owned

/-- A node that is not the only one of its level is below the top. -/
theorem TopAlone.below (ht : TopAlone g cl) (hg : TreeOk g) (hroot : .root ∉ cl.pc.owned) {m l h a : Nat}
    (ha : g.dir m l = some a) (hn : Next (g.dir m) L.keyFull l h) (halone : ¬(l = 1 ∧ h = L.keyFull)) :
    m + 1 < g.store.root.level := by
  have hlt := hg.below_root ha
  by_contra hge
  obtain rfl : m = g.store.root.level - 1 := by omega
  have h1 := (ht l a ha).resolve_right hroot
  have hlh := hn.lt
  rcases hn.bound with hh | ⟨b, hb⟩
  · exact halone ⟨h1, hh⟩
  · have h2 := (ht h b hb).resolve_right hroot
    omega

/-- The top level after a split. -/
theorem TopAlone.split (ht : TopAlone g cl) (hg : TreeOk g) (hroot : .root ∉ cl.pc.owned) {m l h k a new : Nat}
    {s' : Store L} (hs : s'.root = g.store.root) (ha : g.dir m l = some a) (hn : Next (g.dir m) L.keyFull l h)
    (hisRoot : l = 1 ∧ h = L.keyFull → .root ∈ cl'.pc.owned) : TopAlone ⟨s', g.dir.insert m k new⟩ cl' := by
  intro j b hb
  simp only [hs] at hb
  rcases Directory.insert_cases hb with ⟨hm, -, -⟩ | hold
  · by_cases halone : l = 1 ∧ h = L.keyFull
    · exact .inr (hisRoot halone)
    · have := ht.below hg hroot ha hn halone
      omega
  · exact .inl ((ht j b hold).resolve_right hroot)

omit [Arithmetic] in
/-- A split with the root tag moves the root entry. -/
theorem owned_updateParent_root {isRoot : Bool} {level a k new : Nat} (h : isRoot = true) :
    .root ∈ (cl.updateParent isRoot level a k new).pc.owned := by
  subst h
  exact List.mem_cons_self

theorem TreeMove.topAlone (hg : TreeOk g) (hc : ClientOk g cl) {pc : TreePc L} (hcl : cl.pc = pc) (ht : TopAlone g cl)
    (hm : TreeMove g ch cl pc g' cl') : TopAlone g' cl' := by
  obtain ⟨hk, hkf, hpc⟩ := hc
  rw [hcl] at hpc
  have howned : ∀ {r : Resource}, r ∈ cl.pc.owned → r ∈ pc.owned := hcl ▸ id
  cases hm with
  | @splitLeaf a new x =>
    obtain ⟨-, -, -, ⟨lf, ⟨⟨l, hl, ha⟩, hm, hr⟩, hx⟩, -⟩ := hpc
    obtain ⟨h, hat⟩ := hg.leafAt ha hm
    refine ht.split hg (fun h => by simpa [TreePc.owned] using howned h) rfl ha hat.ok.next fun halone => ?_
    exact owned_updateParent_root (hx.isRoot.trans (hat.ok.root.2 halone))
  | @splitInternal e a new x =>
    obtain ⟨hs, -, -, ⟨nd, ⟨⟨l, hl, ha⟩, hm⟩, hk', hx⟩, -⟩ := hpc
    obtain ⟨nd', locked, hnd⟩ := hg.internalAt hs.level_pos ha
    cases hm.symm.trans hnd.mem
    refine ht.split hg (fun h => by simpa [TreePc.owned] using howned h) rfl ha hnd.ok.next fun halone => ?_
    refine owned_updateParent_root (hx.isRoot.trans ?_)
    simp only [InternalNode.isRoot, hnd.ok.lowest, halone, kKeyMin_eq, and_self, decide_true]
  | @growRoot level a r k sib =>
    obtain ⟨-, -, hroot, -⟩ := hpc
    intro j b hb
    have hb' : g.dir.insert (level + 1) 1 r (level + 1) j = some b := hb
    rcases Directory.insert_cases hb' with ⟨-, rfl, -⟩ | hold
    · exact .inl rfl
    · have := hg.below_root hold
      rw [hroot] at this
      exact absurd this (lt_irrefl _)
  | newRoot => exact fun k a _ => .inr List.mem_cons_self
  | spinLeaf => exact ht
  | spinInternal => exact ht
  | _ => exact fun k a ha => .inl ((ht k a ha).resolve_right fun h => by simpa [TreePc.owned] using howned h)

/-! ## Where the client stands -/

/-- Phase, level, place at the level, distance to the upper end. -/
abbrev Rank := Nat × Nat × Nat × Nat

def Rank.Lt : Rank → Rank → Prop := Prod.Lex (· < ·) (Prod.Lex (· < ·) (Prod.Lex (· < ·) (· < ·)))

omit [Arithmetic] in
theorem Rank.lt_wellFounded : WellFounded Rank.Lt :=
  WellFounded.prod_lex Nat.lt_wfRel.wf (WellFounded.prod_lex Nat.lt_wfRel.wf
    (WellFounded.prod_lex Nat.lt_wfRel.wf Nat.lt_wfRel.wf))

namespace Client

/-- The client inserts. -/
def Inserts (cl : Client L) : Prop := ∃ v, cl.request = .insert v

/-- An insert has its path from a level up to the root. -/
def Pathed (cl : Client L) (g : Charted L) (level : Nat) : Prop :=
  cl.Inserts → ∀ j, level ≤ j → j < g.store.root.level → cl.path j ≠ .null

end Client

/-- What is known of the key: an insert has a new key, an update a stored one. -/
structure Known (g : Charted L) (cl : Client L) : Prop where
  distinct : ∀ k, k ≠ 0 → OnceEach g k
  insert : cl.Inserts → cl.pc.unwritten = true → ∀ w, ¬Contents g cl.key w
  update : ∀ v, cl.request = .update v → ∃ w, Contents g cl.key w
  writes : cl.WritesPair

/-- The result of a search. -/
def FoundIn (g : Charted L) (k v : Nat) : Prop := Contents g k v ∨ (v = kValueNull ∧ ∀ w, ¬Contents g k w)

/-- The leaf begins at or before the key, unless a search looks for a key that is not stored. -/
def Near (g : Charted L) (cl : Client L) (l : Nat) : Prop :=
  l ≤ cl.key ∨ (cl.request = .search ∧ ∀ w, ¬Contents g cl.key w)

/-- Where a client stands that is alone and uses no cache, with its rank. -/
inductive SoloAt (g : Charted L) (cl : Client L) : Rank → TreePc L → Prop
  | start : SoloAt g cl (5, 0, 0, 0) .start
  | visit {p : Position} {l : Nat} : p.fromCache = false → Points (g.dir (p.level - 1)) l p.nodeAddr → l ≤ cl.key →
      p.level ≤ g.store.root.level → cl.Pathed g p.level → SoloAt g cl (4, p.level, 0, L.keyFull - l) (.visit p)
  | leaf {p : Position} {l : Nat} : p.fromCache = false → Points (g.dir 0) l p.nodeAddr → Near g cl l → cl.Pathed g 1 →
      SoloAt g cl (3, 0, 0, 3 * (L.keyFull - l) + 2) (.leaf p)
  | leafLocked {a l : Nat} {p : Position} {w : Valock L} : p.fromCache = false → g.dir 0 l = some a → l ≤ cl.key →
      cl.Pathed g 1 → SoloAt g cl (3, 0, 0, 3 * (L.keyFull - l) + 1) (.leafLocked a p w)
  | leafUnlock {a l : Nat} {w : Valock L} {p : Position} : p.fromCache = false → Points (g.dir 0) l p.nodeAddr →
      l ≤ cl.key → cl.Pathed g 1 → SoloAt g cl (3, 0, 0, 3 * (L.keyFull - l) + 3) (.leafUnlock a w (some p))
  | leafWrite {a : Nat} {x : LeafWrite L} : SoloAt g cl (2, 0, 0, 0) (.leafWrite a x)
  | leafSplitSibling {a new : Nat} {x : LeafSplit L} : cl.Pathed g 1 →
      SoloAt g cl (2, 2, 0, 0) (.leafSplitSibling a new x)
  | leafSplitWrite {a new : Nat} {x : LeafSplit L} : cl.Pathed g 1 → SoloAt g cl (2, 1, 0, 0) (.leafSplitWrite a new x)
  | newRoot {level a k sib : Nat} : cl.Inserts → SoloAt g cl (1, 0, 1, 0) (.newRoot level a k sib)
  | rootCas {level a root k sib : Nat} : cl.Inserts → SoloAt g cl (1, 0, 0, 0) (.rootCas level a root k sib)
  | parent {e : Separator} : cl.Inserts → cl.Pathed g e.level → e.level < g.store.root.level →
      SoloAt g cl (1, g.store.root.level - e.level, 4, 0) (.parent e)
  | internal {e : Separator} {p : GlobalAddress} {l : Nat} : cl.Inserts → cl.Pathed g e.level →
      e.level < g.store.root.level → Points (g.dir e.level) l p →
      SoloAt g cl (1, g.store.root.level - e.level, 3, 3 * (L.keyFull - l) + 2) (.internal e p false)
  | internalLocked {e : Separator} {a l : Nat} : cl.Inserts → cl.Pathed g e.level → e.level < g.store.root.level →
      g.dir e.level l = some a →
      SoloAt g cl (1, g.store.root.level - e.level, 3, 3 * (L.keyFull - l) + 1) (.internalLocked e a false)
  | internalUnlock {e : Separator} {a l : Nat} {p : GlobalAddress} : cl.Inserts → cl.Pathed g e.level →
      e.level < g.store.root.level → Points (g.dir e.level) l p →
      SoloAt g cl (1, g.store.root.level - e.level, 3, 3 * (L.keyFull - l) + 3) (.internalUnlock e a (some p))
  | internalWrite {e : Separator} {a : Nat} {nd : InternalNode} : cl.Inserts →
      SoloAt g cl (1, g.store.root.level - e.level, 0, 0) (.internalWrite e a nd)
  | internalSplitSibling {e : Separator} {a new : Nat} {x : InternalSplit} : cl.Inserts → cl.Pathed g e.level →
      e.level < g.store.root.level →
      SoloAt g cl (1, g.store.root.level - e.level, 2, 0) (.internalSplitSibling e a new x)
  | internalSplitWrite {e : Separator} {a new : Nat} {x : InternalSplit} : cl.Inserts → cl.Pathed g e.level →
      e.level < g.store.root.level →
      SoloAt g cl (1, g.store.root.level - e.level, 1, 0) (.internalSplitWrite e a new x)

/-- The client goes on with a lower rank, or it is done, with the right result. -/
def SoloNext (g : Charted L) (cl : Client L) (r : Rank) (g' : Charted L) (cl' : Client L) : Prop :=
  (∃ r', Rank.Lt r' r ∧ SoloAt g' cl' r' cl'.pc) ∨ ∃ v, cl'.pc = .done v ∧ (cl.request = .search → FoundIn g cl.key v)

/-! ## The steps of the client -/

section Steps

variable {l a : Nat} {r : Rank} {p : Position} {e : Separator}

omit [Arithmetic] in
theorem visited_path_of_ne {j : Nat} (hj : j ≠ p.level - 1) : (cl.visited p).path j = cl.path j := by
  rw [Client.visited]
  cases cl.request with
  | insert v => exact Function.update_of_ne hj ..
  | _ => rfl

omit [Arithmetic] in
theorem visited_path_self (hi : cl.Inserts) : (cl.visited p).path (p.level - 1) = p.nodeAddr := by
  obtain ⟨v, hv⟩ := hi
  simp only [Client.visited, hv]
  exact Function.update_self ..

/-- The nodes of a level begin before the upper end. -/
theorem Points.lt_keyFull (hg : TreeOk g) {m : Nat} {q : GlobalAddress} (h : Points (g.dir m) l q) : l < L.keyFull :=
  let ⟨_, ha, _⟩ := h
  (hg.range ha).2

/-- A pointer leads to one beginning. -/
theorem Points.begin_eq (hg : TreeOk g) {m l' : Nat} {q : GlobalAddress} (h : Points (g.dir m) l q) (hq : q = .at a)
    (ha : g.dir m l' = some a) : l = l' := by
  obtain ⟨b, hb, rfl⟩ := h
  cases hq
  exact hg.inj_level m l l' a hb ha

theorem solo_start (hg : TreeOk g) (hc : ClientOk g cl) (hoff : ch.cache = none) (hm : TreeMove g ch cl .start g' cl') :
    SoloNext g cl (5, 0, 0, 0) g' cl' := by
  cases hm with
  | fromRoot =>
    exact .inl ⟨_, .left _ _ (by omega), .visit (p := ⟨_, _, _, false⟩) rfl hg.root hc.key_pos le_rfl
      fun _ j h1 h2 => absurd h2 (not_lt.2 h1)⟩
  | fromCache hch => cases hoff.symm.trans hch

/-- **A visit** goes down or to the right. -/
theorem solo_visit (hg : TreeOk g) (h3 : 3 ≤ L.internalSpanSize) (hfc : p.fromCache = false)
    (hp : Points (g.dir (p.level - 1)) l p.nodeAddr) (hl : l ≤ cl.key) (hlevel : p.level ≤ g.store.root.level)
    (hpath : cl.Pathed g p.level) (hm : TreeMove g ch cl (.visit p) g' cl') :
    SoloNext g cl (4, p.level, 0, L.keyFull - l) g' cl' := by
  left
  cases hm with
  | atLeaf h1 =>
    rw [h1] at hp
    refine ⟨_, .left _ _ (by omega), .leaf hfc hp (.inl hl) fun hi j hj hjr => ?_⟩
    show (cl.visited p).path j ≠ .null
    rw [visited_path_of_ne (by omega)]
    exact hpath hi j (by omega) hjr
  | staleVisit hfc' => cases hfc.symm.trans hfc'
  | @visitRight _ a l' nd locked h2 hpa hnd hhigh hpt =>
    obtain rfl := hp.begin_eq hg hpa hnd.linked
    have hlt := hnd.ok.next.lt
    have hkf := hpt.lt_keyFull hg
    refine ⟨_, .right _ (.right _ (.right _ ?_)),
      .visit (p := ⟨p.level, nd.siblingPtr, p.siblingAddr, false⟩) rfl hpt hhigh
      hlevel fun hi j hj hjr => ?_⟩
    · show L.keyFull - nd.highest < L.keyFull - l
      omega
    · show Function.update (cl.visited p).path (p.level - 1) nd.siblingPtr j ≠ .null
      rw [Function.update_of_ne (by simp only at hj; omega), visited_path_of_ne (by simp only at hj; omega)]
      exact hpath hi j hj hjr
  | @down _ a l' nd locked h2 hpa hnd hlow hhigh =>
    obtain ⟨b, hb, hpt⟩ := ((hnd.ok.routes.childPtr (hnd.ok.lowest ▸ hlow) hhigh).1).points h3
    have hnl := hnd.ok.level
    refine ⟨_, .right _ (.left _ _ ?_),
      .visit (p := ⟨nd.level, (nd.childPtr cl.key).1, (nd.childPtr cl.key).2, false⟩) rfl
      hpt hb ?_ fun hi j hj hjr => ?_⟩
    · show nd.level < p.level
      omega
    · show nd.level ≤ g.store.root.level
      omega
    · show (cl.visited p).path j ≠ .null
      simp only at hj
      by_cases hjp : j = p.level - 1
      · rw [hjp, visited_path_self (show cl.Inserts from hi), hpa]
        exact GlobalAddress.noConfusion
      · rw [visited_path_of_ne hjp]
        exact hpath hi j (by omega) hjr

/-- A key that is not in the leaf that covers it is not stored. -/
theorem LeafAt.not_contents {h k : Nat} {lf : LeafNode L} {lock : Option (Valock L)} (hg : TreeOk g)
    (hat : LeafAt g a l h lf lock) (hl : l ≤ k) (hh : k < h) (hno : ¬lf.records.HasKey k) : ∀ w, ¬Contents g k w :=
  fun _ hw => hno (hat.hasKey hg hl hh hw)

/-- **At a leaf** a search ends or goes to the right, and the others lock the leaf. -/
theorem solo_leaf (hg : TreeOk g) (hlocks : Locks g cl) (hcl : cl.pc = .leaf p) (hfc : p.fromCache = false)
    (hp : Points (g.dir 0) l p.nodeAddr) (hnear : Near g cl l) (hpath : cl.Pathed g 1)
    (hm : TreeMove g ch cl (.leaf p) g' cl') : SoloNext g cl (3, 0, 0, 3 * (L.keyFull - l) + 2) g' cl' := by
  cases hm with
  | found hs hpa hat hst => exact .inr ⟨_, rfl, fun _ => .inl ⟨_, _, hat.leaves, hst⟩⟩
  | absent hs hpa hat hno hh =>
    obtain rfl := hp.begin_eq hg hpa hat.linked
    exact .inr ⟨_, rfl, fun _ => .inr ⟨rfl, hnear.elim (fun hl => hat.not_contents hg hl hh hno) And.right⟩⟩
  | @walk _ a l' h h' lf lock sib hs hpa hat hno ht hlt hkh hpt =>
    obtain rfl := hp.begin_eq hg hpa hat.linked
    have hlh := hat.ok.next.lt
    have hkf := hpt.lt_keyFull hg
    refine .inl ⟨_, .right _ (.right _ (.right _ ?_)), .leaf (p := ⟨1, sib, p.siblingAddr, false⟩) rfl hpt ?_ hpath⟩
    · show 3 * (L.keyFull - h) + 2 < 3 * (L.keyFull - l) + 2
      omega
    · rcases hnear with hl | hnear
      · by_cases hkh : cl.key < h
        · exact .inr ⟨hs, hat.not_contents hg hl hkh hno⟩
        · exact .inl (not_lt.1 hkh)
      · exact .inr hnear
  | staleLeaf hfc' => cases hfc.symm.trans hfc'
  | spinLeaf hs hpa hmem =>
    obtain ⟨b, hb, hpb⟩ := hp
    cases hpa.symm.trans hpb
    have := hlocks 0 l _ hb (by rw [hmem]; rfl)
    rw [hcl] at this
    cases this
  | lockLeaf hs hpa hmem =>
    obtain ⟨b, hb, hpb⟩ := hp
    cases hpa.symm.trans hpb
    exact .inl ⟨_, .right _ (.right _ (.right _ (Nat.lt_succ_self _))), .leafLocked hfc hb
      (hnear.resolve_right fun h => hs h.1) hpath⟩

/-- **At a locked leaf** the client goes to the right, or writes, or splits. -/
theorem solo_leafLocked (hg : TreeOk g) (hc : ClientOk g cl) (hknown : Known g cl) {w : Valock L}
    (hcl : cl.pc = .leafLocked a p w) (hfc : p.fromCache = false) (ha : g.dir 0 l = some a) (hl : l ≤ cl.key)
    (hpath : cl.Pathed g 1) (hm : TreeMove g ch cl (.leafLocked a p w) g' cl') :
    SoloNext g cl (3, 0, 0, 3 * (L.keyFull - l) + 1) g' cl' := by
  left
  have hk0 : cl.key ≠ 0 := by
    have := hc.key_pos
    omega
  -- the leaf begins at `l`
  have hbegin : ∀ {l' h lf lock}, LeafAt g a l' h lf lock → l' = l := fun hat => hg.inj_level 0 _ _ a hat.linked ha
  have hright : ∀ {h : Nat} {sib : GlobalAddress}, l < h → h ≤ cl.key → Points (g.dir 0) h sib → ∀ q : Position,
      q.fromCache = false → q.nodeAddr = sib → ∃ r', Rank.Lt r' (3, 0, 0, 3 * (L.keyFull - l) + 1) ∧
        SoloAt g (cl.goto (.leafUnlock a w (some q))) r' (.leafUnlock a w (some q)) := by
    intro h sib hlh hhk hpt q hq hqs
    have hkf := hpt.lt_keyFull hg
    refine ⟨_, .right _ (.right _ (.right _ ?_)), .leafUnlock hq (hqs ▸ hpt) hhk hpath⟩
    show 3 * (L.keyFull - h) + 3 < 3 * (L.keyFull - l) + 1
    omega
  have hunwritten : cl.pc.unwritten = true := by
    rw [hcl]
    rfl
  cases hm with
  | staleLocked hfc' => cases hfc.symm.trans hfc'
  | insertRight hr hat hle hpt =>
    obtain rfl := hbegin hat
    exact hright hat.ok.next.lt hle hpt _ rfl rfl
  | updateRight hr hat hno ht hlt hkh hpt =>
    obtain rfl := hbegin hat
    obtain ⟨w', hw'⟩ := hknown.update _ hr
    exact hright hat.ok.next.lt (not_lt.1 fun hh => hno (hat.hasKey hg hl hh hw')) hpt _ rfl rfl
  | toWrite => exact ⟨_, .left _ _ (by omega), .leafWrite⟩
  | toSplit hr => exact ⟨_, .left _ _ (by omega), .leafSplitSibling hpath⟩
  | stuck hr hat hd hb =>
    rcases hd with hd | hkey
    · exact absurd (Records.distinct_iff.2 fun k hk => hknown.distinct k hk _ _ hat.leaves) hd
    · obtain ⟨w', hw'⟩ := hasKey_iff.1 hkey
      exact absurd ⟨_, _, hat.leaves, hw'⟩ (hknown.insert ⟨_, hr⟩ hunwritten w')
  | keyMissing hr hat hno hh =>
    obtain rfl := hbegin hat
    obtain ⟨w', hw'⟩ := hknown.update _ hr
    exact absurd (hat.hasKey hg hl hh hw') hno

omit [Arithmetic] in
/-- A split goes on at a new root, or at the parent on the path. -/
theorem solo_updateParent {isRoot : Bool} {m k new : Nat} {P b c : Nat} (hins : cl.Inserts)
    (hpath : cl.Pathed g (m + 1)) (hroot : g'.store.root = g.store.root)
    (hbelow : isRoot = false → m + 1 < g.store.root.level)
    (hr : 1 < P ∨ P = 1 ∧ g.store.root.level - (m + 1) < b ∧ 0 < b) :
    ∃ r', Rank.Lt r' (P, b, c, 0) ∧
      SoloAt g' (cl.updateParent isRoot m a k new) r' (cl.updateParent isRoot m a k new).pc := by
  have hlt : ∀ {x y z : Nat}, (x = 0 ∨ x = g.store.root.level - (m + 1)) → Rank.Lt (1, x, y, z) (P, b, c, 0) := by
    intro x y z hx
    rcases hr with hP | ⟨rfl, h1, h2⟩
    · exact .left _ _ hP
    · exact .right _ (.left _ _ (by omega))
  cases isRoot with
  | true => exact ⟨_, hlt (.inl rfl), .newRoot hins⟩
  | false =>
    refine ⟨_, hlt (.inr (by rw [hroot])), .parent (e := ⟨m + 1, k, .at new⟩) hins ?_ ?_⟩
    · intro _ j hj hjr
      rw [hroot] at hjr
      exact hpath hins j hj hjr
    · rw [hroot]
      exact hbelow rfl

theorem solo_leafSplitWrite (hg : TreeOk g) (hc : ClientOk g cl) (htop : TopAlone g cl) {new : Nat} {x : LeafSplit L}
    (hcl : cl.pc = .leafSplitWrite a new x) (hpath : cl.Pathed g 1)
    (hm : TreeMove g ch cl (.leafSplitWrite a new x) g' cl') :
    SoloNext g cl (2, 1, 0, 0) g' cl' := by
  left
  have hpc := hc.pc
  rw [hcl] at hpc
  obtain ⟨-, -, hins, ⟨lf, ⟨⟨l, hl, ha⟩, hmem, hr⟩, hx⟩, -⟩ := hpc
  obtain ⟨h, hat⟩ := hg.leafAt ha hmem
  cases hm with
  | splitLeaf =>
    refine solo_updateParent hins hpath rfl (fun hroot => ?_) (.inl (by omega))
    refine htop.below hg (by simp [hcl, TreePc.owned]) ha hat.ok.next fun halone => ?_
    rw [hx.isRoot, hat.ok.root.2 halone] at hroot
    cases hroot

/-- **At an internal node** the client locks it. -/
theorem solo_internal (hlocks : Locks g cl) {q : GlobalAddress} (hcl : cl.pc = .internal e q false) (hins : cl.Inserts)
    (hpath : cl.Pathed g e.level) (hlevel : e.level < g.store.root.level) (hp : Points (g.dir e.level) l q)
    (hm : TreeMove g ch cl (.internal e q false) g' cl') :
    SoloNext g cl (1, g.store.root.level - e.level, 3, 3 * (L.keyFull - l) + 2) g' cl' := by
  left
  obtain ⟨b, hb, rfl⟩ := hp
  cases hm with
  | spinInternal hpa hmem =>
    cases hpa
    have := hlocks _ l _ hb (by rw [hmem]; rfl)
    rw [hcl] at this
    simp [TreePc.owned] at this
  | lockInternal hpa hmem =>
    cases hpa
    exact ⟨_, .right _ (.right _ (.right _ (Nat.lt_succ_self _))), .internalLocked hins hpath hlevel hb⟩

theorem solo_internalLocked (hg : TreeOk g) (hins : cl.Inserts) (hpath : cl.Pathed g e.level)
    (hlevel : e.level < g.store.root.level) (ha : g.dir e.level l = some a)
    (hm : TreeMove g ch cl (.internalLocked e a false) g' cl') :
    SoloNext g cl (1, g.store.root.level - e.level, 3, 3 * (L.keyFull - l) + 1) g' cl' := by
  left
  cases hm with
  | staleInternal hfc => cases hfc
  | @internalRight _ _ l' _ nd hnd hhigh hpt =>
    obtain rfl := hg.inj_level _ _ _ a hnd.linked ha
    have hlt := hnd.ok.next.lt
    have hkf := hpt.lt_keyFull hg
    refine ⟨_, .right _ (.right _ (.right _ ?_)), .internalUnlock hins hpath hlevel hpt⟩
    show 3 * (L.keyFull - nd.highest) + 3 < 3 * (L.keyFull - l') + 1
    omega
  | toInternalWrite => exact ⟨_, .right _ (.right _ (.left _ _ (by omega))), .internalWrite hins⟩
  | toInternalSplit => exact ⟨_, .right _ (.right _ (.left _ _ (by omega))), .internalSplitSibling hins hpath hlevel⟩

theorem solo_internalSplitWrite (hg : TreeOk g) (hc : ClientOk g cl) (htop : TopAlone g cl) {new : Nat}
    {x : InternalSplit} (hcl : cl.pc = .internalSplitWrite e a new x) (hins : cl.Inserts) (hpath : cl.Pathed g e.level)
    (hlevel : e.level < g.store.root.level) (hm : TreeMove g ch cl (.internalSplitWrite e a new x) g' cl') :
    SoloNext g cl (1, g.store.root.level - e.level, 1, 0) g' cl' := by
  left
  have hpc := hc.pc
  rw [hcl] at hpc
  obtain ⟨hs, -, -, ⟨nd, ⟨⟨l, hl, ha⟩, hmem⟩, hk', hx⟩, -⟩ := hpc
  obtain ⟨nd', locked, hnd⟩ := hg.internalAt hs.level_pos ha
  cases hmem.symm.trans hnd.mem
  cases hm with
  | splitInternal =>
    refine solo_updateParent hins (fun hi j hj => hpath hi j (by omega)) rfl (fun hroot => ?_)
      (.inr ⟨rfl, by omega, by omega⟩)
    refine htop.below hg (by simp [hcl, TreePc.owned]) ha hnd.ok.next fun halone => ?_
    rw [hx.isRoot] at hroot
    simp only [InternalNode.isRoot, hnd.ok.lowest, halone, kKeyMin_eq, and_self, decide_true] at hroot
    cases hroot

end Steps

/-- **A step** of a client that is alone and uses no cache. -/
theorem SoloAt.step (hg : TreeOk g) (h3 : 3 ≤ L.internalSpanSize) (hc : ClientOk g cl) (hoff : ch.cache = none)
    (hlocks : Locks g cl) (htop : TopAlone g cl) (hknown : Known g cl) {r : Rank} (hat : SoloAt g cl r cl.pc)
    (hm : TreeMove g ch cl cl.pc g' cl') : SoloNext g cl r g' cl' := by
  have hpc := hc.pc
  generalize hcl : cl.pc = pc at hat hm hpc
  cases hat with
  | start => exact solo_start hg hc hoff hm
  | visit hfc hp hl hlevel hpath => exact solo_visit hg h3 hfc hp hl hlevel hpath hm
  | leaf hfc hp hnear hpath => exact solo_leaf hg hlocks hcl hfc hp hnear hpath hm
  | leafLocked hfc ha hl hpath => exact solo_leafLocked hg hc hknown hcl hfc ha hl hpath hm
  | leafUnlock hfc hp hl hpath =>
    cases hm with
    | unlockLeaf hmem =>
      exact .inl ⟨_, .right _ (.right _ (.right _ (Nat.lt_succ_self _))), .leaf hfc hp (.inl hl) hpath⟩
  | leafWrite =>
    cases hm with
    | writeLeaf hmem =>
      exact .inr ⟨_, rfl, fun hs => absurd hs (hknown.writes (by rw [Client.writesLeaf, hcl]))⟩
  | leafSplitSibling hpath =>
    cases hm with
    | writeLeafSibling => exact .inl ⟨_, .right _ (.left _ _ (Nat.lt_succ_self _)), .leafSplitWrite hpath⟩
  | leafSplitWrite hpath => exact solo_leafSplitWrite hg hc htop hcl hpath hm
  | newRoot hins =>
    cases hm with
    | newRoot => exact .inl ⟨_, .right _ (.right _ (.left _ _ Nat.zero_lt_one)), .rootCas hins⟩
  | rootCas hins =>
    cases hm with
    | growRoot =>
      obtain ⟨v, hv⟩ := hins
      exact .inr ⟨_, rfl, fun hs => by cases hv.symm.trans hs⟩
  | @parent e hins hpath hlevel =>
    have hne := hpath hins e.level le_rfl hlevel
    cases hm with
    | parentPath =>
      obtain ⟨l, hl, hp⟩ := hpc.2 e.level le_rfl hne
      exact .inl ⟨_, .right _ (.right _ (.left _ _ (Nat.lt_succ_self _))), .internal hins hpath hlevel hp⟩
    | parentCache hch => cases hoff.symm.trans hch
    | parentNull hch => exact absurd hoff hch
    | parentRoot _ hnull => exact absurd hnull hne
  | internal hins hpath hlevel hp => exact solo_internal hlocks hcl hins hpath hlevel hp hm
  | internalLocked hins hpath hlevel ha => exact solo_internalLocked hg hins hpath hlevel ha hm
  | internalUnlock hins hpath hlevel hp =>
    cases hm with
    | unlockInternal hmem =>
      exact .inl ⟨_, .right _ (.right _ (.right _ (Nat.lt_succ_self _))), .internal hins hpath hlevel hp⟩
  | internalWrite hins =>
    cases hm with
    | writeInternal =>
      obtain ⟨v, hv⟩ := hins
      exact .inr ⟨_, rfl, fun hs => by cases hv.symm.trans hs⟩
  | internalSplitSibling hins hpath hlevel =>
    cases hm with
    | writeInternalSibling =>
      exact .inl ⟨_, .right _ (.right _ (.left _ _ (Nat.lt_succ_self _))), .internalSplitWrite hins hpath hlevel⟩
  | internalSplitWrite hins hpath hlevel => exact solo_internalSplitWrite hg hc htop hcl hins hpath hlevel hm

end Chime

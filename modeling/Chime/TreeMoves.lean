import Chime.TreeInv

/-!
# What one step of a client can do

`TreeMove` lists what a step can do in a state that meets the invariant, with everything that later proofs need of the
nodes that the step has read. `Client.step_moves`: a step of a client does one of these. What the whole system does is
derived from it.
-/

namespace Chime

open Boundary (Next Extends Below)
open Records

variable {L : Layout}

/-- The bucket of the lock word up to which an insert reads, if it does not read the whole leaf, has its slots in its
range. -/
def Client.InRange [Arithmetic] (cl : Client L) : Prop :=
  ∀ a p lock v, cl.pc = .leafLocked a p lock → cl.request = .insert v →
    lock.InRange (L.getHashedLeafEntryIndex cl.key).val

/-- The leaf `a` covers the keys from `l` up to `h`. -/
structure LeafAt (g : Charted L) (a l h : Nat) (lf : LeafNode L) (lock : Option (Valock L)) : Prop where
  linked : g.dir 0 l = some a
  mem : g.store.mem a = .leaf lf lock
  ok : LeafOk L (g.dir 0) l h lf

/-- The internal node `a` of level `m` begins at `l`. -/
structure InternalAt (g : Charted L) (m a l : Nat) (nd : InternalNode) (locked : Bool) : Prop where
  linked : g.dir m l = some a
  mem : g.store.mem a = .internal nd locked
  ok : InternalOk L g.dir m l nd

section Arithmetic

variable [Arithmetic]

/-- **A step** of the client `cl` with the choice `ch`, from the place it stands at. -/
inductive TreeMove (g : Charted L) (ch : Choice L) (cl : Client L) : TreePc L → Charted L → Client L → Prop
  | fromRoot : ch.cache = none →
      TreeMove g ch cl .start g (cl.goto (.visit ⟨g.store.root.level, g.store.root.ptr, .null, false⟩))
  | fromCache {nd : InternalNode} : ch.cache = some nd → nd ∈ g.store.cached → nd.lowest ≤ cl.key →
    cl.key < nd.highest →
      TreeMove g ch cl .start g (cl.goto (.visit ⟨nd.level, (nd.childPtr cl.key).1, (nd.childPtr cl.key).2, true⟩))
  | atLeaf {p : Position} : p.level = 1 → TreeMove g ch cl (.visit p) g ((cl.visited p).goto (.leaf p))
  | staleVisit {p : Position} : p.fromCache = true → TreeMove g ch cl (.visit p) g ((cl.visited p).goto .start)
  | visitRight {p : Position} {a l : Nat} {nd : InternalNode} {locked : Bool} : 2 ≤ p.level → p.nodeAddr = .at a →
      InternalAt g (p.level - 1) a l nd locked → nd.highest ≤ cl.key →
      Points (g.dir (p.level - 1)) nd.highest nd.siblingPtr → p.fromCache = false →
      TreeMove g ch cl (.visit p) g (((cl.visited p).record p.level nd.siblingPtr).goto
        (.visit ⟨p.level, nd.siblingPtr, p.siblingAddr, false⟩))
  | down {p : Position} {a l : Nat} {nd : InternalNode} {locked : Bool} : 2 ≤ p.level → p.nodeAddr = .at a →
      InternalAt g (p.level - 1) a l nd locked → l ≤ cl.key → cl.key < nd.highest →
      TreeMove g ch cl (.visit p) ⟨g.store.cacheNode nd, g.dir⟩ ((cl.visited p).goto
        (.visit ⟨nd.level, (nd.childPtr cl.key).1, (nd.childPtr cl.key).2, false⟩))
  | found {p : Position} {a l h v : Nat} {lf : LeafNode L} {lock : Option (Valock L)} : cl.request = .search →
      p.nodeAddr = .at a → LeafAt g a l h lf lock → lf.records.Stored cl.key v →
      TreeMove g ch cl (.leaf p) g (cl.goto (.done v))
  | absent {p : Position} {a l h : Nat} {lf : LeafNode L} {lock : Option (Valock L)} : cl.request = .search →
      p.nodeAddr = .at a → LeafAt g a l h lf lock → ¬lf.records.HasKey cl.key → cl.key < h →
      TreeMove g ch cl (.leaf p) g (cl.goto (.done kValueNull))
  | walk {p : Position} {a l h h' : Nat} {lf : LeafNode L} {lock : Option (Valock L)} {sib : GlobalAddress} :
      cl.request = .search → p.nodeAddr = .at a → LeafAt g a l h lf lock → ¬lf.records.HasKey cl.key →
      Target L (g.dir 0) h' p.siblingAddr → h < h' → cl.key < h' → Points (g.dir 0) h sib → p.fromCache = false →
      TreeMove g ch cl (.leaf p) g (cl.goto (.leaf ⟨1, sib, p.siblingAddr, false⟩))
  | staleLeaf {p : Position} : p.fromCache = true → TreeMove g ch cl (.leaf p) g (cl.goto .start)
  | spinLeaf {p : Position} {a : Nat} {lf : LeafNode L} : cl.request ≠ .search → p.nodeAddr = .at a →
      g.store.mem a = .leaf lf none → TreeMove g ch cl (.leaf p) g cl
  | lockLeaf {p : Position} {a : Nat} {lf : LeafNode L} {w : Valock L} : cl.request ≠ .search → p.nodeAddr = .at a →
      g.store.mem a = .leaf lf (some w) →
      TreeMove g ch cl (.leaf p) ⟨g.store.write a (.leaf lf none), g.dir⟩ (cl.goto (.leafLocked a p w))
  | staleLocked {a : Nat} {p : Position} {w : Valock L} : p.fromCache = true →
      TreeMove g ch cl (.leafLocked a p w) g (cl.goto (.leafUnlock a w none))
  | insertRight {a l h v : Nat} {p : Position} {w : Valock L} {lf : LeafNode L} {sib : GlobalAddress} :
      cl.request = .insert v → LeafAt g a l h lf none → h ≤ cl.key → Points (g.dir 0) h sib →
      TreeMove g ch cl (.leafLocked a p w) g (cl.goto (.leafUnlock a w (some ⟨1, sib, .null, false⟩)))
  | updateRight {a l h h' v : Nat} {p : Position} {w : Valock L} {lf : LeafNode L} {sib : GlobalAddress} :
      cl.request = .update v → LeafAt g a l h lf none → ¬lf.records.HasKey cl.key →
      Target L (g.dir 0) h' p.siblingAddr → h < h' → cl.key < h' → Points (g.dir 0) h sib → p.fromCache = false →
      TreeMove g ch cl (.leafLocked a p w) g (cl.goto (.leafUnlock a w (some ⟨1, sib, p.siblingAddr, false⟩)))
  | toWrite {a l h : Nat} {p : Position} {w : Valock L} {lf : LeafNode L} {r' : Records L} {x : LeafWrite L} :
      LeafAt g a l h lf none → l ≤ cl.key → cl.key < h → Upserted lf.records cl.key cl.request.value r' →
      x.apply lf = { lf with records := r' } → LockTells x.lock r' →
      (∀ v, cl.request = .update v → r'.keys = lf.records.keys) →
      (∀ v, cl.request = .update v → x.lock = w ∧ ∃ i, lf.records.keys i = cl.key ∧
        r' = lf.records.update i.val cl.key v) →
      TreeMove g ch cl (.leafLocked a p w) g (cl.goto (.leafWrite a x))
  | toSplit {a l h v : Nat} {p : Position} {w : Valock L} {lf : LeafNode L} {x : LeafSplit L} :
      cl.request = .insert v → LeafAt g a l h lf none → l ≤ cl.key → cl.key < h →
      SplitOf lf cl.key cl.request.value (.at g.store.next) x →
      TreeMove g ch cl (.leafLocked a p w) ⟨g.store.alloc, g.dir⟩ (cl.goto (.leafSplitSibling a g.store.next x))
  | stuck {a l h v : Nat} {p : Position} {w : Valock L} {lf : LeafNode L} {b : Assertion} : cl.request = .insert v →
      LeafAt g a l h lf none → ¬lf.records.Distinct ∨ lf.records.HasKey cl.key → b = .noEmpty ∨ b = .hopFails →
      TreeMove g ch cl (.leafLocked a p w) g (cl.goto (.crashed b))
  | keyMissing {a l h v : Nat} {p : Position} {w : Valock L} {lf : LeafNode L} : cl.request = .update v →
      LeafAt g a l h lf none → ¬lf.records.HasKey cl.key → cl.key < h →
      TreeMove g ch cl (.leafLocked a p w) g (cl.goto (.crashed .keyMissing))
  | unlockLeaf {a : Nat} {w : Valock L} {next : Option Position} {lf : LeafNode L} : g.store.mem a = .leaf lf none →
      TreeMove g ch cl (.leafUnlock a w next) ⟨g.store.write a (.leaf lf (some w)), g.dir⟩
        (cl.goto (.afterLeaf next))
  | writeLeaf {a : Nat} {x : LeafWrite L} {lf : LeafNode L} : g.store.mem a = .leaf lf none →
      TreeMove g ch cl (.leafWrite a x) ⟨g.store.write a (.leaf (x.apply lf) (some x.lock)), g.dir⟩
        (cl.goto (.done kValueNull))
  | writeLeafSibling {a new : Nat} {x : LeafSplit L} :
      TreeMove g ch cl (.leafSplitSibling a new x) ⟨g.store.write new (.leaf x.right (some x.rightLock)), g.dir⟩
        (cl.goto (.leafSplitWrite a new x))
  | splitLeaf {a new : Nat} {x : LeafSplit L} :
      TreeMove g ch cl (.leafSplitWrite a new x)
        ⟨g.store.write a (.leaf x.left (some x.leftLock)), g.dir.insert 0 x.splitKey new⟩
        (cl.updateParent x.isRoot 0 a x.splitKey new)
  | newRoot {level a k sib : Nat} :
      TreeMove g ch cl (.newRoot level a k sib)
        ⟨(g.store.write g.store.next (.internal (InternalNode.newRoot L level (.at a) k (.at sib)) false)).alloc, g.dir⟩
        (cl.goto (.rootCas level a g.store.next k sib))
  | growRoot {level a r k sib : Nat} :
      TreeMove g ch cl (.rootCas level a r k sib)
        ⟨{ g.store with root := ⟨level + 2, .at r⟩ }, g.dir.insert (level + 1) 1 r⟩ (cl.goto (.done kValueNull))
  | parentPath {e : Separator} : cl.path e.level ≠ .null →
      TreeMove g ch cl (.parent e) g (cl.goto (.internal e (cl.path e.level) false))
  | parentCache {e : Separator} {nd : InternalNode} : ch.cache = some nd → nd ∈ g.store.cached →
    nd.level = e.level + 1 →
      nd.lowest ≤ e.key → e.key < nd.highest →
      TreeMove g ch cl (.parent e) g (cl.goto (.internal e (nd.childPtr e.key).1 true))
  | parentNull {e : Separator} : ch.cache ≠ none → TreeMove g ch cl (.parent e) g (cl.goto (.crashed .parentNull))
  | parentRoot {e : Separator} : ch.cache = none → cl.path e.level = .null →
      TreeMove g ch cl (.parent e) g (cl.goto (.readRoot e))
  | readRoot {e : Separator} :
      TreeMove g ch cl (.readRoot e) g (cl.goto (.insertInternal e g.store.root.level g.store.root.ptr))
  | noTarget {e : Separator} {level : Nat} {p : GlobalAddress} : level ≤ 1 →
      TreeMove g ch cl (.insertInternal e level p) g ((cl.record level p).goto (.crashed .levelOne))
  | atTarget {e : Separator} {level : Nat} {p : GlobalAddress} : 2 ≤ level → level - 1 = e.level →
      TreeMove g ch cl (.insertInternal e level p) g ((cl.record level p).goto (.internal e p false))
  | targetRight {e : Separator} {level a l : Nat} {p : GlobalAddress} {nd : InternalNode} {locked : Bool} :
      2 ≤ level → level - 1 ≠ e.level → p = .at a → InternalAt g (level - 1) a l nd locked → nd.highest ≤ e.key →
      Points (g.dir (level - 1)) nd.highest nd.siblingPtr →
      TreeMove g ch cl (.insertInternal e level p) g (((cl.record level p).record level nd.siblingPtr).goto
        (.insertInternal e level nd.siblingPtr))
  | targetDown {e : Separator} {level a l : Nat} {p : GlobalAddress} {nd : InternalNode} {locked : Bool} :
      2 ≤ level → level - 1 ≠ e.level → p = .at a → InternalAt g (level - 1) a l nd locked → l ≤ e.key →
      e.key < nd.highest →
      TreeMove g ch cl (.insertInternal e level p) ⟨g.store.cacheNode nd, g.dir⟩ ((cl.record level p).goto
        (.insertInternal e nd.level (nd.childPtr e.key).1))
  | spinInternal {e : Separator} {p : GlobalAddress} {fc : Bool} {a : Nat} {nd : InternalNode} : p = .at a →
      g.store.mem a = .internal nd true → TreeMove g ch cl (.internal e p fc) g cl
  | lockInternal {e : Separator} {p : GlobalAddress} {fc : Bool} {a : Nat} {nd : InternalNode} : p = .at a →
      g.store.mem a = .internal nd false →
      TreeMove g ch cl (.internal e p fc) ⟨g.store.write a (.internal nd true), g.dir⟩ (cl.goto (.internalLocked e a fc))
  | staleInternal {e : Separator} {a : Nat} {fc : Bool} : fc = true →
      TreeMove g ch cl (.internalLocked e a fc) g (cl.goto (.internalUnlock e a none))
  | internalRight {e : Separator} {a l : Nat} {fc : Bool} {nd : InternalNode} : InternalAt g e.level a l nd true →
      nd.highest ≤ e.key → Points (g.dir e.level) nd.highest nd.siblingPtr →
      TreeMove g ch cl (.internalLocked e a fc) g (cl.goto (.internalUnlock e a (some nd.siblingPtr)))
  | toInternalWrite {e : Separator} {a l : Nat} {fc : Bool} {nd : InternalNode} : InternalAt g e.level a l nd true →
      l ≤ e.key → e.key < nd.highest →
      TreeMove g ch cl (.internalLocked e a fc) g
        (cl.goto (.internalWrite e a { nd with records := shiftAndInsert nd.records e.key e.ptr }))
  | toInternalSplit {e : Separator} {a l : Nat} {fc : Bool} {nd : InternalNode} {x : InternalSplit} :
      InternalAt g e.level a l nd true → l ≤ e.key → e.key < nd.highest →
      SplitNodes L g.dir nd e.key (.at g.store.next) x →
      TreeMove g ch cl (.internalLocked e a fc) ⟨g.store.alloc, g.dir⟩ (cl.goto (.internalSplitSibling e a g.store.next x))
  | unlockInternal {e : Separator} {a : Nat} {next : Option GlobalAddress} {nd : InternalNode} :
      g.store.mem a = .internal nd true →
      TreeMove g ch cl (.internalUnlock e a next) ⟨g.store.write a (.internal nd false), g.dir⟩
        (cl.goto (.afterInternal e next))
  | writeInternal {e : Separator} {a : Nat} {nd : InternalNode} :
      TreeMove g ch cl (.internalWrite e a nd) ⟨g.store.write a (.internal nd false), g.dir⟩ (cl.goto (.done kValueNull))
  | writeInternalSibling {e : Separator} {a new : Nat} {x : InternalSplit} :
      TreeMove g ch cl (.internalSplitSibling e a new x) ⟨g.store.write new (.internal x.right false), g.dir⟩
        (cl.goto (.internalSplitWrite e a new x))
  | splitInternal {e : Separator} {a new : Nat} {x : InternalSplit} :
      TreeMove g ch cl (.internalSplitWrite e a new x)
        ⟨g.store.write a (.internal x.left false), g.dir.insert e.level x.splitKey new⟩
        (cl.updateParent x.isRoot e.level a x.splitKey new)

/-! ## The steps, place by place -/

section Steps

variable {g : Charted L} {ch : Choice L} {cl : Client L} {s' : Store L} {cl' : Client L}

omit [Arithmetic] in
@[simp] theorem Store.read_at (s : Store L) (a : Nat) : s.read (.at a) = s.mem a := rfl

omit [Arithmetic] in
@[simp] theorem Store.read_null (s : Store L) : s.read .null = .free := rfl

theorem TreeOk.leafAt (hg : TreeOk g) {a l : Nat} (ha : g.dir 0 l = some a) {lf : LeafNode L} {lock : Option (Valock L)}
    (hm : g.store.mem a = .leaf lf lock) : ∃ h, LeafAt g a l h lf lock := by
  obtain ⟨h, lf', lock', hm', hok, -⟩ := hg.leaf ha
  cases hm.symm.trans hm'
  exact ⟨h, ha, hm, hok⟩

theorem TreeOk.internalAt (hg : TreeOk g) {m a l : Nat} (hm : 1 ≤ m) (ha : g.dir m l = some a) :
    ∃ nd locked, InternalAt g m a l nd locked := by
  obtain ⟨nd, locked, hmem, hok⟩ := hg.internal hm ha
  exact ⟨nd, locked, ha, hmem, hok⟩

omit [Arithmetic] in
/-- The sibling that a key above the highest fence turns to. -/
theorem InternalAt.right {m a l k : Nat} {nd : InternalNode} {locked : Bool} (h : InternalAt g m a l nd locked)
    (hk : nd.highest ≤ k) (hkf : k < L.keyFull) : Points (g.dir m) nd.highest nd.siblingPtr :=
  h.ok.sibling.points (by omega)

theorem moves_start (hg : TreeOk g) (h : cl.stepStart g.store ch = some (s', cl')) :
    ∃ d', TreeMove g ch cl .start ⟨s', d'⟩ cl' := by
  unfold Client.stepStart at h
  split at h
  · rename_i nd hch
    split at h
    · rename_i hnd
      have hpos := (hg.cached nd hnd.1).level_pos
      have hcov := hnd.2
      simp only [InternalNode.covers, Bool.decide_and, Bool.and_eq_true, decide_eq_true_eq] at hcov
      rw [Checked.assert_of (show nd.level ≠ 0 by omega), Client.attempt_ok] at h
      cases h
      exact ⟨_, .fromCache hch hnd.1 hcov.1 hcov.2⟩
    · cases h
  · rename_i hch
    have hpos := hg.root_pos
    rw [Checked.assert_of (show g.store.root.level ≠ 0 by omega), Client.attempt_ok] at h
    cases h
    exact ⟨_, .fromRoot hch⟩

theorem moves_visit (hg : TreeOk g) (hkf : cl.key < L.keyFull) {p : Position} (hv : VisitOk g cl.key p)
    (h : cl.stepVisit g.store p = some (s', cl')) : ∃ d', TreeMove g ch cl (.visit p) ⟨s', d'⟩ cl' := by
  unfold Client.stepVisit at h
  by_cases h1 : p.level = 1
  · simp only [if_pos h1] at h
    cases h
    exact ⟨_, .atLeaf h1⟩
  have hlevel : 2 ≤ p.level := by
    have := hv.level_pos
    omega
  simp only [if_neg h1, if_neg (show ¬p.level ≤ 1 by omega)] at h
  rcases hv.node with ⟨l, hl, a, ha, hp⟩ | ⟨hp, -⟩
  swap
  · rw [hp, Store.read_null] at h
    cases h
  obtain ⟨nd, locked, hnd⟩ := hg.internalAt (show 1 ≤ p.level - 1 by omega) ha
  rw [hp, Store.read_at, hnd.mem] at h
  simp only [Client.visited_key, internalNodeSearch_eq (hnd.ok.lowest ▸ hl) hnd.ok.valid] at h
  by_cases hk : nd.highest ≤ cl.key
  · by_cases hc : p.fromCache = true
    · rw [if_pos ⟨hc, hk⟩, Client.attempt_ok] at h
      cases h
      exact ⟨_, .staleVisit hc⟩
    · rw [if_neg fun h => hc h.1, if_pos hk, Client.attempt_ok] at h
      cases h
      exact ⟨_, .visitRight hlevel hp hnd hk (hnd.right hk hkf) (Bool.eq_false_iff.2 hc)⟩
  · rw [if_neg fun h => hk h.2, if_neg hk, Client.attempt_ok] at h
    cases h
    exact ⟨_, .down hlevel hp hnd hl (not_le.1 hk)⟩

theorem moves_leaf (hg : TreeOk g) (hk : 1 ≤ cl.key) {p : Position} (hp : LeafPos g cl p)
    (h : cl.stepLeaf g.store ch p = some (s', cl')) : ∃ d', TreeMove g ch cl (.leaf p) ⟨s', d'⟩ cl' := by
  unfold Client.stepLeaf at h
  rcases hp with ⟨hp, -⟩ | ⟨l, h', ⟨a, ha, hp⟩, ht, hl, hkh, hins⟩
  · rw [hp, Store.read_null] at h
    cases h
  obtain ⟨e, lf, lock, hmem, hok, htells⟩ := hg.leaf ha
  have hat : LeafAt g a l e lf lock := ⟨ha, hmem, hok⟩
  rw [hp, Store.read_at, hmem] at h
  simp only at h
  by_cases hs : cl.request = .search
  · rw [hs] at h
    simp only at h
    have hcase := leafSearch_cases hok (hg.below 0) (hg.inj_level 0) ht hl hk ch.buffer p.fromCache ch.speculativeIdx
    generalize leafNodeSearch lf ch.buffer p.siblingAddr cl.key p.fromCache ch.speculativeIdx = res at h hcase
    cases hcase with
    | invalid hc =>
      rw [Client.attempt_ok, Checked.assert_of hc, Client.attempt_ok] at h
      cases h
      exact ⟨_, .staleLeaf hc⟩
    | turnRight hno hlt hpt hfc =>
      rw [Client.attempt_ok] at h
      cases h
      exact ⟨_, .walk hs hp hat hno ht hlt hkh hpt hfc⟩
    | found hst =>
      rw [Client.attempt_ok] at h
      cases h
      exact ⟨_, .found hs hp hat hst⟩
    | absent hno hle =>
      rw [Client.attempt_ok] at h
      cases h
      exact ⟨_, .absent hs hp hat hno (hkh.trans_le hle)⟩
  · cases lock with
    | none =>
      cases hr : cl.request with
      | search => exact absurd hr hs
      | insert v =>
        rw [hr] at h
        cases h
        exact ⟨_, .spinLeaf hs hp hmem⟩
      | update v =>
        rw [hr] at h
        cases h
        exact ⟨_, .spinLeaf hs hp hmem⟩
    | some w =>
      cases hr : cl.request with
      | search => exact absurd hr hs
      | insert v =>
        rw [hr] at h
        cases h
        exact ⟨_, .lockLeaf hs hp hmem⟩
      | update v =>
        rw [hr] at h
        cases h
        exact ⟨_, .lockLeaf hs hp hmem⟩

theorem moves_leafLocked (hg : TreeOk g) (hk : 1 ≤ cl.key) (hkf : cl.key < L.keyFull) {a : Nat} {p : Position}
    {w : Valock L} (hp : LeafPos g cl p) (hpa : p.nodeAddr = .at a) (hlock : LeafLocked g a w)
    (hrange : ∀ v, cl.request = .insert v → w.InRange (L.getHashedLeafEntryIndex cl.key).val)
    (h : cl.stepLeafLocked g.store ch a p w = some (s', cl')) :
    ∃ d', TreeMove g ch cl (.leafLocked a p w) ⟨s', d'⟩ cl' := by
  unfold Client.stepLeafLocked at h
  rcases hp with ⟨hp, -⟩ | ⟨l, h', ⟨b, hb, hp⟩, ht, hl, hkh, hins⟩
  · cases hpa.symm.trans hp
  cases hpa.symm.trans hp
  obtain ⟨-, lf, hmem, htells⟩ := hlock
  obtain ⟨e, hat⟩ := hg.leafAt hb hmem
  rw [hmem] at h
  simp only at h
  cases hr : cl.request with
  | search =>
    rw [hr] at h
    cases h
  | insert v =>
    rw [hr] at h
    simp only at h
    have hlk := hins v hr
    have hval : v = cl.request.value := by rw [hr, Request.value]
    have hcase := leafInsert_cases (hrange v hr) hat.ok (hg.below 0) (hg.inj_level 0) htells hk hkf ⟨h', hkh, ht⟩ v p.fromCache
      (.at g.store.next)
    generalize leafNodeInsert lf w p.siblingAddr cl.key v p.fromCache (.at g.store.next) = res at h hcase
    cases hcase with
    | invalid hc =>
      rw [Client.attempt_ok] at h
      cases h
      exact ⟨_, .staleLocked hc⟩
    | turnRight hle hpt =>
      rw [Client.attempt_ok] at h
      cases h
      exact ⟨_, .insertRight hr hat hle hpt⟩
    | write hlt hup hx htx =>
      rw [Client.attempt_ok] at h
      cases h
      have hno : ∀ u, cl.request ≠ .update u := fun u hu => by cases hr.symm.trans hu
      exact ⟨_, .toWrite hat hlk hlt (hval ▸ hup) hx htx (fun u hu => absurd hu (hno u)) fun u hu => absurd hu (hno u)⟩
    | split hlt hx =>
      rw [Client.attempt_ok] at h
      cases h
      exact ⟨_, .toSplit hr hat hlk hlt (hval ▸ hx)⟩
    | stuck hlt hd hb =>
      rw [Client.attempt_error] at h
      cases h
      exact ⟨_, .stuck hr hat hd hb⟩
  | update v =>
    rw [hr] at h
    simp only at h
    have hval : v = cl.request.value := by rw [hr, Request.value]
    have hcase := leafUpdate_cases hat.ok (hg.below 0) (hg.inj_level 0) ht hl hk ch.buffer w v p.fromCache
      ch.speculativeIdx
    generalize leafNodeUpdate lf ch.buffer w p.siblingAddr cl.key v p.fromCache ch.speculativeIdx = res at h hcase
    cases hcase with
    | invalid hc =>
      rw [Client.attempt_ok, Checked.assert_of hc, Client.attempt_ok] at h
      cases h
      exact ⟨_, .staleLocked hc⟩
    | turnRight hno hlt hpt hfc =>
      rw [Client.attempt_ok] at h
      cases h
      exact ⟨_, .updateRight hr hat hno ht hlt hkh hpt hfc⟩
    | write i hi hx hxw =>
      rw [Client.attempt_ok] at h
      cases h
      obtain ⟨h1, h2⟩ := hat.ok.range _ ⟨by omega, i, hi⟩
      have hkeys := (placed_update hat.ok.placed (v := v) hi).1
      refine ⟨_, .toWrite hat h1 h2 (hval ▸ .overwrite i hi) hx
        (hxw ▸ htells.congr hkeys) (fun _ _ => hkeys) fun u hu => ?_⟩
      cases hr.symm.trans hu
      exact ⟨hxw, i, hi, rfl⟩
    | keyMissing hno hle =>
      rw [Client.attempt_error] at h
      cases h
      exact ⟨_, .keyMissing hr hat hno (hkh.trans_le hle)⟩

theorem moves_parent {e : Separator} (h : cl.stepParent g.store ch e = some (s', cl')) :
    ∃ d', TreeMove g ch cl (.parent e) ⟨s', d'⟩ cl' := by
  unfold Client.stepParent at h
  split at h
  · rename_i hp
    cases h
    exact ⟨_, .parentPath hp⟩
  · rename_i hp
    split at h
    · rename_i nd hch
      split at h
      · rename_i hnd
        have hcov := hnd.2.2
        simp only [InternalNode.covers, Bool.decide_and, Bool.and_eq_true, decide_eq_true_eq] at hcov
        by_cases hnull : (nd.childPtr e.key).1 = .null
        · rw [Checked.assert_of_not (not_not.2 hnull), Client.attempt_error] at h
          cases h
          exact ⟨_, .parentNull (by simp [hch])⟩
        · rw [Checked.assert_of hnull, Client.attempt_ok] at h
          cases h
          exact ⟨_, .parentCache hch hnd.1 hnd.2.1 hcov.1 hcov.2⟩
      · cases h
    · rename_i hch
      cases h
      exact ⟨_, .parentRoot hch (not_not.1 hp)⟩

theorem moves_insertInternal (hg : TreeOk g) {e : Separator} (he : e.key < L.keyFull) {level : Nat} {p : GlobalAddress}
    (hp : Held L (g.dir (level - 1)) e.key p) (h : cl.stepInsertInternal g.store e level p = some (s', cl')) :
    ∃ d', TreeMove g ch cl (.insertInternal e level p) ⟨s', d'⟩ cl' := by
  unfold Client.stepInsertInternal at h
  by_cases h1 : level ≤ 1
  · simp only [if_pos h1] at h
    cases h
    exact ⟨_, .noTarget h1⟩
  simp only [if_neg h1] at h
  by_cases h2 : level - 1 = e.level
  · simp only [if_pos h2] at h
    cases h
    exact ⟨_, .atTarget (by omega) h2⟩
  simp only [if_neg h2] at h
  rcases hp with ⟨l, hl, a, ha, hp⟩ | ⟨hp, -⟩
  swap
  · rw [hp, Store.read_null] at h
    cases h
  obtain ⟨nd, locked, hnd⟩ := hg.internalAt (show 1 ≤ level - 1 by omega) ha
  have hread : g.store.read p = .internal nd locked := by rw [hp, Store.read_at, hnd.mem]
  rw [hread] at h
  simp only [internalNodeSearch_eq (hnd.ok.lowest ▸ hl) hnd.ok.valid, Bool.false_eq_true, false_and, if_false] at h
  by_cases hk : nd.highest ≤ e.key
  · rw [if_pos hk, Client.attempt_ok] at h
    cases h
    exact ⟨_, .targetRight (by omega) h2 hp hnd hk (hnd.right hk he)⟩
  · rw [if_neg hk, Client.attempt_ok] at h
    cases h
    exact ⟨_, .targetDown (by omega) h2 hp hnd hl (not_le.1 hk)⟩

theorem moves_internal (hg : TreeOk g) {e : Separator} (he : 1 ≤ e.level) {p : GlobalAddress} {fc : Bool}
    (hp : Held L (g.dir e.level) e.key p) (h : cl.stepInternal g.store e p fc = some (s', cl')) :
    ∃ d', TreeMove g ch cl (.internal e p fc) ⟨s', d'⟩ cl' := by
  unfold Client.stepInternal at h
  rcases hp with ⟨l, hl, a, ha, hp⟩ | ⟨hp, -⟩
  swap
  · rw [hp, Store.read_null] at h
    cases h
  obtain ⟨nd, locked, hnd⟩ := hg.internalAt he ha
  rw [hp, Store.read_at, hnd.mem] at h
  cases locked with
  | true =>
    cases h
    exact ⟨_, .spinInternal hp hnd.mem⟩
  | false =>
    cases h
    exact ⟨_, .lockInternal hp hnd.mem⟩

theorem moves_internalLocked (hg : TreeOk g) {e : Separator} (he : SepOk g e) {a : Nat} {fc : Bool} {nd : InternalNode}
    (hat : AtInternal g e a nd) (h : cl.stepInternalLocked g.store e a fc = some (s', cl')) :
    ∃ d', TreeMove g ch cl (.internalLocked e a fc) ⟨s', d'⟩ cl' := by
  unfold Client.stepInternalLocked at h
  obtain ⟨⟨l, hl, ha⟩, hmem⟩ := hat
  obtain ⟨nd', locked, hnd⟩ := hg.internalAt he.level_pos ha
  cases hmem.symm.trans hnd.mem
  have hlow := hnd.ok.lowest
  have hnew : ∀ r ∈ nd.records, r.key ≠ e.key := fun r hr => he.fresh.record ha hmem r hr
  rw [hmem] at h
  have hvalid : ¬¬nd.valid = true := not_not.2 hnd.ok.valid
  simp only [internalNodeInsert, hvalid, false_or, show ¬e.key < nd.lowest by omega] at h
  by_cases hk : nd.highest ≤ e.key
  · by_cases hc : fc = true
    · rw [if_pos ⟨hc, hk⟩, Checked.pure_eq_ok, Client.attempt_ok] at h
      cases h
      exact ⟨_, .staleInternal hc⟩
    · have hpt := hnd.right hk he.key_lt
      have hne : nd.siblingPtr ≠ .null := by
        obtain ⟨b, -, hb⟩ := hpt
        rw [hb]
        exact GlobalAddress.noConfusion
      rw [if_neg fun h => hc h.1, if_pos hk, Checked.assert_of hne, Checked.ok_bind, Checked.pure_eq_ok,
        Client.attempt_ok] at h
      cases h
      exact ⟨_, .internalRight hnd hk hpt⟩
  · rw [if_neg fun h => hk h.2, if_neg hk, Checked.assert_of (show e.key ≥ nd.lowest by omega), Checked.ok_bind,
      Checked.assert_of hnew, Checked.ok_bind] at h
    have hlt : nd.lowest < e.key := by
      refine lt_of_le_of_ne (by omega) fun heq => ?_
      have := he.fresh.boundary
      rw [← heq, hlow, ha] at this
      cases this
    split at h
    · rw [Checked.pure_eq_ok, Client.attempt_ok] at h
      cases h
      exact ⟨_, .toInternalWrite hnd hl (not_le.1 hk)⟩
    · rename_i hlen
      have hpts : Points (g.dir (nd.level - 1)) e.key e.ptr := hnd.ok.level ▸ he.points
      obtain ⟨x, hx, hsp⟩ := hnd.ok.routes.split ⟨hpts, hlt, not_le.1 hk, hnew⟩ (not_lt.1 hlen) (.at g.store.next)
      rw [hnd.ok.level] at hx
      rw [hx, Checked.ok_bind, Checked.pure_eq_ok, Client.attempt_ok] at h
      cases h
      exact ⟨_, .toInternalSplit hnd hl (not_le.1 hk) hsp⟩

/-- **A step of a client** is one of the moves. -/
theorem Client.step_moves_of_inRange (hg : TreeOk g) (hc : ClientOk g cl) (hrange : cl.InRange)
    (h : cl.step g.store ch = some (s', cl')) : ∃ d', TreeMove g ch cl cl.pc ⟨s', d'⟩ cl' := by
  obtain ⟨hk, hkf, hpc⟩ := hc
  unfold Client.step at h
  unfold Client.InRange at hrange
  revert hrange h hpc
  cases cl.pc with
  | start => exact fun _ h _ => moves_start hg h
  | visit p => exact fun _ h ⟨_, hv⟩ => moves_visit hg hkf hv h
  | leaf p => exact fun _ h ⟨_, hp⟩ => moves_leaf hg hk hp h
  | leafLocked a p w => exact fun hrange h ⟨_, hp, hpa, hl, _⟩ => moves_leafLocked hg hk hkf hp hpa hl (hrange _ _ _ · rfl) h
  | leafUnlock a w next =>
    intro _ h ⟨_, ⟨_, lf, hm, _⟩, _⟩
    simp only [hm] at h
    cases h
    exact ⟨_, .unlockLeaf hm⟩
  | leafWrite a x =>
    intro _ h ⟨lf, _, hl, _⟩
    simp only [hl.mem] at h
    cases h
    exact ⟨_, .writeLeaf hl.mem⟩
  | leafSplitSibling a new x =>
    intro _ h _
    cases h
    exact ⟨_, .writeLeafSibling⟩
  | leafSplitWrite a new x =>
    intro _ h _
    cases h
    exact ⟨_, .splitLeaf⟩
  | newRoot level a k sib =>
    intro _ h _
    cases h
    exact ⟨_, .newRoot⟩
  | rootCas level a r k sib =>
    intro _ h ⟨_, _, hroot, _⟩
    simp only [hroot, if_true] at h
    cases h
    exact ⟨_, .growRoot⟩
  | parent e => exact fun _ h _ => moves_parent h
  | readRoot e =>
    intro _ h _
    cases h
    exact ⟨_, .readRoot⟩
  | insertInternal e level p => exact fun _ h ⟨he, _, _, hp⟩ => moves_insertInternal hg he.key_lt hp h
  | internal e p fc => exact fun _ h ⟨he, _, hp⟩ => moves_internal hg he.level_pos hp h
  | internalLocked e a fc => exact fun _ h ⟨he, _, nd, hat⟩ => moves_internalLocked hg he hat h
  | internalUnlock e a next =>
    intro _ h ⟨_, _, ⟨nd, hat⟩, _⟩
    simp only [hat.mem] at h
    cases h
    exact ⟨_, .unlockInternal hat.mem⟩
  | internalWrite e a nd =>
    intro _ h _
    cases h
    exact ⟨_, .writeInternal⟩
  | internalSplitSibling e a new x =>
    intro _ h _
    cases h
    exact ⟨_, .writeInternalSibling⟩
  | internalSplitWrite e a new x =>
    intro _ h _
    cases h
    exact ⟨_, .splitInternal⟩
  | done v => exact fun _ h _ => by cases h
  | crashed b => exact fun _ h _ => by cases h

end Steps

end Arithmetic

/-- The exact ranges have the slots of their buckets. -/
theorem Client.inRange_exact (cl : Client L) : cl.InRange := fun _ _ lock _ _ _ => lock.inRange_exact _

theorem Client.step_moves {g : Charted L} {ch : Choice L} {cl cl' : Client L} {s' : Store L} (hg : TreeOk g)
    (hc : ClientOk g cl) (h : cl.step g.store ch = some (s', cl')) : ∃ d', TreeMove g ch cl cl.pc ⟨s', d'⟩ cl' :=
  cl.step_moves_of_inRange hg hc cl.inRange_exact h

end Chime

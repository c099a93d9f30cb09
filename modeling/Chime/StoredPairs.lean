import Chime.Contents

/-!
# What a tree stores

The nodes of a tree are those that its pointers lead to from the root entry (`Reached`). In a tree that meets its
invariant they are the nodes of the directory (`reached_iff`), so that the pairs in the leaves that are reached are the
contents (`stored_iff`).
-/

namespace Chime

open Boundary (Next Extends Below)
open Records

variable {L : Layout}

namespace Store

/-- The pointers to the nodes of the tree. -/
inductive Reached (s : Store L) : GlobalAddress → Prop
  | root : Reached s s.root.ptr
  | leftmost {p : GlobalAddress} {nd : InternalNode} {locked : Bool} : Reached s p → s.read p = .internal nd locked →
      Reached s nd.leftmostPtr
  | record {p : GlobalAddress} {nd : InternalNode} {locked : Bool} {e : InternalEntry} : Reached s p →
      s.read p = .internal nd locked → e ∈ nd.records → Reached s e.ptr
  | sibling {p : GlobalAddress} {lf : LeafNode L} {lock : Option (Valock L)} : Reached s p → s.read p = .leaf lf lock →
      Reached s lf.siblingPtr

/-- A leaf of the tree stores the pair. -/
def Stored (s : Store L) (k v : Nat) : Prop :=
  ∃ p lf lock, s.Reached p ∧ s.read p = .leaf lf lock ∧ lf.records.Stored k v

/-- No leaf of the tree has a key twice. -/
def KeysOnce (s : Store L) : Prop := ∀ p lf lock, s.Reached p → s.read p = .leaf lf lock → lf.records.Distinct

end Store

namespace TreeOk

variable {g : Charted L} {k v : Nat} {p : GlobalAddress}

/-- What is reached is a node of the directory, or null. -/
theorem of_reached (hg : TreeOk g) (hp : g.store.Reached p) : p = .null ∨ ∃ m l, Points (g.dir m) l p := by
  -- a node that can be read is one of the directory
  have hcell : ∀ {q : GlobalAddress}, (q = .null ∨ ∃ m l, Points (g.dir m) l q) →
      g.store.read q = .free ∨ ∃ m l, CellOk L g.dir m l (g.store.read q) := by
    rintro q (rfl | ⟨m, l, a, ha, rfl⟩)
    · exact .inl rfl
    · exact .inr ⟨m, l, hg.cells ha⟩
  have hroutes : ∀ {q : GlobalAddress} {nd : InternalNode} {locked : Bool}, (q = .null ∨ ∃ m l, Points (g.dir m) l q) →
      g.store.read q = .internal nd locked → Routes L g.dir nd := by
    intro q nd locked hq hread
    rcases hcell hq with h | ⟨m, l, h⟩
    · cases h.symm.trans hread
    · rw [hread] at h
      cases h with
      | internal hok => exact hok.routes
  induction hp with
  | root => exact .inr ⟨_, _, hg.root⟩
  | leftmost _ hread ih => exact .inr ⟨_, _, (hroutes ih hread).leftmost⟩
  | record _ hread he ih => exact .inr ⟨_, _, ((hroutes ih hread).records _ he).1⟩
  | sibling _ hread ih =>
    rcases hcell ih with h | ⟨m, l, h⟩
    · cases h.symm.trans hread
    · rw [hread] at h
      cases h with
      | leaf hok => exact hok.sibling.imp And.right fun hp => ⟨0, _, hp⟩

/-- The first nodes of the levels are reached. -/
theorem reached_first (hg : TreeOk g) {n m : Nat} (hm : m + n + 1 = g.store.root.level) :
    ∃ p, Points (g.dir m) 1 p ∧ g.store.Reached p := by
  induction n generalizing m with
  | zero =>
    obtain rfl : m = g.store.root.level - 1 := by omega
    exact ⟨_, hg.root, .root⟩
  | succ n ih =>
    obtain ⟨p, ⟨a, ha, rfl⟩, hp⟩ := ih (m := m + 1) (by omega)
    obtain ⟨nd, locked, hmem, hok⟩ := hg.internal (Nat.le_add_left 1 m) ha
    have hleft := hok.routes.leftmost
    rw [hok.level, hok.lowest] at hleft
    exact ⟨_, hleft, .leftmost hp hmem⟩

/-- **The leaves are reached.** -/
theorem reached_leaf (hg : TreeOk g) {a l : Nat} (ha : g.dir 0 l = some a) : g.store.Reached (.at a) := by
  have hpos := hg.root_pos
  obtain ⟨p, ⟨b, hb, rfl⟩, hp⟩ := hg.reached_first (n := g.store.root.level - 1) (m := 0) (by omega)
  induction l using Nat.strong_induction_on generalizing a with
  | _ l ih =>
    obtain ⟨h1, hlf⟩ := hg.range ha
    rcases h1.eq_or_lt with rfl | hlt
    · cases ha.symm.trans hb
      exact hp
    · -- the leaf before it names it
      obtain ⟨j, c, hc, hn⟩ := Next.exists_prev L.keyFull hb ha hlt
      have hreached := ih j hn.lt hc
      obtain ⟨h, lf, lock, hmem, hok, -⟩ := hg.leaf hc
      obtain rfl := hok.next.unique (hg.below 0) hn
      obtain ⟨a', ha', hptr⟩ := hok.sibling.points hlf.ne
      cases ha.symm.trans ha'
      exact hptr ▸ .sibling hreached hmem

theorem leaves_iff (hg : TreeOk g) {lf : LeafNode L} :
    (∃ p lock, g.store.Reached p ∧ g.store.read p = .leaf lf lock) ↔ ∃ l, Leaves g l lf := by
  constructor
  · rintro ⟨p, lock, hp, hread⟩
    rcases hg.of_reached hp with rfl | ⟨m, l, a, ha, rfl⟩
    · cases hread
    · have hcell := hg.cells ha
      rw [show g.store.mem a = _ from hread] at hcell
      cases hcell with
      | leaf => exact ⟨l, a, ha, leafNode_eq.2 ⟨lock, hread⟩⟩
  · rintro ⟨l, a, ha, hlf⟩
    obtain ⟨lock, hmem⟩ := leafNode_eq.1 hlf
    exact ⟨.at a, lock, hg.reached_leaf ha, hmem⟩

/-- **What is stored** is what the leaves of the directory have. -/
theorem stored_iff (hg : TreeOk g) : g.store.Stored k v ↔ Contents g k v := by
  constructor
  · rintro ⟨p, lf, lock, hp, hread, hst⟩
    obtain ⟨l, hl⟩ := hg.leaves_iff.1 ⟨p, lock, hp, hread⟩
    exact ⟨l, lf, hl, hst⟩
  · rintro ⟨l, lf, hl, hst⟩
    obtain ⟨p, lock, hp, hread⟩ := hg.leaves_iff.2 ⟨l, hl⟩
    exact ⟨p, lf, lock, hp, hread, hst⟩

theorem onceEach (hg : TreeOk g) (honce : g.store.KeysOnce) (hk : k ≠ 0) : OnceEach g k := by
  intro l lf hl
  obtain ⟨p, lock, hp, hread⟩ := hg.leaves_iff.2 ⟨l, hl⟩
  exact Records.distinct_iff.1 (honce p lf lock hp hread) k hk

theorem keysOnce (hg : TreeOk g) (honce : ∀ k ≠ 0, OnceEach g k) : g.store.KeysOnce := by
  intro p lf lock hp hread
  obtain ⟨l, hl⟩ := hg.leaves_iff.1 ⟨p, lock, hp, hread⟩
  exact Records.distinct_iff.2 fun k hk => honce k hk l lf hl

end TreeOk

end Chime

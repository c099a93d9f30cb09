import Chime.TreeEffects
import Chime.TreeMoves

/-!
# Every step keeps the invariant of the tree

`TreeMove.change`: what a client does keeps the shared invariant and its own one, is what the other clients rely on, and
takes only resources without an owner.
-/

namespace Chime

open Boundary (Next Extends Below)
open Records

variable [Arithmetic] {L : Layout} {g : Charted L} {ch : Choice L} {cl cl' : Client L} {m l k h a new : Nat} {cell : Cell L}

/-- The invariants of the tree. -/
def treeProtocol (L : Layout) : Protocol (Charted L) (Client L) Resource where
  shared := TreeOk
  client := ClientOk
  owns cl r := r ∈ cl.pc.owned
  rely := Rely
  stable := ClientOk.rely

@[simp] theorem treeProtocol_owns {r : Resource} : (treeProtocol L).owns cl r ↔ r ∈ cl.pc.owned := .rfl

/-- A change that the others rely on. -/
abbrev Change (g : Charted L) (cl : Client L) (g' : Charted L) (cl' : Client L) : Prop :=
  (treeProtocol L).Change g cl g' cl'

/-- The resource has no owner. -/
def Unowned (g : Charted L) (r : Resource) : Prop := ∀ cl : Client L, ClientOk g cl → r ∉ cl.pc.owned

/-! ## What is owned -/

/-- A node with an owner is private or locked. -/
theorem ClientOk.owned_addr (hc : ClientOk g cl) (ho : .addr a ∈ cl.pc.owned) :
    Private g a ∨ ((∃ m l, g.dir m l = some a) ∧ (g.store.mem a).isLocked = true) := by
  obtain ⟨-, -, hpc⟩ := hc
  have hleaf : ∀ {b w}, LeafLocked g b w → (∃ m l, g.dir m l = some b) ∧ (g.store.mem b).isLocked = true := by
    rintro b w ⟨⟨l, hl⟩, lf, hm, -⟩
    exact ⟨⟨0, l, hl⟩, by rw [hm]; rfl⟩
  have hat : ∀ {b lf}, AtLeaf g cl b lf → (∃ m l, g.dir m l = some b) ∧ (g.store.mem b).isLocked = true := by
    rintro b lf ⟨⟨l, -, hl⟩, hm, -⟩
    exact ⟨⟨0, l, hl⟩, by rw [hm]; rfl⟩
  have hint : ∀ {e b nd}, AtInternal g e b nd → (∃ m l, g.dir m l = some b) ∧ (g.store.mem b).isLocked = true := by
    rintro e b nd ⟨⟨l, -, hl⟩, hm⟩
    exact ⟨⟨_, l, hl⟩, by rw [hm]; rfl⟩
  revert hpc ho
  cases cl.pc <;> simp only [TreePc.owned, List.mem_cons, List.not_mem_nil, or_false, Resource.addr.injEq, reduceCtorEq,
    false_or, false_imp_iff]
  case leafLocked => rintro rfl ⟨-, -, -, hl, -⟩; exact .inr (hleaf hl)
  case leafUnlock => rintro rfl ⟨-, hl, -⟩; exact .inr (hleaf hl)
  case leafWrite => rintro rfl ⟨_, _, hl, -⟩; exact .inr (hat hl)
  case leafSplitSibling => rintro (rfl | rfl) ⟨-, hp, -, _, hl, -⟩; exacts [.inr (hat hl), .inl hp]
  case leafSplitWrite => rintro (rfl | rfl) ⟨-, hp, -, ⟨_, hl, -⟩, -⟩; exacts [.inr (hat hl), .inl hp]
  case rootCas => rintro rfl ⟨-, -, -, hp, -⟩; exact .inl hp
  case internalLocked => rintro rfl ⟨-, -, _, hl⟩; exact .inr (hint hl)
  case internalUnlock => rintro rfl ⟨-, -, ⟨_, hl⟩, -⟩; exact .inr (hint hl)
  case internalWrite => rintro rfl ⟨-, _, hl, -⟩; exact .inr (hint hl)
  case internalSplitSibling => rintro (rfl | rfl) ⟨-, -, hp, _, hl, -⟩; exacts [.inr (hint hl), .inl hp]
  case internalSplitWrite => rintro (rfl | rfl) ⟨-, -, hp, ⟨_, hl, -⟩, -⟩; exacts [.inr (hint hl), .inl hp]

/-- A separator with an owner begins a node of the level below. -/
theorem ClientOk.owned_sep (hc : ClientOk g cl) (ho : .sep m k ∈ cl.pc.owned) : ∃ v, SepOk g ⟨m, k, v⟩ := by
  obtain ⟨-, -, hpc⟩ := hc
  revert hpc ho
  cases cl.pc <;> simp only [TreePc.owned, List.mem_cons, List.not_mem_nil, or_false, Resource.sep.injEq, reduceCtorEq,
    false_or, false_imp_iff]
  case newRoot => rintro ⟨rfl, rfl⟩ ⟨hs, -⟩; exact ⟨_, hs⟩
  case rootCas => rintro ⟨rfl, rfl⟩ ⟨hs, -⟩; exact ⟨_, hs⟩
  all_goals rintro ⟨rfl, rfl⟩ ⟨hs, -⟩; exact ⟨_, hs⟩

/-- While the root entry has an owner, the top level has two nodes. -/
theorem ClientOk.owned_root (hc : ClientOk g cl) (ho : .root ∈ cl.pc.owned) :
    ∃ k b, 1 < k ∧ g.dir (g.store.root.level - 1) k = some b := by
  obtain ⟨-, -, hpc⟩ := hc
  revert hpc ho
  cases cl.pc <;> simp only [TreePc.owned, List.mem_cons, List.not_mem_nil, or_false, reduceCtorEq, false_imp_iff]
  case newRoot level a k sib =>
    rintro - ⟨hs, -, hroot⟩
    obtain ⟨b, hb, -⟩ := hs.points
    rw [hroot]
    exact ⟨k, b, hs.fresh.one_lt, hb⟩
  case rootCas level a r k sib =>
    rintro - ⟨hs, -, hroot, -⟩
    obtain ⟨b, hb, -⟩ := hs.points
    rw [hroot]
    exact ⟨k, b, hs.fresh.one_lt, hb⟩

theorem unowned_next (hg : TreeOk g) : Unowned g (.addr g.store.next) := by
  intro cl hc ho
  rcases hc.owned_addr ho with hp | ⟨⟨m, l, hl⟩, -⟩
  · exact lt_irrefl _ hp.1
  · exact lt_irrefl _ (hg.allocated hl)

theorem unowned_unlocked (ha : g.dir m l = some a) (hl : (g.store.mem a).isLocked = false) : Unowned g (.addr a) := by
  intro cl hc ho
  rcases hc.owned_addr ho with hp | ⟨-, h⟩
  · exact hp.2 m l ha
  · rw [hl] at h
    cases h

theorem unowned_sep (hk : g.dir m k = none) : Unowned g (.sep (m + 1) k) := by
  intro cl hc ho
  obtain ⟨v, hs⟩ := hc.owned_sep ho
  obtain ⟨b, hb, -⟩ := hs.points
  cases hk.symm.trans hb

theorem unowned_root (hroot : g.store.root.level = m + 1) (hk : ∀ k, 1 < k → g.dir m k = none) : Unowned g .root := by
  intro cl hc ho
  obtain ⟨k, b, h1, hb⟩ := hc.owned_root ho
  rw [hroot] at hb
  cases (hk k h1).symm.trans hb

/-! ## Kinds of changes -/

/-- The shared state stays. -/
theorem change_local (hg : TreeOk g) (hc : ClientOk g cl') (ho : ∀ r ∈ cl'.pc.owned, r ∈ cl.pc.owned) :
    Change g cl g cl' where
  shared := hg
  client := hc
  guarantee := fun _ _ => .same rfl rfl le_rfl
  taken := fun r hr => .inl (ho r hr)

theorem change_cacheNode (hg : TreeOk g) {nd : InternalNode} (hr : Routes L g.dir nd)
    (hc : ClientOk ⟨g.store.cacheNode nd, g.dir⟩ cl') (ho : ∀ r ∈ cl'.pc.owned, r ∈ cl.pc.owned) :
    Change g cl ⟨g.store.cacheNode nd, g.dir⟩ cl' where
  shared := hg.cacheNode hr
  client := hc
  guarantee := fun _ _ => .same rfl rfl le_rfl
  taken := fun r hr => .inl (ho r hr)

/-- An address is allocated. -/
theorem change_alloc (hg : TreeOk g) (hc : ClientOk ⟨g.store.alloc, g.dir⟩ cl')
    (ho : ∀ r ∈ cl'.pc.owned, r ∈ cl.pc.owned ∨ r = .addr g.store.next) : Change g cl ⟨g.store.alloc, g.dir⟩ cl' where
  shared := hg.alloc
  client := hc
  guarantee := fun _ _ => .same rfl rfl (Nat.le_succ _)
  taken := fun r hr => (ho r hr).imp_right fun h => by
    subst h
    exact unowned_next hg

/-- A linked node is written by its owner, or locked. -/
theorem change_write (hg : TreeOk g) (ha : g.dir m l = some a) (hcell : CellOk L g.dir m l cell)
    (hown : .addr a ∈ cl.pc.owned ∨ .addr a ∈ cl'.pc.owned)
    (hsep : ∀ k, .sep m k ∉ cl.pc.owned → Fresh g m k → Lacks cell k) (hc : ClientOk ⟨g.store.write a cell, g.dir⟩ cl')
    (ho : ∀ r ∈ cl'.pc.owned, r ∈ cl.pc.owned ∨ Unowned g r) : Change g cl ⟨g.store.write a cell, g.dir⟩ cl' where
  shared := hg.write ha hcell
  client := hc
  guarantee := fun O hO => by
    refine .write (fun h => hown.elim (hO _ h).1 (hO _ h).2) fun m' k l' _ hk hf hl => ?_
    obtain ⟨rfl, -⟩ := hg.inj ha hl
    exact hsep k (hO _ hk).1 hf
  taken := ho

/-- A private node is written by its owner. -/
theorem change_writePrivate (hg : TreeOk g) (hp : Private g a) (hown : .addr a ∈ cl.pc.owned)
    (hc : ClientOk ⟨g.store.write a cell, g.dir⟩ cl') (ho : ∀ r ∈ cl'.pc.owned, r ∈ cl.pc.owned) :
    Change g cl ⟨g.store.write a cell, g.dir⟩ cl' where
  shared := hg.writePrivate hp.2
  client := hc
  guarantee := fun _ hO => .write (fun h => (hO _ h).1 hown) fun m' _ l' _ _ _ hl => absurd hl (hp.2 m' l')
  taken := fun r hr => .inl (ho r hr)

/-- **A split** is written. -/
theorem change_link (hg : TreeOk g) (ha : g.dir m l = some a) (hp : Private g new) (hn : Next (g.dir m) L.keyFull l h)
    (hl : l < k) (hk : k < h) (hleft : CellOk L (g.dir.insert m k new) m l cell)
    (hright : CellOk L (g.dir.insert m k new) m k (g.store.mem new))
    (hown : .addr a ∈ cl.pc.owned ∧ .addr new ∈ cl.pc.owned)
    (hsep : ∀ k', 1 ≤ m → .sep m k' ∉ cl.pc.owned → Fresh g m k' → k' ≠ k ∧ Lacks cell k' ∧ Lacks (g.store.mem new) k')
    (hc : ClientOk ⟨g.store.write a cell, g.dir.insert m k new⟩ cl')
    (ho : ∀ r ∈ cl'.pc.owned, r ∈ cl.pc.owned ∨ Unowned g r) :
    Change g cl ⟨g.store.write a cell, g.dir.insert m k new⟩ cl' where
  shared := hg.link ha hp hn hl hk hleft hright
  client := hc
  guarantee := fun _ hO => .link (hn.free k hl hk) (fun h => (hO _ h).1 hown.1) (fun h => (hO _ h).1 hown.2)
    (fun k' hm hk' hf => hsep k' hm (hO _ hk').1 hf) fun _ _ hl => (hg.inj ha hl).1.symm
  taken := ho

/-! ## Paths and separators -/

omit [Arithmetic] in
theorem PathOk.record {path : Nat → GlobalAddress} {lev level : Nat} {p : GlobalAddress} (h : PathOk g path k lev)
    (hp : Held L (g.dir (level - 1)) k p) : PathOk g (Function.update path (level - 1) p) k lev := by
  intro j hj hne
  by_cases hjl : j = level - 1
  · subst hjl
    rw [Function.update_self] at hne ⊢
    rcases hp with hp | ⟨hp, -⟩
    · exact hp
    · exact absurd hp hne
  · rw [Function.update_of_ne hjl] at hne ⊢
    exact h j hj hne

omit [Arithmetic] in
theorem PathOk.visited {p : Position} (h : PathOk g cl.path cl.key 0)
    (hp : Held L (g.dir (p.level - 1)) cl.key p.nodeAddr) :
    PathOk g (cl.visited p).path cl.key 0 := by
  rw [Client.visited]
  cases cl.request with
  | insert v => exact h.record hp
  | _ => exact h

/-- Above a range that has been split, the path leads to nodes that begin at or before the split key. -/
theorem PathOk.up {path : Nat → GlobalAddress} {k' lev : Nat} (hg : TreeOk g) (hp : PathOk g path k lev)
    (hn : Next (g.dir m) L.keyFull l h) (hk : k < h) (hlev : lev ≤ m + 1) (hl : l ≤ k') : PathOk g path k' (m + 1) := by
  intro j hj hne
  obtain ⟨i, hi, b, hb, he⟩ := hp j (by omega) hne
  exact ⟨i, (hg.le_of_nested (by omega) hb hn hi hk).trans hl, b, hb, he⟩

/-- A node that is alone on its level is the root. -/
theorem TreeOk.root_eq (hg : TreeOk g) (ha : g.dir m 1 = some a) (hn : Next (g.dir m) L.keyFull 1 L.keyFull) :
    g.store.root = ⟨m + 1, .at a⟩ := by
  have hlt := hg.below_root ha
  have hlevel : g.store.root.level = m + 1 := by
    by_contra hne
    obtain ⟨k, b, h1, hb⟩ := hg.grown (m := m) (by omega)
    cases (hn.free k h1 (hg.range hb).2).symm.trans hb
  obtain ⟨b, hb, hptr⟩ := hg.root
  rw [hlevel] at hb
  cases ha.symm.trans hb
  calc g.store.root = ⟨g.store.root.level, g.store.root.ptr⟩ := rfl
    _ = ⟨m + 1, .at a⟩ := by rw [hlevel, hptr]

theorem unowned_root_of_alone (hg : TreeOk g) (ha : g.dir m 1 = some a) (hn : Next (g.dir m) L.keyFull 1 L.keyFull) :
    Unowned g .root := by
  refine unowned_root (m := m) (by rw [hg.root_eq ha hn]) fun k h1 => ?_
  by_contra hne
  obtain ⟨b, hb⟩ := Option.ne_none_iff_exists'.1 hne
  exact hne (hn.free k h1 (hg.range hb).2)

/-- The split key of a split that has been written is on its way to the next level. -/
theorem sepOk_link (hg : TreeOk g) (ha : g.dir m l = some a) (hk : g.dir m k = none) (h1 : 1 < k)
    (hkf : k < L.keyFull) :
    SepOk ⟨g.store.write a cell, g.dir.insert m k new⟩ ⟨m + 1, k, .at new⟩ where
  level_pos := Nat.le_add_left 1 m
  key_lt := hkf
  points := ⟨new, by
    show g.dir.insert m k new m k = some new
    rw [Directory.insert_level, Function.update_self], rfl⟩
  fresh := by
    have hup : ∀ j, (g.dir.insert m k new) (m + 1) j = g.dir (m + 1) j := fun j => by
      rw [Directory.insert_of_ne (Nat.succ_ne_self m)]
    refine ⟨h1, ?_, fun {l' b nd locked} hl hc e he hek => ?_⟩
    · show g.dir.insert m k new (m + 1) k = none
      rw [hup]
      by_contra hne
      obtain ⟨b, hb⟩ := Option.ne_none_iff_exists'.1 hne
      obtain ⟨c, hc⟩ := hg.nested hb
      cases hk.symm.trans hc
    · have hlink : g.dir (m + 1) l' = some b := (hup l').symm.trans hl
      have hba : b ≠ a := by
        rintro rfl
        exact absurd (hg.inj ha hlink).1 (Nat.succ_ne_self m).symm
      have hmem : g.store.mem b = .internal nd locked := (g.store.write_of_ne hba cell).symm.trans hc
      obtain ⟨nd', locked', hnd⟩ := hg.internalAt (Nat.le_add_left 1 m) hlink
      cases hmem.symm.trans hnd.mem
      obtain ⟨c, hc, -⟩ := (hnd.ok.routes.records e he).1
      rw [hnd.ok.level, hek] at hc
      cases hk.symm.trans hc

/-- A split moves on to a new root, or to the parent. -/
theorem updateParent_ok {isRoot : Bool} (hkey : 1 ≤ cl.key ∧ cl.key < L.keyFull)
    (hs : SepOk g ⟨m + 1, k, .at new⟩) (hp : PathOk g cl.path k (m + 1))
    (hroot : isRoot = true → g.dir m 1 = some a ∧ g.store.root = ⟨m + 1, .at a⟩) :
    ClientOk g (cl.updateParent isRoot m a k new) := by
  rw [Client.updateParent]
  split
  · rename_i hr
    exact ⟨hkey.1, hkey.2, hs, hroot hr⟩
  · exact ⟨hkey.1, hkey.2, hs, hp⟩

omit [Arithmetic] in
theorem owned_updateParent {isRoot : Bool} {r : Resource} (hr : r ∈ (cl.updateParent isRoot m a k new).pc.owned) :
    r = .sep (m + 1) k ∨ (isRoot = true ∧ r = .root) := by
  rw [Client.updateParent] at hr
  split at hr
  · rename_i h
    simp only [Client.goto_pc, TreePc.owned, List.mem_cons, List.not_mem_nil, or_false] at hr
    exact hr.elim (fun hr => .inr ⟨h, hr⟩) .inl
  · simp only [Client.goto_pc, TreePc.owned, List.mem_cons, List.not_mem_nil, or_false] at hr
    exact .inl hr

/-! ## The moves -/

omit [Arithmetic] in
theorem LeafOk.lt_of_routed {d : Nat → Option Nat} {lf : LeafNode L} (hok : LeafOk L d l h lf) (hr : Routed lf k) :
    k < h := by
  obtain ⟨hk, s, hs⟩ := hr
  have hs0 : lf.records.keys s ≠ 0 := fun h0 => hk (Nat.le_zero.1 (h0 ▸ hs))
  exact Nat.lt_of_le_of_lt hs (hok.range _ ⟨hs0, s, rfl⟩).2

theorem change_lockLeaf (hg : TreeOk g) (hc : ClientOk g cl) {p : Position} (hcl : cl.pc = .leaf p)
    (hs : cl.request ≠ .search) (hpa : p.nodeAddr = .at a) {lf : LeafNode L} {w : Valock L}
    (hm : g.store.mem a = .leaf lf (some w)) :
    Change g cl ⟨g.store.write a (.leaf lf none), g.dir⟩ (cl.goto (.leafLocked a p w)) := by
  obtain ⟨hk, hkf, hpc⟩ := hc
  rw [hcl] at hpc
  obtain ⟨hpath, hpos⟩ := hpc
  obtain ⟨l, hl⟩ : ∃ l, g.dir 0 l = some a := by
    rcases hpos with ⟨hp, -⟩ | ⟨l, _, ⟨b, hb, hp⟩, -⟩
    · cases hpa.symm.trans hp
    · cases hpa.symm.trans hp
      exact ⟨l, hb⟩
  obtain ⟨h, lf', lock, hm', hok, htells⟩ := hg.leaf hl
  cases hm.symm.trans hm'
  refine change_write hg hl (.leaf hok nofun) (.inr (by simp [TreePc.owned]))
    (fun _ _ _ => lacks_leaf lf none) ⟨hk, hkf, hpath, hpos, hpa, ⟨⟨l, hl⟩, lf, Store.write_self .., htells w rfl⟩,
      hs⟩ ?_
  intro r hr
  simp only [Client.goto_pc, TreePc.owned, List.mem_cons, List.not_mem_nil, or_false] at hr
  subst hr
  exact .inr (unowned_unlocked hl (by rw [hm]; rfl))

theorem change_unlockLeaf (hg : TreeOk g) (hc : ClientOk g cl) {w : Valock L} {next : Option Position}
    (hcl : cl.pc = .leafUnlock a w next) {lf : LeafNode L} (hm : g.store.mem a = .leaf lf none) :
    Change g cl ⟨g.store.write a (.leaf lf (some w)), g.dir⟩
      (cl.goto (.afterLeaf next)) := by
  obtain ⟨hk, hkf, hpc⟩ := hc
  rw [hcl] at hpc
  obtain ⟨hpath, ⟨⟨l, hl⟩, lf', hm', htells⟩, hnext⟩ := hpc
  cases hm.symm.trans hm'
  obtain ⟨h, hat⟩ := hg.leafAt hl hm
  refine change_write hg hl (.leaf hat.ok fun w' hw => Option.some.inj hw ▸ htells)
    (.inl (by simp [hcl, TreePc.owned])) (fun _ _ _ => lacks_leaf lf _) ⟨hk, hkf, ?_⟩ ?_
  · cases next with
    | none => exact hpath
    | some p => exact ⟨hpath, hnext p rfl⟩
  · intro r hr
    cases next <;> cases hr

theorem change_writeLeaf (hg : TreeOk g) (hc : ClientOk g cl) {x : LeafWrite L} (hcl : cl.pc = .leafWrite a x)
    {lf : LeafNode L} (hm : g.store.mem a = .leaf lf none) :
    Change g cl ⟨g.store.write a (.leaf (x.apply lf) (some x.lock)), g.dir⟩ (cl.goto (.done kValueNull)) := by
  obtain ⟨hk, hkf, hpc⟩ := hc
  rw [hcl] at hpc
  obtain ⟨lf', r', ⟨⟨l, hlk, hl⟩, hm', hr⟩, hup, happ, htells, -⟩ := hpc
  cases hm.symm.trans hm'
  obtain ⟨h, hat⟩ := hg.leafAt hl hm
  rw [happ]
  refine change_write hg hl (.leaf (hat.ok.upsert hk hlk (hat.ok.lt_of_routed hr) hup) fun w hw =>
    Option.some.inj hw ▸ htells) (.inl (by simp [hcl, TreePc.owned])) (fun _ _ _ => lacks_leaf _ _) ⟨hk, hkf,
      trivial⟩ nofun

theorem change_splitLeaf (hg : TreeOk g) (hc : ClientOk g cl) {x : LeafSplit L}
    (hcl : cl.pc = .leafSplitWrite a new x) :
    Change g cl ⟨g.store.write a (.leaf x.left (some x.leftLock)), g.dir.insert 0 x.splitKey new⟩
      (cl.updateParent x.isRoot 0 a x.splitKey new) := by
  obtain ⟨hk, hkf, hpc⟩ := hc
  rw [hcl] at hpc
  obtain ⟨hpath, hp, -, ⟨lf, ⟨⟨l, hlk, hl⟩, hm, hr⟩, hx⟩, hnew⟩ := hpc
  obtain ⟨h, hat⟩ := hg.leafAt hl hm
  have hkh := hat.ok.lt_of_routed hr
  have hl1 := (hg.range hl).1
  obtain ⟨⟨h1, h2⟩, hleft, hright⟩ := hx.ok hat.ok (hg.below 0) hl1 hlk hkh
  have hfree := hat.ok.next.free _ h1 h2
  have htop := hat.ok.next.le_top (hg.below 0)
  have hd : g.dir.Le (g.dir.insert 0 x.splitKey new) := Directory.insert_le hfree
  -- a leaf with the root tag is the only one
  have hroot : x.isRoot = true → g.dir 0 1 = some a ∧ Next (g.dir 0) L.keyFull 1 L.keyFull := by
    intro hroot
    obtain ⟨rfl, rfl⟩ := hat.ok.root.1 (hx.isRoot ▸ hroot)
    exact ⟨hl, hat.ok.next⟩
  rw [← Directory.insert_level (m := 0)] at hleft hright
  refine change_link hg hl hp hat.ok.next h1 h2 (.leaf hleft fun w hw => Option.some.inj hw ▸ hx.left_tells) ?_
    (by simp [hcl, TreePc.owned]) (fun _ h => absurd h (by omega)) ?_ ?_
  · rw [hnew]
    exact .leaf hright fun w hw => Option.some.inj hw ▸ hx.right_tells
  · refine updateParent_ok ⟨hk, hkf⟩ (sepOk_link hg hl hfree (by omega) (by omega)) ?_ fun hr => ?_
    · exact (hpath.up hg hat.ok.next hkh (Nat.zero_le 1) h1.le).mono hd
    · exact ⟨hd _ _ _ (hroot hr).1, hg.root_eq (hroot hr).1 (hroot hr).2⟩
  · intro r hr
    rcases owned_updateParent hr with rfl | ⟨hisRoot, rfl⟩
    · exact .inr (unowned_sep hfree)
    · exact .inr (unowned_root_of_alone hg (hroot hisRoot).1 (hroot hisRoot).2)

theorem change_newRoot (hg : TreeOk g) (hc : ClientOk g cl) {level sib : Nat} (hcl : cl.pc = .newRoot level a k sib) :
    Change g cl
      ⟨(g.store.write g.store.next (.internal (InternalNode.newRoot L level (.at a) k (.at sib)) false)).alloc, g.dir⟩
      (cl.goto (.rootCas level a g.store.next k sib)) := by
  obtain ⟨hk, hkf, hpc⟩ := hc
  rw [hcl] at hpc
  obtain ⟨hs, ha, hroot⟩ := hpc
  have hunlinked : ∀ m l, g.dir m l ≠ some g.store.next := fun m l h => lt_irrefl _ (hg.allocated h)
  -- the separator is the same after the write of a node that is not linked, and its owner relies on that
  have hrely : ∀ O : Resource → Prop, ¬O (.addr g.store.next) → Rely g
      ⟨(g.store.write g.store.next (.internal (InternalNode.newRoot L level (.at a) k (.at sib)) false)).alloc,
        g.dir⟩ O :=
    fun O ho => (Rely.write ho fun m _ l _ _ _ hl => absurd hl (hunlinked m l)).trans (.same rfl rfl (Nat.le_succ _))
  refine ⟨(hg.writePrivate hunlinked).alloc,
    ⟨hk, hkf, ?_, ha, hroot, ⟨Nat.lt_succ_self _, hunlinked⟩, Store.write_self ..⟩,
    fun O hO => hrely O fun h => (hO _ h).2 (by simp [TreePc.owned]), fun r hr => ?_⟩
  · exact hs.rely (hrely (· = .sep (level + 1) k) (by rintro ⟨⟩)) rfl
  · simp only [treeProtocol_owns, Client.goto_pc, TreePc.owned, List.mem_cons, List.not_mem_nil, or_false] at hr
    rcases hr with rfl | rfl | rfl
    · exact .inl (by simp [hcl, TreePc.owned])
    · exact .inl (by simp [hcl, TreePc.owned])
    · exact .inr (unowned_next hg)

theorem change_growRoot (hg : TreeOk g) (hc : ClientOk g cl) {level sib r : Nat}
    (hcl : cl.pc = .rootCas level a r k sib) :
    Change g cl ⟨{ g.store with root := ⟨level + 2, .at r⟩ }, g.dir.insert (level + 1) 1 r⟩
      (cl.goto (.done kValueNull)) := by
  obtain ⟨hk, hkf, hpc⟩ := hc
  rw [hcl] at hpc
  obtain ⟨hs, ha, hroot, hp, hm⟩ := hpc
  obtain ⟨b, hb, he⟩ := hs.points
  cases he
  refine ⟨hg.grow hroot ha hb hs.fresh.one_lt hp hm, ⟨hk, hkf, trivial⟩, fun O hO => ?_, nofun⟩
  have hnone : g.dir (level + 1) 1 = none := by
    by_contra hne
    obtain ⟨c, hc⟩ := Option.ne_none_iff_exists'.1 hne
    have := hg.below_root hc
    rw [hroot] at this
    exact lt_irrefl _ this
  have hown : ∀ r', r' ∈ cl.pc.owned → ¬O r' := fun r' h ho => (hO _ ho).1 h
  refine .grow hnone (hown _ (by simp [hcl, TreePc.owned])) (hown _ (by simp [hcl, TreePc.owned])) fun k' hk' => ?_
  rw [hm]
  refine lacks_internal fun e he => ?_
  cases List.mem_singleton.1 he
  rintro rfl
  exact hown _ (by simp [hcl, TreePc.owned]) hk'

theorem change_lockInternal (hg : TreeOk g) (hc : ClientOk g cl) {e : Separator} {p : GlobalAddress} {fc : Bool}
    (hcl : cl.pc = .internal e p fc) (hpa : p = .at a) {nd : InternalNode} (hm : g.store.mem a = .internal nd false) :
    Change g cl ⟨g.store.write a (.internal nd true), g.dir⟩ (cl.goto (.internalLocked e a fc)) := by
  obtain ⟨hk, hkf, hpc⟩ := hc
  rw [hcl] at hpc
  obtain ⟨hs, hpath, hheld⟩ := hpc
  obtain ⟨l, hle, hl⟩ : ∃ l ≤ e.key, g.dir e.level l = some a := by
    rcases hheld with ⟨l, hle, b, hb, hp⟩ | ⟨hp, -⟩
    · cases hpa.symm.trans hp
      exact ⟨l, hle, hb⟩
    · cases hpa.symm.trans hp
  obtain ⟨nd', locked, hnd⟩ := hg.internalAt hs.level_pos hl
  cases hm.symm.trans hnd.mem
  have hlacks : ∀ k', Fresh g e.level k' → Lacks (.internal nd true : Cell L) k' :=
    fun k' hf => lacks_internal fun r hr => hf.record hl hm r hr
  refine change_write hg hl (.internal hnd.ok) (.inr (by simp [TreePc.owned])) (fun k' _ => hlacks k')
    ⟨hk, hkf, ?_, hpath, nd, ⟨l, hle, hl⟩, Store.write_self ..⟩ ?_
  · have hrely : Rely g ⟨g.store.write a (.internal nd true), g.dir⟩ (· = .sep e.level e.key) :=
      .write (by rintro ⟨⟩) fun m k' l' _ _ hf hl' => by
        obtain ⟨rfl, -⟩ := hg.inj hl hl'
        exact hlacks k' hf
    exact hs.rely hrely rfl
  · intro r hr
    simp only [Client.goto_pc, TreePc.owned, List.mem_cons, List.not_mem_nil, or_false] at hr
    rcases hr with rfl | rfl
    · exact .inl (by simp [hcl, TreePc.owned])
    · exact .inr (unowned_unlocked hl (by rw [hm]; rfl))

theorem change_unlockInternal (hg : TreeOk g) (hc : ClientOk g cl) {e : Separator} {next : Option GlobalAddress}
    (hcl : cl.pc = .internalUnlock e a next) {nd : InternalNode} (hm : g.store.mem a = .internal nd true) :
    Change g cl ⟨g.store.write a (.internal nd false), g.dir⟩
      (cl.goto (.afterInternal e next)) := by
  obtain ⟨hk, hkf, hpc⟩ := hc
  rw [hcl] at hpc
  obtain ⟨hs, hpath, ⟨nd', ⟨l, hle, hl⟩, hm'⟩, hnext⟩ := hpc
  cases hm.symm.trans hm'
  obtain ⟨nd', locked, hnd⟩ := hg.internalAt hs.level_pos hl
  cases hm.symm.trans hnd.mem
  have hlacks : ∀ k', Fresh g e.level k' → Lacks (.internal nd false : Cell L) k' :=
    fun k' hf => lacks_internal fun r hr => hf.record hl hm r hr
  have hs' : SepOk ⟨g.store.write a (.internal nd false), g.dir⟩ e := by
    have hrely : Rely g ⟨g.store.write a (.internal nd false), g.dir⟩ (· = .sep e.level e.key) :=
      .write (by rintro ⟨⟩) fun m k' l' _ _ hf hl' => by
        obtain ⟨rfl, -⟩ := hg.inj hl hl'
        exact hlacks k' hf
    exact hs.rely hrely rfl
  refine change_write hg hl (.internal hnd.ok) (.inl (by simp [hcl, TreePc.owned])) (fun k' _ => hlacks k')
    ⟨hk, hkf, ?_⟩ ?_
  · cases next with
    | none => exact ⟨hs', hpath⟩
    | some p => exact ⟨hs', hpath, hnext p rfl⟩
  · cases next <;> simp [TreePc.afterInternal, hcl, TreePc.owned]

omit [Arithmetic] in
/-- A node with a separator that it may get. -/
theorem insertable (hs : SepOk g e) {nd : InternalNode} {locked : Bool} (hnd : InternalAt g e.level a l nd locked)
    (hl : l ≤ e.key) (hk : e.key < nd.highest) : Insertable g.dir nd e.key e.ptr where
  points := hnd.ok.level ▸ hs.points
  lowest_lt := by
    rw [hnd.ok.lowest]
    refine lt_of_le_of_ne hl fun heq => ?_
    cases (heq ▸ hnd.linked).symm.trans hs.fresh.boundary
  lt_highest := hk
  new := fun r hr => hs.fresh.record hnd.linked hnd.mem r hr

theorem change_writeInternal (hg : TreeOk g) (hc : ClientOk g cl) {e : Separator} {nd' : InternalNode}
    (hcl : cl.pc = .internalWrite e a nd') :
    Change g cl ⟨g.store.write a (.internal nd' false), g.dir⟩ (cl.goto (.done kValueNull)) := by
  obtain ⟨hk, hkf, hpc⟩ := hc
  rw [hcl] at hpc
  obtain ⟨hs, nd, ⟨⟨l, hle, hl⟩, hm⟩, hlt, rfl⟩ := hpc
  obtain ⟨nd', locked, hnd⟩ := hg.internalAt hs.level_pos hl
  cases hm.symm.trans hnd.mem
  refine change_write hg hl (.internal (hnd.ok.insert (insertable hs hnd hle hlt))) (.inl (by simp [hcl, TreePc.owned]))
    (fun k' hno hf => lacks_internal fun r hr => ?_) ⟨hk, hkf, trivial⟩ nofun
  rcases mem_shiftAndInsert.1 hr with rfl | hr
  · rintro rfl
    exact hno (by simp [hcl, TreePc.owned])
  · exact hf.record hl hm r hr

theorem change_splitInternal (hg : TreeOk g) (hc : ClientOk g cl) {e : Separator} {x : InternalSplit}
    (hcl : cl.pc = .internalSplitWrite e a new x) :
    Change g cl ⟨g.store.write a (.internal x.left false), g.dir.insert e.level x.splitKey new⟩
      (cl.updateParent x.isRoot e.level a x.splitKey new) := by
  obtain ⟨hk, hkf, hpc⟩ := hc
  rw [hcl] at hpc
  obtain ⟨hs, hpath, hp, ⟨nd, ⟨⟨l, hle, hl⟩, hm⟩, hkh, hx⟩, hnew⟩ := hpc
  obtain ⟨nd', locked, hnd⟩ := hg.internalAt hs.level_pos hl
  cases hm.symm.trans hnd.mem
  obtain ⟨h1, h2⟩ := hx.lt_splitKey hnd.ok.routes
  rw [hnd.ok.lowest] at h1
  have hl1 := (hg.range hl).1
  have htop := hnd.ok.next.le_top (hg.below _)
  have hfree := hnd.ok.next.free _ h1 h2
  have hd : g.dir.Le (g.dir.insert e.level x.splitKey new) := Directory.insert_le hfree
  obtain ⟨hleft, hright⟩ := hx.ok hnd.ok
  -- a node with the fences of a root is the only one of its level
  have hroot : x.isRoot = true → g.dir e.level 1 = some a ∧ Next (g.dir e.level) L.keyFull 1 L.keyFull := by
    intro hroot
    rw [hx.isRoot] at hroot
    simp only [InternalNode.isRoot, Bool.decide_and, Bool.and_eq_true, decide_eq_true_eq] at hroot
    have hl1 : l = 1 := hnd.ok.lowest.symm.trans hroot.1
    have hn := hnd.ok.next
    rw [hroot.2, hl1] at hn
    rw [hl1] at hl
    exact ⟨hl, hn⟩
  refine change_link hg hl hp hnd.ok.next h1 h2 (.internal hleft) ?_ (by simp [hcl, TreePc.owned])
    (fun k' _ hno hf => ?_) ?_ ?_
  · rw [hnew]
    exact .internal hright
  · have hlacks : ∀ r, r ∈ x.left.records ∨ r ∈ x.right.records → r.key ≠ k' := by
      intro r hr
      rcases hx.keys r hr with hr | hr
      · exact hf.record hl hm r hr
      · rintro rfl
        exact hno (by simp [hcl, TreePc.owned, hr])
    rw [hnew]
    refine ⟨?_, lacks_internal fun r hr => hlacks r (.inl hr), lacks_internal fun r hr => hlacks r (.inr hr)⟩
    obtain ⟨r, hr, hrk⟩ := hx.splitKey
    exact hrk ▸ (hf.record hl hm r hr).symm
  · refine updateParent_ok ⟨hk, hkf⟩ (sepOk_link hg hl hfree (by omega) (by omega)) ?_ fun hr => ?_
    · exact (hpath.up hg hnd.ok.next hkh (Nat.le_succ _) h1.le).mono hd
    · exact ⟨hd _ _ _ (hroot hr).1, hg.root_eq (hroot hr).1 (hroot hr).2⟩
  · intro r hr
    rcases owned_updateParent hr with rfl | ⟨hisRoot, rfl⟩
    · exact .inr (unowned_sep hfree)
    · exact .inr (unowned_root_of_alone hg (hroot hisRoot).1 (hroot hisRoot).2)

/-- **Every move** of a client is a change that the others rely on. -/
theorem TreeMove.change (hg : TreeOk g) (hc : ClientOk g cl) {pc : TreePc L} (hcl : cl.pc = pc) {g' : Charted L}
    (hm : TreeMove g ch cl pc g' cl') : Change g cl g' cl' := by
  have hcl' := hc
  obtain ⟨hk, hkf, hpc⟩ := hcl'
  rw [hcl] at hpc
  have hnil : ∀ r ∈ ([] : List Resource), r ∈ cl.pc.owned := fun r hr => by cases hr
  cases hm with
  | fromRoot hch =>
    refine change_local hg ⟨hk, hkf, hpc, hg.root_pos, .inl ⟨1, hk, hg.root⟩, neighbor_null hkf⟩ hnil
  | @fromCache nd hch hnd hlow hhigh =>
    have hr := hg.cached nd hnd
    obtain ⟨h1, h2⟩ := hr.childPtr hlow hhigh
    exact change_local hg ⟨hk, hkf, hpc, hr.level_pos, h1, h2⟩ hnil
  | atLeaf hlevel =>
    obtain ⟨hpath, hv⟩ := hpc
    have hnode := hv.node
    have hsib := hv.sibling
    rw [hlevel] at hnode hsib
    refine change_local hg ⟨hk, hkf, hpath.visited hv.node, ?_⟩ hnil
    rcases hnode with ⟨l, hl, hp⟩ | hnull
    · obtain ⟨h', hk', ht⟩ := hsib
      refine .inr ⟨l, h', hp, ht, ?_⟩
      exact ⟨Nat.lt_of_le_of_lt hl hk', hk', fun _ _ => hl⟩
    · exact .inl hnull
  | staleVisit hfc =>
    exact change_local hg ⟨hk, hkf, hpc.1.visited hpc.2.node⟩ hnil
  | visitRight hlevel hpa hnd hk' hpt =>
    obtain ⟨hpath, hv⟩ := hpc
    have hheld : Held L (g.dir (_ - 1)) cl.key _ := .inl ⟨_, hk', hpt⟩
    exact change_local hg ⟨hk, hkf, (hpath.visited hv.node).record hheld, hv.level_pos, hheld, hv.sibling⟩ hnil
  | @down p a l nd locked hlevel hpa hnd hl hk' =>
    obtain ⟨hpath, hv⟩ := hpc
    have hr := hnd.ok.routes
    obtain ⟨h1, h2⟩ := hr.childPtr (hnd.ok.lowest ▸ hl) hk'
    exact change_cacheNode hg hr ⟨hk, hkf, hpath.visited hv.node, hr.level_pos, h1, h2⟩ hnil
  | found hs hpa hat hst => exact change_local hg ⟨hk, hkf, trivial⟩ hnil
  | absent hs hpa hat hno hkh => exact change_local hg ⟨hk, hkf, trivial⟩ hnil
  | walk hs hpa hat hno ht hlt hkh hpt =>
    exact change_local hg ⟨hk, hkf, hpc.1, .inr ⟨_, _, hpt, ht, hlt, hkh, fun v hr => by cases hs.symm.trans hr⟩⟩ hnil
  | staleLeaf hfc => exact change_local hg ⟨hk, hkf, hpc.1⟩ hnil
  | spinLeaf hs hpa hm => exact change_local hg hc fun _ h => h
  | lockLeaf hs hpa hm => exact change_lockLeaf hg hc hcl hs hpa hm
  | staleLocked hfc =>
    exact change_local hg ⟨hk, hkf, hpc.1, hpc.2.2.2.1, fun _ h => by cases h⟩ (by simp [hcl, TreePc.owned])
  | insertRight hr hat hle hpt =>
    refine change_local hg ⟨hk, hkf, hpc.1, hpc.2.2.2.1, fun p hp => ?_⟩ (by simp [hcl, TreePc.owned])
    cases hp
    exact .inr ⟨_, L.keyFull, hpt, .inl ⟨rfl, rfl⟩, Nat.lt_of_le_of_lt hle hkf, hkf, fun _ _ => hle⟩
  | updateRight hr hat hno ht hlt hkh hpt =>
    refine change_local hg ⟨hk, hkf, hpc.1, hpc.2.2.2.1, fun p hp => ?_⟩ (by simp [hcl, TreePc.owned])
    cases hp
    exact .inr ⟨_, _, hpt, ht, hlt, hkh, fun v hv => by cases hr.symm.trans hv⟩
  | toWrite hat hl hlt hup hx htells hkeys =>
    exact change_local hg ⟨hk, hkf, _, _, ⟨⟨_, hl, hat.linked⟩, hat.mem, hat.ok.routed hk hlt⟩, hup, hx, htells, hkeys⟩
      (by simp [hcl, TreePc.owned])
  | toSplit hr hat hl hlt hx =>
    exact change_alloc hg ⟨hk, hkf, hpc.1, ⟨Nat.lt_succ_self _, fun m l h => lt_irrefl _ (hg.allocated h)⟩, ⟨_, hr⟩, _,
      ⟨⟨_, hl, hat.linked⟩, hat.mem, hat.ok.routed hk hlt⟩, hx⟩ (by simp [hcl, TreePc.owned])
  | stuck hr hat hd hb =>
    exact change_local hg ⟨hk, hkf, by rcases hb with rfl | rfl <;> rfl⟩ hnil
  | keyMissing hr hat hno hlt => exact change_local hg ⟨hk, hkf, rfl⟩ hnil
  | unlockLeaf hm => exact change_unlockLeaf hg hc hcl hm
  | writeLeaf hm => exact change_writeLeaf hg hc hcl hm
  | @writeLeafSibling a new x =>
    obtain ⟨hpath, hp, hv, lf, hat, hx⟩ := hpc
    obtain ⟨l, hl, ha⟩ := hat.linked
    have hna : a ≠ new := by
      rintro rfl
      exact hp.2 0 l ha
    exact change_writePrivate hg hp (by simp [hcl, TreePc.owned]) ⟨hk, hkf, hpath, hp, hv,
      ⟨lf, ⟨⟨l, hl, ha⟩, (Store.write_of_ne _ hna _).trans hat.mem, hat.routed⟩, hx⟩, Store.write_self ..⟩
      (by simp [hcl, TreePc.owned])
  | splitLeaf => exact change_splitLeaf hg hc hcl
  | newRoot => exact change_newRoot hg hc hcl
  | growRoot => exact change_growRoot hg hc hcl
  | parentPath hp =>
    obtain ⟨hs, hpath⟩ := hpc
    exact change_local hg ⟨hk, hkf, hs, hpath, .inl (hpath _ le_rfl hp)⟩ (by simp [hcl, TreePc.owned])
  | parentCache hch hnd hlevel hlow hhigh =>
    obtain ⟨hs, hpath⟩ := hpc
    have hheld := ((hg.cached _ hnd).childPtr hlow hhigh).1
    rw [hlevel, Nat.add_sub_cancel] at hheld
    exact change_local hg ⟨hk, hkf, hs, hpath, hheld⟩ (by simp [hcl, TreePc.owned])
  | parentNull hch => exact change_local hg ⟨hk, hkf, rfl⟩ hnil
  | parentRoot hch hp => exact change_local hg ⟨hk, hkf, hpc⟩ (by simp [hcl, TreePc.owned])
  | readRoot =>
    exact change_local hg ⟨hk, hkf, hpc.1, hpc.2, hg.root_pos, .inl ⟨1, hpc.1.fresh.one_lt.le, hg.root⟩⟩
      (by simp [hcl, TreePc.owned])
  | noTarget hlevel => exact change_local hg ⟨hk, hkf, rfl⟩ hnil
  | atTarget hlevel he =>
    obtain ⟨hs, hpath, -, hheld⟩ := hpc
    exact change_local hg ⟨hk, hkf, hs, hpath.record hheld, he ▸ hheld⟩ (by simp [hcl, TreePc.owned])
  | targetRight hlevel he hpa hnd hk' hpt =>
    obtain ⟨hs, hpath, hpos, hheld⟩ := hpc
    have hright : Held L (g.dir (_ - 1)) _ _ := .inl ⟨_, hk', hpt⟩
    exact change_local hg ⟨hk, hkf, hs, (hpath.record hheld).record hright, hpos, hright⟩ (by simp [hcl, TreePc.owned])
  | @targetDown e level a l p nd locked hlevel he hpa hnd hl hk' =>
    obtain ⟨hs, hpath, hpos, hheld⟩ := hpc
    have hr := hnd.ok.routes
    have hsame : Rely g ⟨g.store.cacheNode nd, g.dir⟩ (· ∈ cl.pc.owned) := .same rfl rfl le_rfl
    exact change_cacheNode hg hr ⟨hk, hkf, hs.rely hsame (by simp [hcl, TreePc.owned]), hpath.record hheld,
      hr.level_pos,
      (hr.childPtr (hnd.ok.lowest ▸ hl) hk').1⟩ (by simp [hcl, TreePc.owned])
  | spinInternal hpa hm => exact change_local hg hc fun _ h => h
  | lockInternal hpa hm => exact change_lockInternal hg hc hcl hpa hm
  | staleInternal hfc =>
    obtain ⟨hs, hpath, hat⟩ := hpc
    exact change_local hg ⟨hk, hkf, hs, hpath, hat, fun _ h => by cases h⟩ (by simp [hcl, TreePc.owned])
  | internalRight hnd hk' hpt =>
    obtain ⟨hs, hpath, hat⟩ := hpc
    refine change_local hg ⟨hk, hkf, hs, hpath, hat, fun p hp => ?_⟩ (by simp [hcl, TreePc.owned])
    cases hp
    exact .inl ⟨_, hk', hpt⟩
  | toInternalWrite hnd hl hk' =>
    exact change_local hg ⟨hk, hkf, hpc.1, _, ⟨⟨_, hl, hnd.linked⟩, hnd.mem⟩, hk', rfl⟩ (by simp [hcl, TreePc.owned])
  | toInternalSplit hnd hl hk' hx =>
    obtain ⟨hs, hpath, -⟩ := hpc
    have hsame : Rely g ⟨g.store.alloc, g.dir⟩ (· ∈ cl.pc.owned) := .same rfl rfl (Nat.le_succ _)
    exact change_alloc hg ⟨hk, hkf, hs.rely hsame (by simp [hcl, TreePc.owned]), hpath,
      ⟨Nat.lt_succ_self _, fun m l h => lt_irrefl _ (hg.allocated h)⟩, _, ⟨⟨_, hl, hnd.linked⟩, hnd.mem⟩, hk', hx⟩
      (by simp [hcl, TreePc.owned])
  | unlockInternal hm => exact change_unlockInternal hg hc hcl hm
  | writeInternal => exact change_writeInternal hg hc hcl
  | @writeInternalSibling e a new x =>
    obtain ⟨hs, hpath, hp, nd, ⟨⟨l, hl, ha⟩, hm⟩, hk', hx⟩ := hpc
    have hna : a ≠ new := by
      rintro rfl
      exact hp.2 _ l ha
    have hrely : Rely g ⟨g.store.write new (.internal x.right false), g.dir⟩ (· = .sep e.level e.key) :=
      .write (by rintro ⟨⟩) fun m k' l' _ _ _ hl' => absurd hl' (hp.2 m l')
    exact change_writePrivate hg hp (by simp [hcl, TreePc.owned]) ⟨hk, hkf, hs.rely hrely rfl, hpath, hp,
      ⟨nd, ⟨⟨l, hl, ha⟩, (Store.write_of_ne _ hna _).trans hm⟩, hk', hx⟩, Store.write_self ..⟩
      (by simp [hcl, TreePc.owned])
  | splitInternal => exact change_splitInternal hg hc hcl

end Chime

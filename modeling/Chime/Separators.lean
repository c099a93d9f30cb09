import Chime.Sequential

/-!
# The separators of one client's splits

`Separated g m l`: the boundary `l` of level `m` is known in the level above. In a run of one client, with whatever its
caches hold, every node is the only one of the top level, or separated, or its separator is on its way (`Accounted`,
`TreeMove.accounted`). So when the client is idle, the root covers all keys (`covers_root`), and the child that a node
routes a key to covers it and is followed by the neighbor that the node names (`covers_child`).
-/

namespace Chime

open Boundary (Next Extends Below)

variable {L : Layout} {g g' : Charted L} {ch : Choice L} {cl cl' : Client L}

/-- The level above has the boundary, or one of its nodes separates there. -/
def Separated (g : Charted L) (m l : Nat) : Prop :=
  (∃ a, g.dir (m + 1) l = some a) ∨
  ∃ l' a nd locked, g.dir (m + 1) l' = some a ∧ g.store.mem a = .internal nd locked ∧ nd.Separates l

/-- Every node is separated, or the only one of the top level, or its separator is among what is owned. -/
def Accounted (g : Charted L) (owned : List Resource) : Prop :=
  ∀ m l a, g.dir m l = some a → (m + 1 < g.store.root.level ∧ Separated g m l) ∨ (m + 1 = g.store.root.level ∧ l = 1) ∨
    .sep (m + 1) l ∈ owned

/-! ## Steps -/

/-- The linked nodes keep their separators. -/
theorem Separated.mono {m l : Nat} (h : Separated g m l) (hd : g.dir.Le g'.dir)
    (hkeep : ∀ l' a nd locked, g.dir (m + 1) l' = some a → g.store.mem a = .internal nd locked → nd.Separates l →
      ∃ nd' locked', g'.store.mem a = .internal nd' locked' ∧ nd'.Separates l) : Separated g' m l := by
  rcases h with ⟨a, ha⟩ | ⟨l', a, nd, locked, ha, hm, hsep⟩
  · exact .inl ⟨a, hd _ _ _ ha⟩
  · obtain ⟨nd', locked', hm', hsep'⟩ := hkeep l' a nd locked ha hm hsep
    exact .inr ⟨l', a, nd', locked', hd _ _ _ ha, hm', hsep'⟩

/-- A node is written that is not an internal one, or keeps its separators. -/
theorem Separated.write {m l a : Nat} {cell : Cell L} {d' : Directory} (h : Separated g m l) (hd : g.dir.Le d')
    (hkeep : ∀ l' nd locked, g.dir (m + 1) l' = some a → g.store.mem a = .internal nd locked → nd.Separates l →
      ∃ nd' locked', cell = .internal nd' locked' ∧ nd'.Separates l) : Separated ⟨g.store.write a cell, d'⟩ m l := by
  refine h.mono hd fun l' b nd locked hb hm hsep => ?_
  by_cases hba : b = a
  · subst hba
    obtain ⟨nd', locked', rfl, hsep'⟩ := hkeep l' nd locked hb hm hsep
    exact ⟨nd', locked', Store.write_self .., hsep'⟩
  · exact ⟨nd, locked, (Store.write_of_ne _ hba _).trans hm, hsep⟩

/-- A leaf is written. -/
theorem Separated.writeLeaf {m l a : Nat} {cell : Cell L} {d' : Directory} {lf : LeafNode L} {lock : Option (Valock L)}
    (h : Separated g m l) (hd : g.dir.Le d') (hm : g.store.mem a = .leaf lf lock) :
    Separated ⟨g.store.write a cell, d'⟩ m l :=
  h.write hd fun _ _ _ _ hm' _ => by cases hm.symm.trans hm'

/-- A node that is not linked is written. -/
theorem Separated.writePrivate {m l a : Nat} {cell : Cell L} {d' : Directory} (h : Separated g m l) (hd : g.dir.Le d')
    (hp : ∀ m l, g.dir m l ≠ some a) : Separated ⟨g.store.write a cell, d'⟩ m l :=
  h.write hd fun l' _ _ ha => absurd ha (hp _ l')

/-- The height stays, new nodes have their separators carried, and a separator is carried on or has arrived. -/
theorem Accounted.of {o o' : List Resource} (h : Accounted g o) (hroot : g'.store.root.level = g.store.root.level)
    (hdir : ∀ m l a, g'.dir m l = some a → g.dir m l = some a ∨ .sep (m + 1) l ∈ o')
    (hsep : ∀ m l, Separated g m l → Separated g' m l)
    (ho : ∀ m l, .sep (m + 1) l ∈ o → .sep (m + 1) l ∈ o' ∨ (m + 1 < g.store.root.level ∧ Separated g' m l)) :
    Accounted g' o' := by
  intro m l a ha
  rw [hroot]
  rcases hdir m l a ha with ha | hnew
  · rcases h m l a ha with ⟨hm, hs⟩ | htop | hs
    · exact .inl ⟨hm, hsep m l hs⟩
    · exact .inr (.inl htop)
    · exact (ho m l hs).elim (fun hs => .inr (.inr hs)) .inl
  · exact .inr (.inr hnew)

/-- A step that keeps the directory, the separators of the nodes and those that are carried. -/
theorem Accounted.stay {o o' : List Resource} (h : Accounted g o) (hroot : g'.store.root.level = g.store.root.level)
    (hdir : g'.dir = g.dir) (hsep : ∀ m l, Separated g m l → Separated g' m l)
    (ho : ∀ m l, .sep (m + 1) l ∈ o → .sep (m + 1) l ∈ o') : Accounted g' o' :=
  h.of hroot (fun _ _ _ ha => .inl (hdir ▸ ha)) hsep fun m l hs => .inl (ho m l hs)

/-- A separator that is carried to the parents, or with a new root. -/
theorem sep_mem_updateParent (isRoot : Bool) (m a k new : Nat) :
    .sep (m + 1) k ∈ (cl.updateParent isRoot m a k new).pc.owned := by
  cases isRoot with
  | true => exact List.mem_cons_of_mem _ List.mem_cons_self
  | false => exact List.mem_cons_self

/-- **The root grows** over the two nodes of its level. -/
theorem accounted_growRoot {level a r k sib : Nat}
    (hmem : g.store.mem r = .internal (InternalNode.newRoot L level (.at a) k (.at sib)) false)
    (hroot : g.store.root.level = level + 1) (hfree : g.dir (level + 1) 1 = none)
    (hacc : Accounted g (.rootCas level a r k sib : TreePc L).owned) :
    Accounted ⟨{ g.store with root := ⟨level + 2, .at r⟩ }, g.dir.insert (level + 1) 1 r⟩ [] := by
  have hle : g.dir.Le (g.dir.insert (level + 1) 1 r) := Directory.insert_le hfree
  have hnew : g.dir.insert (level + 1) 1 r (level + 1) 1 = some r := by
    rw [Directory.insert_level, Function.update_self]
  intro m l b hb
  rcases Directory.insert_cases hb with ⟨rfl, rfl, -⟩ | hold
  · exact .inr (.inl ⟨rfl, rfl⟩)
  left
  rcases hacc m l b hold with ⟨hm, hs⟩ | ⟨hm, rfl⟩ | hs
  · exact ⟨by simp only; omega, hs.mono hle fun _ _ nd locked _ hm hsep => ⟨nd, locked, hm, hsep⟩⟩
  · obtain rfl : m = level := by omega
    exact ⟨Nat.lt_succ_self _, .inl ⟨r, hnew⟩⟩
  · simp only [TreePc.owned, List.mem_cons, reduceCtorEq, Resource.sep.injEq, List.not_mem_nil, or_false,
      false_or] at hs
    obtain ⟨hm, rfl⟩ := hs
    obtain rfl : m = level := by omega
    exact ⟨Nat.lt_succ_self _, .inr ⟨1, r, _, _, hnew, hmem, ⟨l, .at sib⟩, List.mem_cons_self, rfl⟩⟩

/-- **An internal node is split**: the separators of the old node and the new one are in the two nodes, or begin the
right one. -/
theorem SplitNodes.separated (hg : TreeOk g) {m l₀ a new k : Nat} {nd : InternalNode} {x : InternalSplit}
    {sib : GlobalAddress}
    (hx : SplitNodes L g.dir nd k sib x) (ha : g.dir (m + 1) l₀ = some a) (hm : g.store.mem a = .internal nd true)
    (hnew : g.store.mem new = .internal x.right false) (hpriv : ∀ m l, g.dir m l ≠ some new)
    (hle : g.dir.Le (g.dir.insert (m + 1) x.splitKey new)) :
    (∀ j l, Separated g j l →
      Separated ⟨g.store.write a (.internal x.left false), g.dir.insert (m + 1) x.splitKey new⟩ j l) ∧
      Separated ⟨g.store.write a (.internal x.left false), g.dir.insert (m + 1) x.splitKey new⟩ m k := by
  have hne : new ≠ a := by
    rintro rfl
    exact hpriv _ _ ha
  have hself : g.dir.insert (m + 1) x.splitKey new (m + 1) x.splitKey = some new := by
    rw [Directory.insert_level, Function.update_self]
  -- where the separators of the split node are now
  have hkept : ∀ l, nd.Separates l ∨ l = k →
      Separated ⟨g.store.write a (.internal x.left false), g.dir.insert (m + 1) x.splitKey new⟩ m l := by
    intro l hl
    rcases hx.kept l hl with rfl | hleft | hright
    · exact .inl ⟨new, hself⟩
    · exact .inr ⟨l₀, a, _, _, hle _ _ _ ha, Store.write_self .., hleft⟩
    · exact .inr ⟨x.splitKey, new, _, _, hself, (Store.write_of_ne _ hne _).trans hnew, hright⟩
  refine ⟨fun j l hs => ?_, hkept k (.inr rfl)⟩
  rcases hs with ⟨b, hb⟩ | ⟨l', b, nd', locked, hb, hmb, hsep⟩
  · exact .inl ⟨b, hle _ _ _ hb⟩
  · by_cases hba : b = a
    · subst hba
      cases hm.symm.trans hmb
      obtain rfl : m = j := by
        have := (hg.inj ha hb).1
        omega
      exact hkept l (.inl hsep)
    · exact .inr ⟨l', b, nd', locked, hle _ _ _ hb, (Store.write_of_ne _ hba _).trans hmb, hsep⟩

/-- **A step** that fails no assertion accounts for all nodes. -/
theorem TreeMove.accounted (hg : TreeOk g) (hc : ClientOk g cl) {pc : TreePc L} (hcl : cl.pc = pc)
    (hacc : Accounted g pc.owned) (hm : TreeMove g ch cl pc g' cl') (hcrash : ∀ a, cl'.pc ≠ .crashed a) :
    Accounted g' cl'.pc.owned := by
  have hle : g.dir.Le g'.dir := Rely.dir ((hm.change hg hc hcl).guarantee (fun _ => False) nofun)
  have hpc := hc.pc
  rw [hcl] at hpc
  -- steps that leave the nodes
  have hlocal : ∀ {s' : Store L}, s'.mem = g.store.mem → s'.root = g.store.root →
      (∀ m l, .sep (m + 1) l ∈ pc.owned → .sep (m + 1) l ∈ cl'.pc.owned) → Accounted ⟨s', g.dir⟩ cl'.pc.owned :=
    fun hmem hroot ho => hacc.stay (by rw [hroot]) rfl
      (fun m l hs => hs.mono (.refl _) fun _ _ nd locked _ hm hsep => ⟨nd, locked, by rw [hmem]; exact hm, hsep⟩) ho
  -- steps that write an internal node that keeps its separators
  have hwrite : ∀ {a : Nat} {nd nd' : InternalNode} {locked locked' : Bool}, g.store.mem a = .internal nd locked →
      (∀ l, nd.Separates l → nd'.Separates l) → ∀ m l, Separated g m l →
        Separated ⟨g.store.write a (.internal nd' locked'), g.dir⟩ m l :=
    fun hmem hkeep m l hs => hs.write (.refl _) fun _ _ _ _ hmem' hsep => by
      cases hmem.symm.trans hmem'
      exact ⟨_, _, rfl, hkeep l hsep⟩
  cases hm with
  | lockLeaf _ _ hmem | unlockLeaf hmem | writeLeaf hmem =>
    exact hacc.stay rfl rfl (fun m l hs => hs.writeLeaf (.refl _) hmem) fun m l hs => by simp [TreePc.owned] at hs
  | writeLeafSibling =>
    obtain ⟨-, hp, -⟩ := hpc
    exact hacc.stay rfl rfl (fun m l hs => hs.writePrivate (.refl _) hp.2) fun m l hs => by simp [TreePc.owned] at hs
  | @splitLeaf a new x =>
    obtain ⟨-, -, -, ⟨lf, hat, -⟩, -⟩ := hpc
    refine hacc.of rfl (fun m l b hb => ?_) (fun m l hs => hs.writeLeaf hle hat.mem) fun m l hs => by
      simp [TreePc.owned] at hs
    rcases Directory.insert_cases hb with ⟨rfl, rfl, -⟩ | hold
    · exact .inr (sep_mem_updateParent ..)
    · exact .inl hold
  | newRoot =>
    refine hacc.stay rfl rfl (fun m l hs => hs.writePrivate (.refl _) fun j b hb => lt_irrefl _ (hg.allocated hb))
      fun m l hs => ?_
    simpa [TreePc.owned] using hs
  | growRoot =>
    obtain ⟨-, -, hroot, -, hmem⟩ := hpc
    refine accounted_growRoot hmem (by rw [hroot]) ?_ hacc
    by_contra hne
    obtain ⟨b, hb⟩ := Option.ne_none_iff_exists'.1 hne
    have := hg.below_root hb
    rw [hroot] at this
    exact lt_irrefl _ this
  | lockInternal hpa hmem =>
    exact hacc.stay rfl rfl (hwrite hmem fun _ h => h) fun m l hs => by simpa [TreePc.owned] using hs
  | @unlockInternal e a next nd hmem =>
    refine hacc.stay rfl rfl (hwrite hmem fun _ h => h) fun m l hs => ?_
    cases next <;> simpa [TreePc.owned, TreePc.afterInternal] using hs
  | @writeInternal e a nd' =>
    obtain ⟨hs, nd, hat, hlt, rfl⟩ := hpc
    obtain ⟨l₀, -, ha⟩ := hat.linked
    refine hacc.of rfl (fun m l b hb => .inl hb) (hwrite hat.mem ?_) fun m l hsep => .inr ?_
    · rintro l ⟨r, hr, rfl⟩
      exact ⟨r, mem_shiftAndInsert.2 (.inr hr), rfl⟩
    · simp only [TreePc.owned, List.mem_cons, Resource.sep.injEq, reduceCtorEq, List.not_mem_nil, or_false] at hsep
      obtain ⟨hm, rfl⟩ := hsep
      rw [hm]
      refine ⟨hg.below_root ha, .inr ⟨l₀, a, _, _, hm ▸ ha, Store.write_self .., ?_⟩⟩
      exact ⟨⟨e.key, e.ptr⟩, mem_shiftAndInsert.2 (.inl rfl), rfl⟩
  | writeInternalSibling =>
    obtain ⟨-, -, hp, -⟩ := hpc
    refine hacc.stay rfl rfl (fun m l hs => hs.writePrivate (.refl _) hp.2) fun m l hs => ?_
    simpa [TreePc.owned] using hs
  | @splitInternal e a new x =>
    obtain ⟨hs, -, hp, ⟨nd, hat, hlt, hx⟩, hnew⟩ := hpc
    obtain ⟨l₀, -, ha⟩ := hat.linked
    obtain ⟨m, hm⟩ : ∃ m, e.level = m + 1 := ⟨e.level - 1, by have := hs.level_pos; omega⟩
    rw [hm] at ha hle ⊢
    obtain ⟨hkeep, harrived⟩ := hx.separated hg ha hat.mem hnew hp.2 hle
    refine hacc.of rfl (fun j l b hb => ?_) hkeep fun j l hsep => .inr ?_
    · rcases Directory.insert_cases hb with ⟨rfl, rfl, -⟩ | hold
      · exact .inr (sep_mem_updateParent ..)
      · exact .inl hold
    · simp only [TreePc.owned, List.mem_cons, Resource.sep.injEq, reduceCtorEq, List.not_mem_nil, or_false] at hsep
      obtain ⟨hj, rfl⟩ := hsep
      obtain rfl : j = m := by omega
      exact ⟨hg.below_root ha, harrived⟩
  | stuck => exact absurd rfl (hcrash _)
  | keyMissing => exact absurd rfl (hcrash _)
  | parentNull => exact absurd rfl (hcrash _)
  | noTarget => exact absurd rfl (hcrash _)
  | spinLeaf => exact hcl.symm ▸ hacc
  | spinInternal => exact hcl.symm ▸ hacc
  | parentPath | parentCache | parentRoot | readRoot | atTarget | targetRight | targetDown | staleInternal | internalRight |
    toInternalWrite | toInternalSplit => exact hlocal rfl rfl fun m l hs => by simpa [TreePc.owned] using hs
  | _ => exact hlocal rfl rfl fun m l hs => by simp [TreePc.owned] at hs

/-! ## Trees without a split under way -/

/-- No node is locked, and no separator is on its way. -/
structure Settled (g : Charted L) : Prop where
  unlocked : ∀ m l a, g.dir m l = some a → (g.store.mem a).isLocked = false
  accounted : Accounted g []

/-- The pointer leads to the node of the level that covers the key, and the neighbor is the next node. -/
def Covers (g : Charted L) (m k : Nat) (p sib : GlobalAddress) : Prop :=
  ∃ l h, Points (g.dir m) l p ∧ Next (g.dir m) L.keyFull l h ∧ Target L (g.dir m) h sib ∧ l ≤ k ∧ k < h

/-- The root covers all keys. -/
theorem covers_root (hg : TreeOk g) (hs : Settled g) {k : Nat} (hk : 1 ≤ k) (hkf : k < L.keyFull) :
    Covers g (g.store.root.level - 1) k g.store.root.ptr .null := by
  obtain ⟨a, ha, hp⟩ := hg.root
  obtain ⟨h, hn⟩ := hg.next ha
  refine ⟨1, h, ⟨a, ha, hp⟩, hn, ?_⟩
  have hlt := hn.lt
  rcases hn.bound with rfl | ⟨b, hb⟩
  · exact ⟨.inl ⟨rfl, rfl⟩, hk, hkf⟩
  · have hpos := hg.root_pos
    rcases hs.accounted _ _ _ hb with ⟨hm, -⟩ | ⟨-, rfl⟩ | hsep
    · omega
    · exact absurd hlt (lt_irrefl _)
    · cases hsep

/-- **A child** covers the keys that are routed to it, and its neighbor is the next node. -/
theorem covers_child (hg : TreeOk g) (hs : Settled g) (h3 : 3 ≤ L.internalSpanSize) {m a l k : Nat} {nd : InternalNode}
    {locked : Bool} (hnd : InternalAt g m a l nd locked) (hl : l ≤ k) (hk : k < nd.highest) :
    Covers g (nd.level - 1) k (nd.childPtr k).1 (nd.childPtr k).2 := by
  obtain ⟨l', h', hp, ht, hll, hlk, hkh, hhh, hno⟩ := hnd.ok.routes.childPtr_between h3 (hnd.ok.lowest ▸ hl) hk
  have hpos := hnd.ok.routes.level_pos
  have hlevel := hnd.ok.level
  refine ⟨l', h', hp, ⟨hlk.trans_lt hkh, ?_, fun b h1 h2 => ?_⟩, ht, hlk, hkh⟩
  · exact ht.imp And.left fun ⟨c, hc, _⟩ => ⟨c, hc⟩
  -- a boundary between the two would be known in this node
  by_contra hne
  obtain ⟨c, hc⟩ := Option.ne_none_iff_exists'.1 hne
  have hbelow := hg.below_root hnd.linked
  obtain ⟨j, rfl⟩ : ∃ j, m = j + 1 := ⟨m - 1, by omega⟩
  obtain rfl : nd.level - 1 = j := by omega
  have hlow := hnd.ok.lowest
  rcases hs.accounted _ _ _ hc with ⟨-, ⟨a', ha'⟩ | ⟨l₂, a₂, nd₂, locked₂, ha₂, hm₂, hsep⟩⟩ | ⟨htop, -⟩ | hsep
  · cases (hnd.ok.next.free b (by omega) (h2.trans_le hhh)).symm.trans ha'
  · obtain ⟨nd₃, locked₃, hnd₂⟩ := hg.internalAt (Nat.le_add_left 1 _) ha₂
    cases hm₂.symm.trans hnd₂.mem
    obtain ⟨r, hr, rfl⟩ := hsep
    obtain ⟨-, hlo, hhi⟩ := hnd₂.ok.routes.records r hr
    obtain rfl := hnd₂.ok.next.disjoint hnd.ok.next ha₂ hnd.linked (hnd₂.ok.lowest ▸ hlo.le) hhi (by omega)
      (h2.trans_le hhh)
    cases ha₂.symm.trans hnd.linked
    cases hm₂.symm.trans hnd.mem
    rcases hno r.key ⟨r, hr, rfl⟩ with h | h
    · omega
    · omega
  · omega
  · cases hsep

namespace Tree

/-- Client 0 is the only one, and the keys lie between the fences. -/
def OneClient (_ : Tree L) : Action L → Prop
  | .invoke c _ key => c = 0 ∧ kKeyMin ≤ key ∧ key < L.keyFull
  | _ => True

end Tree

/-- What holds in the runs of one client, with whatever its caches hold. -/
structure Lone (s : Tree L) (d : Directory) : Prop where
  good : TreeGood s d
  others : ∀ {c}, c ≠ 0 → s.clients c = none
  idle : s.clients 0 = none → Settled ⟨s.store, d⟩
  busy : ∀ {cl}, s.clients 0 = some cl → (∀ a, cl.pc ≠ .crashed a) →
    Locks ⟨s.store, d⟩ cl ∧ Accounted ⟨s.store, d⟩ cl.pc.owned

namespace Lone

open Chime.Tree

variable {s s' : Tree L} {d d' : Directory} {h es : List Event}

theorem init (L : Layout) : Lone (Tree.init L) rootDirectory where
  good := init_good L
  others _ := rfl
  idle _ := by
    obtain ⟨lf, lock, he, hm⟩ := init_store L
    refine ⟨fun m l a ha => ?_, fun m l a ha => .inr (.inl ?_)⟩
    · obtain ⟨-, -, rfl⟩ := rootDirectory_eq ha
      rw [hm]
      rfl
    · obtain ⟨rfl, rfl, -⟩ := rootDirectory_eq ha
      exact ⟨rfl, rfl⟩
  busy := nofun

/-- **An action** keeps this. -/
theorem step (hs : Lone s d) {a : Action L} (hv : OneClient s a) (hstep : TreeStep s d a s' d' es) : Lone s' d' := by
  have hgood : TreeGood s' d' := by
    refine hstep.good hs.good ?_
    cases a with
    | invoke c request key => exact hv.2
    | _ => trivial
  cases hstep with
  | @invoke c key request hc =>
    obtain rfl := hv.1
    obtain ⟨hunlocked, hacc⟩ := hs.idle hc
    have hself : Function.update s.clients 0 (some ⟨request, key, fun _ => .null, .start⟩) 0 = some _ :=
      Function.update_self ..
    refine ⟨hgood, fun hne => (Function.update_of_ne hne ..).trans (hs.others hne), fun hn => ?_, fun hcl _ => ?_⟩
    · cases hself.symm.trans hn
    · cases hself.symm.trans hcl
      exact ⟨fun m l a ha hlock => absurd hlock (by rw [hunlocked m l a ha]; nofun), hacc⟩
  | @move c ch cl cl' g' hc hm =>
    obtain rfl : c = 0 := by
      by_contra hne
      cases (hs.others hne).symm.trans hc
    have hself : Function.update s.clients 0 (some cl') 0 = some _ := Function.update_self ..
    have hok := hs.good.client hc
    -- a client that has crashed makes no step
    have hgoing : ∀ a, cl.pc ≠ .crashed a := by
      intro a ha
      rw [ha] at hm
      cases hm
    obtain ⟨hlocks, hacc⟩ := hs.busy hc hgoing
    refine ⟨hgood, fun hne => (Function.update_of_ne hne ..).trans (hs.others hne), fun hn => ?_, fun hcl hcrash => ?_⟩
    · cases hself.symm.trans hn
    · cases hself.symm.trans hcl
      exact ⟨hm.locks hok rfl hlocks hcrash, hm.accounted hs.good.shared hok rfl hacc hcrash⟩
  | @ret c v cl hc hpc =>
    obtain rfl : c = 0 := by
      by_contra hne
      cases (hs.others hne).symm.trans hc
    have hself : Function.update s.clients 0 none 0 = none := Function.update_self ..
    obtain ⟨hlocks, hacc⟩ := hs.busy hc fun a ha => by cases ha.symm.trans hpc
    refine ⟨hgood, fun hne => (Function.update_of_ne hne ..).trans (hs.others hne), fun _ => ⟨fun m l a ha => ?_, ?_⟩,
      fun hcl _ => ?_⟩
    · by_contra hlock
      have := hlocks m l a ha (by simpa using hlock)
      rw [hpc] at this
      cases this
    · rw [hpc] at hacc
      exact hacc
    · cases hself.symm.trans hcl

/-- **All runs** of one client. -/
theorem of_run (hrun : (machine L).Run OneClient s h) : ∃ d, Lone s d := by
  refine hrun.invariant (I := fun s _ => ∃ d, Lone s d) ⟨_, init L⟩ ?_
  rintro s h a s' es - ⟨d, hs⟩ hv hstep
  obtain ⟨d', hstep⟩ := Tree.step_cases hs.good hstep
  exact ⟨d', hs.step hv hstep⟩

end Lone
end Chime

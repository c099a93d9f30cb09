import Chime.KeyHistory

/-!
# Descents

A client that meets its invariant always has a next step (`Client.exists_step`). A `descent` is a search whose reads
are of states of a run, each at or after the one before. While a key is stored, a descent for it stands at nodes that
begin at or before the key, and each of its steps leads to a lower level or to the right (`Descends`, `Descends.step`);
so it comes to the leaf of the key, whatever splits are under way (`concurrent_reachability`).
-/

namespace Chime

open Boundary (Next Extends Below)
open Records

variable {L : Layout} {g : Charted L} {ch : Choice L} {cl : Client L}

/-! ## Clients have steps -/

theorem Held.points {d : Nat → Option Nat} {k : Nat} {p : GlobalAddress} (h3 : 3 ≤ L.internalSpanSize)
    (h : Held L d k p) : ∃ l ≤ k, Points d l p := h.resolve_right fun h => absurd h.2 (by omega)

theorem LeafPos.points {p : Position} (h3 : 3 ≤ L.internalSpanSize) (h : LeafPos g cl p) :
    ∃ l h', Points (g.dir 0) l p.nodeAddr ∧ Target L (g.dir 0) h' p.siblingAddr ∧ l < h' ∧ cl.key < h' ∧
      (∀ v, cl.request = .insert v → l ≤ cl.key) := h.resolve_left fun h => absurd h.2 (by omega)

section Arithmetic

variable [Arithmetic]

/-- A pointer leads to the node of one boundary. -/
theorem TreeOk.begins (hg : TreeOk g) {m l l' a : Nat} {p : GlobalAddress} (hp : Points (g.dir m) l p)
    (hpa : p = .at a) (hl : g.dir m l' = some a) : l = l' := by
  obtain ⟨b, hb, hpb⟩ := hp
  cases hpa.symm.trans hpb
  exact hg.inj_level m l l' a hb hl

omit [Arithmetic] in
/-- A computation that goes on, whatever its result is. -/
theorem attempt_eq {α : Type} {s : Store L} {x : Checked α} {f : α → Store L × Client L} :
    ∃ s' cl', some (cl.attempt s x f) = some (s', cl') := ⟨_, _, rfl⟩

/-- **A client has a next step**, unless it is done or has crashed. -/
theorem Client.exists_step (hg : TreeOk g) (h3 : 3 ≤ L.internalSpanSize) (hc : ClientOk g cl) (hch : ch.cache = none)
    (hdone : ∀ v, cl.pc ≠ .done v) (hcrash : ∀ a, cl.pc ≠ .crashed a) : ∃ s' cl', cl.step g.store ch = some
    (s', cl') := by
  obtain ⟨hk, hkf, hpc⟩ := hc
  unfold Client.step
  revert hpc hdone hcrash
  cases cl.pc with
  | start =>
    intro _ _ _
    simp only [stepStart, hch]
    exact attempt_eq
  | visit p =>
    rintro - - ⟨_, hv⟩
    simp only [stepVisit]
    split
    · exact ⟨_, _, rfl⟩
    · split
      · exact ⟨_, _, rfl⟩
      · obtain ⟨l, -, a, ha, hp⟩ := hv.node.points h3
        obtain ⟨nd, locked, hnd⟩ := hg.internalAt (by omega) ha
        simp only [hp, Store.read_at, hnd.mem]
        exact attempt_eq
  | leaf p =>
    rintro - - ⟨_, hpos⟩
    obtain ⟨l, -, ⟨a, ha, hp⟩, -⟩ := hpos.points h3
    obtain ⟨h, lf, lock, hm, -⟩ := hg.leaf ha
    simp only [stepLeaf, hp, Store.read_at, hm]
    split
    · exact attempt_eq
    · split <;> exact ⟨_, _, rfl⟩
  | leafLocked a p w =>
    rintro - - ⟨_, _, _, ⟨_, lf, hm, _⟩, hs⟩
    simp only [stepLeafLocked, hm]
    split
    · exact attempt_eq
    · exact attempt_eq
    · exact absurd ‹_› hs
  | leafUnlock a w next =>
    rintro - - ⟨_, ⟨_, lf, hm, _⟩, _⟩
    simp only [hm]
    exact ⟨_, _, rfl⟩
  | leafWrite a x =>
    rintro - - ⟨lf, _, hat, _⟩
    simp only [hat.mem]
    exact ⟨_, _, rfl⟩
  | rootCas level a r k sib =>
    intro _ _ _
    simp only
    split <;> exact ⟨_, _, rfl⟩
  | parent e =>
    intro _ _ _
    simp only [stepParent, hch]
    split <;> exact ⟨_, _, rfl⟩
  | insertInternal e level p =>
    rintro - - ⟨_, _, hlevel, hheld⟩
    simp only [stepInsertInternal]
    split
    · exact ⟨_, _, rfl⟩
    · split
      · exact ⟨_, _, rfl⟩
      · obtain ⟨l, -, a, ha, hp⟩ := hheld.points h3
        obtain ⟨nd, locked, hnd⟩ := hg.internalAt (by omega) ha
        simp only [hp, Store.read_at, hnd.mem]
        exact attempt_eq
  | internal e p fc =>
    rintro - - ⟨hs, _, hheld⟩
    obtain ⟨l, -, a, ha, hp⟩ := hheld.points h3
    obtain ⟨nd, locked, hnd⟩ := hg.internalAt hs.level_pos ha
    simp only [stepInternal, hp, Store.read_at, hnd.mem]
    split <;> exact ⟨_, _, rfl⟩
  | internalLocked e a fc =>
    rintro - - ⟨_, _, nd, hat⟩
    simp only [stepInternalLocked, hat.mem]
    exact attempt_eq
  | internalUnlock e a next =>
    rintro - - ⟨_, _, ⟨nd, hat⟩, _⟩
    simp only [hat.mem]
    exact ⟨_, _, rfl⟩
  | done v => exact fun h => absurd rfl (h v)
  | crashed a => exact fun _ h => absurd rfl (h a)
  | _ => exact fun _ _ _ => ⟨_, _, rfl⟩

/-! ## Where a descent stands -/

/-- The leaf that covers a stored key has it. -/
theorem LeafAt.hasKey {a l h k w : Nat} {lf : LeafNode L} {lock : Option (Valock L)} (hg : TreeOk g)
    (hat : LeafAt g a l h lf lock) (hl : l ≤ k) (hh : k < h) (hs : Contents g k w) : lf.records.HasKey k := by
  obtain ⟨l', lf', hl', hst⟩ := hs
  obtain ⟨h', hok'⟩ := hg.leaves_ok hl'
  have hkey := hasKey_iff.2 ⟨w, hst⟩
  obtain ⟨h1, h2⟩ := hok'.range k hkey
  obtain rfl : l = l' := by
    obtain ⟨a', ha', -⟩ := hl'
    exact hat.ok.next.disjoint hok'.next hat.linked ha' hl hh h1 h2
  exact TreeOk.leaves_unique hat.leaves hl' ▸ hkey

end Arithmetic

/-- A search with empty caches, at a node that begins at or before the key, with a rank: the level, and the distance to
the key. -/
inductive Descends (d : Directory) (k : Nat) : Nat × Nat → TreePc L → Prop
  | visit {p : Position} {l : Nat} : p.fromCache = false → Points (d (p.level - 1)) l p.nodeAddr → l ≤ k →
      Descends d k (p.level + 1, k - l) (.visit p)
  | leaf {p : Position} {l : Nat} : p.fromCache = false → Points (d 0) l p.nodeAddr → l ≤ k →
      Descends d k (1, k - l) (.leaf p)

/-- The order of the ranks. -/
def rankLt : Nat × Nat → Nat × Nat → Prop := Prod.Lex (· < ·) (· < ·)

theorem rankLt_wellFounded : WellFounded rankLt := WellFounded.prod_lex Nat.lt_wfRel.wf Nat.lt_wfRel.wf

/-- A search for `k` on its way. -/
structure Searches (g : Charted L) (k : Nat) (r : Nat × Nat) (cl : Client L) : Prop where
  key : cl.key = k
  request : cl.request = .search
  ok : ClientOk g cl
  descends : Descends g.dir k r cl.pc

section Descents

variable {g' : Charted L} {cl' : Client L} {k : Nat} {r : Nat × Nat}

theorem Descends.mono {d d' : Directory} {pc : TreePc L} (hd : d.Le d') (h : Descends d k r pc) :
    Descends d' k r pc := by
  cases h with
  | visit hc hp hl => exact .visit hc (hp.mono (hd _)) hl
  | leaf hc hp hl => exact .leaf hc (hp.mono (hd _)) hl

/-- A search stands where it stands in every later state. -/
theorem Searches.mono (h : Searches g k r cl) (hd : g.dir.Le g'.dir) : Searches g' k r cl := by
  obtain ⟨hkey, hreq, ⟨hk, hkf, hpc⟩, hdesc⟩ := h
  refine ⟨hkey, hreq, ⟨hk, hkf, ?_⟩, hdesc.mono hd⟩
  cases hcl : cl.pc with
  | visit p =>
    rw [hcl] at hpc
    exact ⟨hpc.1.mono hd, hpc.2.mono hd⟩
  | leaf p =>
    rw [hcl] at hpc
    exact ⟨hpc.1.mono hd, hpc.2.mono hd⟩
  | _ =>
    rw [hcl] at hdesc
    cases hdesc

/-- **A step of a descent** for a stored key: down, to the right, or to the end with its value. -/
theorem Searches.step (hs : Searches g k r cl) (hg : TreeOk g) (h3 : 3 ≤ L.internalSpanSize) (hk : ∃ w, Contents g k w)
    (hm : TreeMove g ch cl cl.pc g' cl') :
    (∃ r', rankLt r' r ∧ Searches g' k r' cl') ∧ g'.dir = g.dir ∨ ∃ v, cl'.pc = .done v ∧ Contents g k v := by
  obtain ⟨rfl, hreq, hc, hdesc⟩ := hs
  obtain ⟨w, hw⟩ := hk
  have hok : ClientOk g' cl' := (hm.change hg hc rfl).client
  have hop := hm.operation
  generalize hcl : cl.pc = pc at hm hdesc
  -- the position has one beginning
  have hbegin : ∀ {m l l' a : Nat} {q : GlobalAddress}, Points (g.dir m) l q → q = .at a → g.dir m l' = some a →
      l = l' := by
    rintro m l l' a q ⟨b, hb, rfl⟩ hq ha
    cases hq
    exact hg.inj_level m l l' a hb ha
  cases hdesc with
  | @visit p l hfc hp hl =>
    left
    cases hm with
    | atLeaf hlevel =>
      rw [hlevel] at hp
      exact ⟨⟨(1, cl.key - l), .left _ _ (by omega), hop.1, hop.2.trans hreq, hok, .leaf hfc hp hl⟩, rfl⟩
    | staleVisit hfc' => cases hfc.symm.trans hfc'
    | @visitRight _ a l' nd locked hlevel hpa hnd hhigh hpt =>
      obtain rfl := hbegin hp hpa hnd.linked
      have hlt := hnd.ok.next.lt
      exact ⟨⟨(p.level + 1, cl.key - nd.highest), .right _ (by omega), hop.1, hop.2.trans hreq, hok,
        .visit (p := ⟨p.level, nd.siblingPtr, p.siblingAddr, false⟩) rfl hpt hhigh⟩, rfl⟩
    | @down _ a l' nd locked hlevel hpa hnd hlow hhigh =>
      have hpc := hok.pc
      obtain ⟨b, hb, hpb⟩ := hpc.2.node.points h3
      have hnl := hnd.ok.level
      exact ⟨⟨(nd.level + 1, cl.key - b), .left _ _ (by omega), hop.1, hop.2.trans hreq, hok,
        .visit (p := ⟨nd.level, _, _, false⟩) rfl hpb hb⟩, rfl⟩
  | @leaf p l hfc hp hl =>
    cases hm with
    | @found _ a l' h v lf lock _ hpa hat hst => exact .inr ⟨v, rfl, _, lf, hat.leaves, hst⟩
    | absent _ hpa hat hno hh =>
      obtain rfl := hbegin hp hpa hat.linked
      exact absurd (hat.hasKey hg hl hh hw) hno
    | walk _ hpa hat hno ht hlt hkh hpt =>
      obtain rfl := hbegin hp hpa hat.linked
      have hlh := hat.ok.next.lt
      have hle : _ ≤ cl.key := not_lt.1 fun hh => hno (hat.hasKey hg hl hh hw)
      exact .inl ⟨⟨(1, cl.key - _), .right _ (by omega), hop.1, hop.2.trans hreq, hok, .leaf rfl hpt hle⟩, rfl⟩
    | staleLeaf hfc' => cases hfc.symm.trans hfc'
    | spinLeaf hs => exact absurd hreq hs
    | lockLeaf hs => exact absurd hreq hs

end Descents

/-! ## Descents in a run -/

namespace Tree

/-- A search for `k` whose `n`-th step is made on the state `σ n`. -/
def descent (σ : Nat → Tree L) (ch : Nat → Choice L) (k : Nat) : Nat → Client L
  | 0 => ⟨.search, k, fun _ => .null, .start⟩
  | n + 1 =>
    match (descent σ ch k n).step (σ n).store (ch n) with
    | some (_, cl) => cl
    | none => descent σ ch k n

end Tree

section Run

open Chime.Tree

variable {σ : Nat → Tree L} {h : Nat → List Event} {ch : Nat → Choice L} {k n : Nat} {d : Directory}

/-- What is known at the `n`-th step, with the rank of the search. -/
def Underway (σ : Nat → Tree L) (h : Nat → List Event) (cl : Nat → Client L) (k : Nat) (r : Nat × Nat) (n : Nat) :
    Prop :=
  ∃ d, TreeGood (σ n) d ∧ Tracked k (σ n) d (h n) ∧ Searches ⟨(σ n).store, d⟩ k r (cl n)

theorem descent_succ {s' : Store L} {cl' : Client L}
    (hs : (descent σ ch k n).step (σ n).store (ch n) = some (s', cl')) :
    descent σ ch k (n + 1) = cl' := by
  rw [descent, hs]

/-- The first step reads the root entry. -/
theorem descent_one (hch : (ch 0).cache = none) (hg : TreeOk ⟨(σ 0).store, d⟩) : descent σ ch k 1 =
    ⟨.search, k, fun _ => .null, .visit ⟨(σ 0).store.root.level, (σ 0).store.root.ptr, .null, false⟩⟩ := by
  have hpos : (σ 0).store.root.level ≠ 0 := by
    have := hg.root_pos
    simp only at this
    omega
  have hstep : (descent σ ch k 0).step (σ 0).store (ch 0) = some ((σ 0).store, (descent σ ch k 0).goto
      (.visit ⟨(σ 0).store.root.level, (σ 0).store.root.ptr, .null, false⟩)) := by
    simp only [descent, Client.step, Client.stepStart, hch, Checked.assert_of hpos, Client.attempt_ok]
  exact descent_succ hstep

/-- After the first step the search is under way. -/
theorem underway_one (hk : 1 ≤ k) (hkf : k < L.keyFull) (hch : (ch 0).cache = none) {g : Charted L}
    (hg : TreeOk ⟨(σ 0).store, d⟩) (hle : d.Le g.dir) : Searches g k ((σ 0).store.root.level + 1, k - 1)
    (descent σ ch k 1) := by
  have hpath : PathOk ⟨(σ 0).store, d⟩ (fun _ => .null) k 0 := fun _ _ hne => absurd rfl hne
  have hs : Searches ⟨(σ 0).store, d⟩ k ((σ 0).store.root.level + 1, k - 1) (descent σ ch k 1) := by
    rw [descent_one hch hg]
    exact ⟨rfl, rfl, ⟨hk, hkf, hpath, hg.root_pos, .inl ⟨1, hk, hg.root⟩, neighbor_null hkf⟩,
      .visit (p := ⟨_, _, _, false⟩) rfl hg.root hk⟩
  exact hs.mono hle

/-- **A step** of a descent that is under way. -/
theorem Underway.step (h3 : 3 ≤ L.internalSpanSize) (hk0 : k ≠ 0) (hoff : (ch n).cache = none)
    (hlater : (machine L).Steps ValidKeys (σ n) (h n) (σ (n + 1)) (h (n + 1))) (hwritten : ∃ c v, .write c k v ∈ h n)
    {r : Nat × Nat} (hu : Underway σ h (descent σ ch k) k r n) :
    (∃ v, (∀ w, (descent σ ch k n).pc ≠ .done w) ∧ (descent σ ch k (n + 1)).pc = .done v ∧
      (∃ c, .write c k v ∈ h n) ∧ (insertions k (h n) ≤ 1 → lastWrite k (h n) = some v)) ∨
    ∃ r', rankLt r' r ∧ Underway σ h (descent σ ch k) k r' (n + 1) := by
  obtain ⟨d, hg, ht, hs⟩ := hu
  have hgoing : (∀ w, (descent σ ch k n).pc ≠ .done w) ∧ ∀ a, (descent σ ch k n).pc ≠ .crashed a := by
    have hdesc := hs.descends
    constructor <;> intro _ he <;> rw [he] at hdesc <;> cases hdesc
  obtain ⟨s', cl', hstep⟩ := Client.exists_step hg.shared h3 hs.ok hoff hgoing.1 hgoing.2
  obtain ⟨d', hm⟩ := Client.step_moves hg.shared hs.ok hstep
  obtain ⟨w, hw⟩ := lastWrite_eq_some.2 hwritten
  have hnext : descent σ ch k (n + 1) = cl' := descent_succ hstep
  rcases hs.step hg.shared h3 (ht.found w hw) hm with ⟨⟨r', hr, hs'⟩, hdir⟩ | ⟨v, hv, hst⟩
  · obtain ⟨d₂, hle, hg₂, ht₂⟩ := tracked_steps hk0 hg ht hlater
    refine .inr ⟨r', hr, d₂, hg₂, ht₂, ?_⟩
    rw [hnext]
    exact hs'.mono (by rw [hdir]; exact hle)
  · exact .inl ⟨v, hgoing.1, hnext ▸ hv, ht.written v hst, fun h1 => ht.stored h1 v hst⟩

/-- **Reachability**: once the pair of a key has been written, every descent for the key, whose reads are of states of
the run in their order, ends with a value that has been written for the key, and with the last one if at most one
insert of the key has begun. -/
theorem concurrent_reachability (σ : Nat → Tree L) (h : Nat → List Event) (ch : Nat → Choice L)
    (h3 : 3 ≤ L.internalSpanSize) (hk : kKeyMin ≤ k) (hghost : k < L.ghostKey)
    (hrun : (machine L).Run ValidKeys (σ 0) (h 0))
    (hlater : ∀ i, (machine L).Steps ValidKeys (σ i) (h i) (σ (i + 1)) (h (i + 1))) (hoff : ∀ i, (ch i).cache = none)
    (hwritten : ∃ c v, .write c k v ∈ h 0) :
    ∃ n v, (∀ w, (descent σ ch k n).pc ≠ .done w) ∧ (descent σ ch k (n + 1)).pc = .done v ∧
      (∃ c, .write c k v ∈ h n) ∧ (insertions k (h n) ≤ 1 → lastWrite k (h n) = some v) := by
  rw [kKeyMin_eq] at hk
  have hk0 : k ≠ 0 := by omega
  have hkf : k < L.keyFull := by
    have := L.keySpace_ge
    simp only [Layout.ghostKey, Layout.keyFull] at *
    omega
  have hmem : ∀ i, ∃ c v, .write c k v ∈ h i := by
    intro i
    induction i with
    | zero => exact hwritten
    | succ i ih =>
      obtain ⟨c, v, hc⟩ := ih
      exact ⟨c, v, (hlater i).suffix.subset hc⟩
  obtain ⟨d, hg, ht⟩ := tracked hk0 hghost.ne hrun
  obtain ⟨d₁, hle, hg₁, ht₁⟩ := tracked_steps hk0 hg ht (hlater 0)
  obtain ⟨n, -, hn⟩ := Machine.exists_of_rank rankLt_wellFounded
    (fun r n hu => Underway.step h3 hk0 (hoff n) (hlater n) (hmem n) hu) _ 1
    ⟨d₁, hg₁, ht₁, underway_one hk hkf (hoff 0) hg.shared hle⟩
  exact ⟨n, hn⟩

/-- The root leaf has been split, and the root entry has not moved. -/
def splitInFlight : List (Action .small) :=
  completed _ 0 (.insert 11) 1 5 ++ completed _ 0 (.insert 15) 5 5 ++ operation _ 1 (.insert 19) 9 6

/-- In the middle of that split, the key 5 is found. -/
theorem concurrent_reachability_split : ∃ s h, (machine .small).Run ValidKeys s h ∧ (s.clients 1).isSome = true ∧
    ∃ n, (descent (fun _ => s) (fun _ => ⟨none, LeafNode.empty, none⟩) 5 (n + 1)).pc = .done 15 := by
  have hsome : (((machine .small).exec keysChecked (init _) [] splitInFlight).map fun y =>
      (lastWrite 5 y.2, insertions 5 y.2, (y.1.clients 1).isSome)) = some (some 15, 1, true) := by decide +kernel
  obtain ⟨⟨s, h⟩, hexec, heq⟩ := Option.map_eq_some_iff.1 hsome
  simp only [Prod.mk.injEq] at heq
  obtain ⟨hlast, hins, hclient⟩ := heq
  have hrun := run_of_exec hexec
  obtain ⟨n, v, -, hdone, -, hv⟩ := concurrent_reachability (fun _ => s) (fun _ => h)
    (fun _ => ⟨none, LeafNode.empty, none⟩) (by decide) (by decide) (by decide) hrun (fun _ => .refl) (fun _ => rfl)
    (lastWrite_eq_some.1 ⟨15, hlast⟩)
  obtain rfl := Option.some.inj (hlast.symm.trans (hv hins.le))
  exact ⟨s, h, hrun, hclient, n, hdone⟩

end Run
end Chime

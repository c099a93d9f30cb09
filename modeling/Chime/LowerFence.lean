import Chime.TreeRuns

/-!
# The lower fence assertion

`Client.reads` is the internal node that the next step of a client reads, with the key that the client carries. In every
run, with any caches and any number of clients, the key is not below the node's lowest fence (`lowest_le_of_reads`), so
no client fails `assert(k >= fence_keys.lowest)`.
-/

namespace Chime

variable {L : Layout}

/-- The internal node that the next step reads, and the key that is carried to it. -/
def Client.reads (s : Store L) (cl : Client L) : Option (InternalNode × Nat) :=
  match cl.pc with
  | .visit p =>
    match s.read p.nodeAddr with
    | .internal nd _ => some (nd, cl.key)
    | _ => none
  | .insertInternal e _ nodeAddr =>
    match s.read nodeAddr with
    | .internal nd _ => some (nd, e.key)
    | _ => none
  | .internalLocked e a _ =>
    match s.mem a with
    | .internal nd _ => some (nd, e.key)
    | _ => none
  | _ => none

/-- A pointer that may be followed leads to a node that begins at or before the key. -/
theorem Held.lowest_le {g : Charted L} (hg : TreeOk g) {m k : Nat} {p : GlobalAddress} (hp : Held L (g.dir m) k p)
    {nd : InternalNode} {locked : Bool} (hr : g.store.read p = .internal nd locked) : nd.lowest ≤ k := by
  rcases hp with ⟨l, hl, a, ha, rfl⟩ | ⟨rfl, -⟩
  · have hcell := hg.cells ha
    rw [Store.read_at] at hr
    rw [hr, CellOk.internal_iff] at hcell
    exact hcell.lowest ▸ hl
  · cases hr

theorem ClientOk.lowest_le {g : Charted L} {cl : Client L} (hg : TreeOk g) (hc : ClientOk g cl) {nd : InternalNode}
    {k : Nat} (hr : cl.reads g.store = some (nd, k)) : nd.lowest ≤ k := by
  obtain ⟨-, -, hpc⟩ := hc
  unfold Client.reads at hr
  revert hr hpc
  cases cl.pc with
  | visit p =>
    intro hr ⟨_, hv⟩
    simp only at hr
    split at hr
    · rename_i hread
      cases hr
      exact hv.node.lowest_le hg hread
    · cases hr
  | insertInternal e level p =>
    intro hr ⟨_, _, _, hp⟩
    simp only at hr
    split at hr
    · rename_i hread
      cases hr
      exact hp.lowest_le hg hread
    · cases hr
  | internalLocked e a fc =>
    intro hr ⟨_, _, nd', ⟨l, hl, ha⟩, hm⟩
    simp only [hm] at hr
    cases hr
    have hcell := hg.cells ha
    rw [hm, CellOk.internal_iff] at hcell
    exact hcell.lowest ▸ hl
  | _ => exact fun hr _ => by cases hr

/-- **The lower fence**: in every run, every internal node that a client reads starts at or before the key it carries,
and the assertion on the lower fence never fails. -/
theorem lowest_le_of_reads {s : Tree L} {h : List Tree.Event} (hrun : (Tree.machine L).Run Tree.ValidKeys s h) {c : Nat}
    {cl : Client L} (hc : s.clients c = some cl) :
    (∀ nd k, cl.reads s.store = some (nd, k) → nd.lowest ≤ k) ∧ cl.pc ≠ .crashed .fenceLowest := by
  obtain ⟨d, hg⟩ := tree_good hrun
  have hok := hg.client hc
  refine ⟨fun nd k hr => hok.lowest_le hg.shared hr, fun hpc => ?_⟩
  have htol := hok.pc
  rw [hpc] at htol
  cases htol

/-- Inserts that make the root grow, and a search that has read the root entry then. -/
def searchInternalRoot : List (Tree.Action .small) :=
  Tree.completed _ 0 (.insert 11) 1 5 ++ Tree.completed _ 0 (.insert 15) 5 5 ++ Tree.completed _ 0 (.insert 19) 9 8 ++
    Tree.operation _ 1 .search 13 1

/-- The search of that run is about to read an internal node. -/
theorem lowest_le_of_reads_root : ∃ s h cl nd, (Tree.machine .small).Run Tree.ValidKeys s h ∧ s.clients 1 = some cl ∧
    cl.reads s.store = some (nd, 13) ∧ nd.lowest ≤ 13 := by
  have hsome : (((Tree.machine .small).exec Tree.keysChecked (Tree.init _) [] searchInternalRoot).bind fun y =>
      (y.1.clients 1).bind fun cl => (cl.reads y.1.store).map fun z => z.2) = some 13 := by decide +kernel
  simp only [Option.bind_eq_some_iff, Option.map_eq_some_iff, Prod.exists] at hsome
  obtain ⟨s, h, hexec, cl, hcl, nd, k, hreads, rfl⟩ := hsome
  exact ⟨s, h, cl, nd, Tree.run_of_exec hexec, hcl, hreads,
    (lowest_le_of_reads (Tree.run_of_exec hexec) hcl).1 nd _ hreads⟩

end Chime

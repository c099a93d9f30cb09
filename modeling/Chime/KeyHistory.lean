import Chime.Contents

/-!
# The history of a key

Once a pair has been written, its key is in the leaves. While at most one insert of a key has begun, the leaves have
the key in one slot at most, and its value is the last one written. `Tracked` says so of one key, and with it what is
known of the client that inserts the key; the inserts of other keys may do what they like. `tracked` is for all runs.
-/

namespace Chime

open Records

variable {L : Layout}

namespace Tree

/-- An insert of the key begins. -/
def Event.inserts (k : Nat) : Event → Bool
  | .invoke _ (.insert _) key => key = k
  | _ => false

/-- The number of inserts of a key that have begun. -/
def insertions (k : Nat) (h : List Event) : Nat := h.countP (Event.inserts k)

/-- The value that was written last. -/
def lastWrite (k : Nat) : List Event → Option Nat
  | [] => none
  | .write _ key v :: h => if key = k then some v else lastWrite k h
  | _ :: h => lastWrite k h

theorem insertions_cons {k : Nat} {e : Event} {h : List Event} :
    insertions k (e :: h) = insertions k h + if e.inserts k then 1 else 0 := List.countP_cons

end Tree

/-- The pair is not written yet. -/
def TreePc.unwritten : TreePc L → Bool
  | .start | .visit _ | .leaf _ | .leafLocked .. | .leafUnlock .. | .leafWrite .. | .leafSplitSibling ..
  | .leafSplitWrite .. => true
  | _ => false

/-- The client inserts the key, and has not written it yet. -/
def Client.inserting (cl : Client L) (k : Nat) : Prop :=
  cl.key = k ∧ (∃ v, cl.request = .insert v) ∧ cl.pc.unwritten = true

/-! ## Clients -/

section Moves

variable [Arithmetic] {g g' : Charted L} {ch : Choice L} {cl cl' : Client L} {pc : TreePc L}

omit [Arithmetic] in
/-- After a split the pair is written. -/
theorem updateParent_written {isRoot : Bool} {level a k new : Nat} :
    (cl.updateParent isRoot level a k new).pc.unwritten = false ∧
      (cl.updateParent isRoot level a k new).writesLeaf = false ∧
      (cl.updateParent isRoot level a k new).key = cl.key ∧
      (cl.updateParent isRoot level a k new).request = cl.request := by
  cases isRoot <;> exact ⟨rfl, rfl, rfl, rfl⟩

/-- A step stays in its operation. -/
theorem TreeMove.operation (hm : TreeMove g ch cl pc g' cl') : cl'.key = cl.key ∧ cl'.request = cl.request := by
  cases hm with
  | splitLeaf | splitInternal => exact updateParent_written.2.2
  | _ => exact ⟨rfl, rfl⟩

omit [Arithmetic] in
theorem unwritten_afterLeaf {next : Option Position} : (TreePc.afterLeaf next : TreePc L).unwritten = true := by
  cases next <;> rfl

/-- A pair is written once. -/
theorem TreeMove.unwritten (hcl : cl.pc = pc) (hm : TreeMove g ch cl pc g' cl') (hu : cl'.pc.unwritten = true) :
    cl.pc.unwritten = true ∧ cl.writesLeaf = false := by
  rw [Client.writesLeaf]
  cases hm with
  | splitLeaf | splitInternal => cases updateParent_written.1.symm.trans hu
  | unlockInternal =>
    rename_i next _ _
    cases next <;> cases hu
  | spinInternal => rw [hcl] at hu; cases hu
  | writeLeaf | newRoot | growRoot | parentPath | parentCache | parentNull | parentRoot | readRoot | noTarget | atTarget
  | targetRight | targetDown | lockInternal | staleInternal | internalRight | toInternalWrite | toInternalSplit
  | writeInternal | writeInternalSibling => cases hu
  | _ => rw [hcl]; exact ⟨rfl, rfl⟩

omit [Arithmetic] in
theorem unwritten_of_writesLeaf (hw : cl.writesLeaf = true) : cl.pc.unwritten = true := by
  revert hw
  rw [Client.writesLeaf]
  cases cl.pc <;> intro hw <;> first | rfl | cases hw

theorem TreeMove.inserting (hcl : cl.pc = pc) (hm : TreeMove g ch cl pc g' cl') {k : Nat} (hi : cl'.inserting k) :
    cl.inserting k ∧ cl.writesLeaf = false := by
  obtain ⟨hk, ⟨v, hv⟩, hu⟩ := hi
  obtain ⟨hkey, hreq⟩ := hm.operation
  obtain ⟨hu', hw⟩ := hm.unwritten hcl hu
  exact ⟨⟨hkey ▸ hk, ⟨v, hreq ▸ hv⟩, hu'⟩, hw⟩

/-- A client that writes a leaf does not search. -/
def Client.WritesPair (cl : Client L) : Prop := cl.writesLeaf = true → cl.request ≠ .search

theorem TreeMove.writesPair (hc : ClientOk g cl) (hcl : cl.pc = pc) (hw : cl.WritesPair)
    (hm : TreeMove g ch cl pc g' cl') : cl'.WritesPair := by
  obtain ⟨-, -, hpc⟩ := hc
  rw [hcl] at hpc
  cases hm with
  | toWrite =>
    obtain ⟨-, -, -, -, hs⟩ := hpc
    exact fun _ => hs
  | writeLeafSibling =>
    obtain ⟨-, -, ⟨v, hv⟩, -⟩ := hpc
    exact fun _ => by rw [Client.goto_request, hv]; nofun
  | splitLeaf | splitInternal => exact fun h => by cases updateParent_written.2.1.symm.trans h
  | unlockLeaf | unlockInternal =>
    rename_i next _ _
    intro h
    cases next <;> cases h
  | spinLeaf | spinInternal => exact hw
  | _ => intro h; cases h

end Moves

/-! ## One key -/

section Track

open Chime.Tree

variable {s s' : Tree L} {d d' : Directory} {h es : List Event} {k : Nat}

/-- What the history says about a key. -/
structure Tracked (k : Nat) (s : Tree L) (d : Directory) (h : List Event) : Prop where
  fresh : insertions k h = 0 → ∀ w, ¬Contents ⟨s.store, d⟩ k w
  pending : ∀ {c cl}, s.clients c = some cl → cl.inserting k → 1 ≤ insertions k h
  absent : insertions k h ≤ 1 → ∀ {c cl}, s.clients c = some cl → cl.inserting k → ∀ w, ¬Contents ⟨s.store, d⟩ k w
  alone : insertions k h ≤ 1 → ∀ {c c' cl cl'}, s.clients c = some cl → s.clients c' = some cl' → cl.inserting k →
    cl'.inserting k → c = c'
  once : insertions k h ≤ 1 → OnceEach ⟨s.store, d⟩ k
  stored : insertions k h ≤ 1 → ∀ w, Contents ⟨s.store, d⟩ k w → lastWrite k h = some w
  written : ∀ w, Contents ⟨s.store, d⟩ k w → ∃ c, .write c k w ∈ h
  found : ∀ w, lastWrite k h = some w → ∃ w', Contents ⟨s.store, d⟩ k w'
  writes : ∀ {c cl}, s.clients c = some cl → cl.WritesPair

namespace Tracked

variable [Arithmetic]

/-- The initial leaf has the ghost key only. -/
theorem init (hk : k ≠ L.ghostKey) (hk0 : k ≠ 0) : Tracked k (Tree.init L) rootDirectory [] := by
  obtain ⟨lf, lock, he, -, -, hd, hghost⟩ := rootLeaf_ok L
  obtain ⟨lf', lock', he', hm⟩ := init_store L
  cases he.symm.trans he'
  have hleaf : ∀ l lf', Leaves ⟨(Tree.init L).store, rootDirectory⟩ l lf' → lf' = lf := by
    rintro l lf' ⟨a, ha, hlf⟩
    obtain ⟨-, -, rfl⟩ := rootDirectory_eq ha
    rw [hm] at hlf
    exact (Option.some.inj hlf).symm
  have hno : ∀ w, ¬Contents ⟨(Tree.init L).store, rootDirectory⟩ k w := by
    rintro w ⟨l, lf', hl, hs⟩
    rw [hleaf l lf' hl] at hs
    exact hk (hghost k w hs)
  exact ⟨fun _ => hno, nofun, fun _ => nofun, fun _ => nofun,
    fun _ l lf' hl => hleaf l lf' hl ▸ Records.distinct_iff.1 hd k hk0, fun _ w hw => absurd hw (hno w),
      fun w hw => absurd hw (hno w),
    nofun, nofun⟩

omit [Arithmetic] in
/-- The state of the leaves stays, and no client begins to insert the key. -/
theorem congr (ht : Tracked k s d h) (es : List Event) (hleaves : SameLeaves ⟨s.store, d⟩ ⟨s'.store, d'⟩)
    (hins : insertions k (es ++ h) = insertions k h) (hlast : lastWrite k (es ++ h) = lastWrite k h)
    (hback : ∀ c cl, s'.clients c = some cl → cl.inserting k → ∃ cl₀, s.clients c = some cl₀ ∧ cl₀.inserting k)
    (hw : ∀ {c cl}, s'.clients c = some cl → cl.WritesPair) : Tracked k s' d' (es ++ h) := by
  have hcont : ∀ w, Contents ⟨s'.store, d'⟩ k w ↔ Contents ⟨s.store, d⟩ k w := fun w => by
    simp only [Contents, hleaves _ _]
  constructor
  · intro h0 w
    rw [hcont]
    exact ht.fresh (hins ▸ h0) w
  · intro c cl hc hi
    obtain ⟨cl₀, hc₀, hi₀⟩ := hback c cl hc hi
    rw [hins]
    exact ht.pending hc₀ hi₀
  · intro h1 c cl hc hi w
    obtain ⟨cl₀, hc₀, hi₀⟩ := hback c cl hc hi
    rw [hcont]
    exact ht.absent (hins ▸ h1) hc₀ hi₀ w
  · intro h1 c c' cl cl' hc hc' hi hi'
    obtain ⟨cl₀, hc₀, hi₀⟩ := hback c cl hc hi
    obtain ⟨cl₁, hc₁, hi₁⟩ := hback c' cl' hc' hi'
    exact ht.alone (hins ▸ h1) hc₀ hc₁ hi₀ hi₁
  · exact fun h1 l lf hl => ht.once (hins ▸ h1) l lf ((hleaves l lf).1 hl)
  · intro h1 w hw
    rw [hlast]
    exact ht.stored (hins ▸ h1) w ((hcont w).1 hw)
  · intro w hw
    obtain ⟨c, hc⟩ := ht.written w ((hcont w).1 hw)
    exact ⟨c, List.mem_append_right _ hc⟩
  · intro w hw
    obtain ⟨w', hw'⟩ := ht.found w (hlast ▸ hw)
    exact ⟨w', (hcont w').2 hw'⟩
  · exact hw

omit [Arithmetic] in
theorem invoke (ht : Tracked k s d h) {c key : Nat} {request : Request} :
    Tracked k { s with clients := Function.update s.clients c (some ⟨request, key, fun _ => .null, .start⟩) } d
      ([.invoke c request key] ++ h) := by
  have hw : ∀ {c' cl}, Function.update s.clients c (some ⟨request, key, fun _ => .null, .start⟩) c' = some cl →
      cl.WritesPair := by
    intro c' cl hcl
    rcases update_eq_some hcl with ⟨-, hcl⟩ | ⟨-, hcl⟩
    · cases hcl
      nofun
    · exact ht.writes hcl
  by_cases hi : (⟨request, key, fun _ => .null, .start⟩ : Client L).inserting k
  · -- the first insert of the key begins, or one more
    obtain ⟨hk, ⟨v, hv⟩, -⟩ := hi
    simp only at hk hv
    subst hk hv
    have hins : insertions key ([.invoke c (.insert v) key] ++ h) = insertions key h + 1 := by
      rw [List.singleton_append, insertions_cons]
      simp [Event.inserts]
    have hzero : insertions key ([.invoke c (.insert v) key] ++ h) ≤ 1 → insertions key h = 0 := by omega
    have hother : ∀ {c' cl}, insertions key h = 0 →
        Function.update s.clients c (some ⟨.insert v, key, fun _ => .null, .start⟩) c' = some cl → cl.inserting key →
        c' = c := by
      intro c' cl h0 hcl hi
      rcases update_eq_some hcl with ⟨hcc, -⟩ | ⟨-, hcl⟩
      · exact hcc
      · have := ht.pending hcl hi
        omega
    exact ⟨fun h0 => absurd h0 (by omega), fun _ _ => by omega, fun h1 _ _ _ _ => ht.fresh (hzero h1),
      fun h1 _ _ _ _ hc hc' hi hi' => (hother (hzero h1) hc hi).trans (hother (hzero h1) hc' hi').symm,
      fun h1 => ht.once (by have := hzero h1; omega), fun h1 w hw => absurd hw (ht.fresh (hzero h1) w),
      fun w hw => (ht.written w hw).imp fun _ hc => List.mem_cons_of_mem _ hc, fun w hw => ht.found w hw, hw⟩
  · refine ht.congr _ (fun _ _ => .rfl) ?_ rfl (fun c' cl hcl hicl => ?_) hw
    · rw [List.singleton_append, insertions_cons, if_neg, Nat.add_zero]
      intro he
      cases request with
      | insert v =>
        simp only [Event.inserts, decide_eq_true_eq] at he
        exact hi ⟨he, ⟨v, rfl⟩, rfl⟩
      | _ => cases he
    · rcases update_eq_some hcl with ⟨-, hcl⟩ | ⟨-, hcl⟩
      · cases hcl
        exact absurd hicl hi
      · exact ⟨cl, hcl, hicl⟩

omit [Arithmetic] in
theorem ret (ht : Tracked k s d h) {c v : Nat} {cl : Client L} :
    Tracked k { s with clients := Function.update s.clients c none } d ([.ret c cl.request cl.key v] ++ h) := by
  have hold : ∀ {c' cl}, Function.update s.clients c none c' = some cl → s.clients c' = some cl := by
    intro c' cl hcl
    rcases update_eq_some hcl with ⟨-, hcl⟩ | ⟨-, hcl⟩
    · cases hcl
    · exact hcl
  refine ht.congr _ (fun _ _ => .rfl) ?_ rfl (fun c' cl hcl hi => ⟨cl, hold hcl, hi⟩) fun hcl => ht.writes (hold hcl)
  rw [List.singleton_append, insertions_cons]
  rfl

/-- **A step** of a client. -/
theorem move (ht : Tracked k s d h) (hg : TreeGood s d) {c : Nat} {ch : Choice L} {cl cl' : Client L} {g' : Charted L}
    (hg' : TreeOk g') (hk : k ≠ 0) (hc : s.clients c = some cl) (hm : TreeMove ⟨s.store, d⟩ ch cl cl.pc g' cl') :
    Tracked k ⟨g'.store, Function.update s.clients c (some cl')⟩ g'.dir
      ((if cl.writesLeaf then [.write c cl.key cl.request.value] else []) ++ h) := by
  have hwrites : ∀ {c' cl₁}, Function.update s.clients c (some cl') c' = some cl₁ → cl₁.WritesPair := by
    intro c' cl₁ hcl
    rcases update_eq_some hcl with ⟨-, hcl⟩ | ⟨-, hcl⟩
    · cases hcl
      exact hm.writesPair (hg.client hc) rfl (ht.writes hc)
    · exact ht.writes hcl
  cases hm.leaves hg.shared (hg.client hc) rfl with
  | same hw hsame =>
    rw [hw]
    refine ht.congr [] hsame rfl rfl (fun c' cl₁ hcl hi => ?_) hwrites
    rcases update_eq_some hcl with ⟨rfl, heq⟩ | ⟨-, hcl⟩
    · cases heq
      exact ⟨cl, hc, (hm.inserting rfl hi).1⟩
    · exact ⟨cl₁, hcl, hi⟩
  | puts hw hputs =>
    rw [hw, if_pos rfl, List.singleton_append]
    have hins : insertions k (.write c cl.key cl.request.value :: h) = insertions k h := by
      rw [insertions_cons]
      rfl
    have hlast : lastWrite k (.write c cl.key cl.request.value :: h) =
        if cl.key = k then some cl.request.value else lastWrite k h := rfl
    -- a client that still inserts the key is another one
    have hback : ∀ {c' cl₁}, Function.update s.clients c (some cl') c' = some cl₁ → cl₁.inserting k →
        c' ≠ c ∧ s.clients c' = some cl₁ := by
      intro c' cl₁ hcl hi
      rcases update_eq_some hcl with ⟨-, hcl⟩ | ⟨hne, hcl⟩
      · cases hcl
        cases hw.symm.trans (hm.inserting rfl hi).2
      · exact ⟨hne, hcl⟩
    -- an insert of the key is that of the client
    have hinsert : cl.key = k → (¬∃ v, cl.request = .update v) → cl.inserting k := by
      intro hkey hup
      refine ⟨hkey, ?_, ?_⟩
      · cases hr : cl.request with
        | insert v => exact ⟨v, rfl⟩
        | update v => exact absurd ⟨v, hr⟩ hup
        | search => exact absurd hr (ht.writes hc hw)
      · exact unwritten_of_writesLeaf hw
    have honce : insertions k h ≤ 1 → OnceEach g' k := fun h1 =>
      hputs.once k hk (ht.once h1) fun hkey hup => ht.absent h1 hc (hinsert hkey.symm hup)
    refine ⟨fun h0 w hw => ?_, fun hcl hi => ?_, fun h1 c' cl₁ hcl hi w hw => ?_, fun h1 _ _ _ _ hcl hcl' hi hi' => ?_,
      fun h1 => honce (hins ▸ h1), fun h1 w hw => ?_, fun w hw => ?_, fun w hw => ?_, hwrites⟩
    · rw [hins] at h0
      rcases hputs.stored k w hw with hw | ⟨hkey, -⟩
      · exact ht.fresh h0 w hw
      · by_cases hup : ∃ v, cl.request = .update v
        · obtain ⟨w', hw'⟩ := hputs.old hup
          exact ht.fresh h0 w' (hkey ▸ hw')
        · have := ht.pending hc (hinsert hkey.symm hup)
          omega
    · rw [hins]
      exact ht.pending (hback hcl hi).2 hi
    · rw [hins] at h1
      obtain ⟨hne, hcl⟩ := hback hcl hi
      rcases hputs.stored k w hw with hw | ⟨hkey, -⟩
      · exact ht.absent h1 hcl hi w hw
      · by_cases hup : ∃ v, cl.request = .update v
        · obtain ⟨w', hw'⟩ := hputs.old hup
          exact ht.absent h1 hcl hi w' (hkey ▸ hw')
        · exact hne (ht.alone h1 hcl hc hi (hinsert hkey.symm hup))
    · exact ht.alone (hins ▸ h1) (hback hcl hi).2 (hback hcl' hi').2 hi hi'
    · rw [hins] at h1
      rw [hlast]
      split
      · rename_i hkey
        exact congrArg some (hg'.contents_unique (honce h1) (hkey ▸ hputs.self) hw)
      · rename_i hkey
        exact ht.stored h1 w ((hputs.stored k w hw).resolve_right fun h => hkey h.1.symm)
    · rcases hputs.stored k w hw with hw | ⟨rfl, rfl⟩
      · exact (ht.written w hw).imp fun _ hc => List.mem_cons_of_mem _ hc
      · exact ⟨c, List.mem_cons_self⟩
    · rw [hlast] at hw
      split at hw
      · rename_i hkey
        exact ⟨_, hkey ▸ hputs.self⟩
      · rename_i hkey
        obtain ⟨w', hw'⟩ := ht.found w hw
        exact ⟨w', hputs.kept k w' (Ne.symm hkey) hw'⟩

theorem step (ht : Tracked k s d h) (hg : TreeGood s d) (hk : k ≠ 0) {a : Action L} (hv : ValidKeys s a)
    (hs : TreeStep s d a s' d' es) : Tracked k s' d' (es ++ h) := by
  have hg' := (hs.good hg hv).shared
  cases hs with
  | invoke _ => exact ht.invoke
  | move hc hm => exact ht.move hg hg' hk hc hm
  | ret _ _ => exact ht.ret

end Tracked

/-- The invariants of a run hold on, and the directory grows. -/
theorem tracked_steps (hk0 : k ≠ 0) (hg : TreeGood s d) (ht : Tracked k s d h) {h' : List Event}
    (hs : (machine L).Steps ValidKeys s h s' h') : ∃ d', d.Le d' ∧ TreeGood s' d' ∧ Tracked k s' d' h' := by
  induction hs with
  | refl => exact ⟨d, .refl d, hg, ht⟩
  | step a _ hv he ih =>
    obtain ⟨d₁, hle, hg₁, ht₁⟩ := ih
    obtain ⟨d₂, hs⟩ := Tree.step_cases hg₁ he
    exact ⟨d₂, hle.trans (hs.le hg₁), hs.good hg₁ hv, ht₁.step hg₁ hk0 hv hs⟩

/-- A key has been written if it has a last value. -/
theorem lastWrite_eq_some : (∃ w, lastWrite k h = some w) ↔ ∃ c v, .write c k v ∈ h := by
  induction h with
  | nil => simp [lastWrite]
  | cons e h ih =>
    cases e with
    | write c key v =>
      by_cases hkey : key = k
      · subst hkey
        simp only [lastWrite, if_true, Option.some.injEq, exists_eq']
        exact ⟨fun _ => ⟨c, v, List.mem_cons_self⟩, fun _ => trivial⟩
      · simp only [lastWrite, if_neg hkey, ih, List.mem_cons, Event.write.injEq, Ne.symm hkey, false_and, and_false,
          false_or]
    | _ => simp only [lastWrite, ih, List.mem_cons, reduceCtorEq, false_or]

/-- **The history of a key**, in all runs. -/
theorem tracked (hk0 : k ≠ 0) (hk : k ≠ L.ghostKey) (hrun : (machine L).Run ValidKeys s h) :
    ∃ d, TreeGood s d ∧ Tracked k s d h :=
  let ⟨d, _, hg, ht⟩ := tracked_steps hk0 (init_good L) (.init hk hk0) hrun.from_init
  ⟨d, hg, ht⟩

end Track
end Chime

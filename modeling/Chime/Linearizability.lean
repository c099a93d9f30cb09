import Chime.Lib.Linearizability
import Chime.Reachability

/-!
# The tree is a linearizable map

The calls of `insert`, `update` and `search`, by any number of clients, in any order of their steps, with splits under
way and with caches that find any node they have ever held. An insert or an update takes effect at the write of its
leaf. A search takes effect at the read of the leaf that has its key; a search without a result does at the read of the
leaf that covers its key, which need not be its last one: it may go on to the right of it. So the machine of the tree is
followed step by step by the machine of a map with atomic calls (`tree_linearizable`).
-/

namespace Chime

open Records SeqObject

variable {L : Layout} {g g' : Charted L} {ch : Choice L} {cl cl' : Client L} {pc : TreePc L}

/-- The map that the tree stands for. An update of a key that is not there does not return. -/
def keyMap : SeqObject (Nat → Option Nat) (Request × Nat) Nat where
  init := fun _ => none
  apply op m :=
    match op.1 with
    | .insert v => some (Function.update m op.2 (some v), kValueNull)
    | .update v => if m op.2 = none then none else some (Function.update m op.2 (some v), kValueNull)
    | .search => some (m, (m op.2).getD kValueNull)

namespace Tree

/-- The calls among the events of the tree. -/
def Event.call : Event → Option (Call (Request × Nat) Nat)
  | .invoke c request key => some (.invoke c (request, key))
  | .write .. => none
  | .ret c request key v => some (.ret c (request, key) v)

/-- No key is inserted twice. -/
def InsertsOnce (h : List Event) : Prop := ∀ k, insertions k h ≤ 1

/-- The keys are below the ghost key. -/
def UserKeys (_ : Tree L) : Action L → Prop
  | .invoke _ _ key => kKeyMin ≤ key ∧ key < L.ghostKey
  | _ => True

theorem UserKeys.valid {s : Tree L} {a : Action L} (h : UserKeys s a) : ValidKeys s a := by
  cases a with
  | invoke c request key =>
    have hghost := L.keySpace_ge
    refine ⟨h.1, Nat.lt_trans h.2 ?_⟩
    simp only [Layout.ghostKey, Layout.keyFull]
    omega
  | _ => trivial

theorem InsertsOnce.suffix {es h : List Event} (ho : InsertsOnce (es ++ h)) : InsertsOnce h := fun k =>
  le_trans (by simp only [insertions, List.countP_append]; omega) (ho k)

end Tree

/-! ## Before and after the point of a call -/

/-- Where a search can stand before it takes effect. -/
def TreePc.Searching (d : Directory) (k : Nat) : TreePc L → Prop
  | .start | .visit _ => True
  | .leaf p => ∃ l ≤ k, Points (d 0) l p.nodeAddr
  | _ => False

/-- What the place of a client says about its call. -/
inductive PhaseOk (d : Directory) (request : Request) (k : Nat) : TreePc L → Phase (Request × Nat) Nat → Prop
  | pending {pc : TreePc L} : pc.unwritten = true → (request = .search → pc.Searching d k) →
      PhaseOk d request k pc (.pending (request, k))
  /-- the search has read the leaf that covers its key, and is on its way to the right -/
  | passed {p : Position} {l : Nat} : request = .search → p.fromCache = false → Points (d 0) l p.nodeAddr → k < l →
      PhaseOk d request k (.leaf p) (.taken (request, k) kValueNull)
  | written {pc : TreePc L} : request ≠ .search → pc.unwritten = false → (∀ v, pc ≠ .done v) →
      PhaseOk d request k pc (.taken (request, k) kValueNull)
  | done {v : Nat} : PhaseOk d request k (.done v) (.taken (request, k) v)
  | crashed {b : Assertion} {phase : Phase (Request × Nat) Nat} : PhaseOk d request k (.crashed b) phase

section Phases

variable {d d' : Directory} {request : Request} {k : Nat} {phase : Phase (Request × Nat) Nat}

theorem TreePc.Searching.mono (hd : d.Le d') (h : pc.Searching d k) : pc.Searching d' k := by
  cases pc with
  | leaf p => exact h.imp fun l hl => ⟨hl.1, hl.2.mono (hd 0)⟩
  | start | visit => trivial
  | _ => exact h

theorem PhaseOk.mono (hd : d.Le d') (h : PhaseOk d request k pc phase) : PhaseOk d' request k pc phase := by
  cases h with
  | pending hu hs => exact .pending hu fun hr => (hs hr).mono hd
  | passed hr hfc hp hl => exact .passed hr hfc (hp.mono (hd 0)) hl
  | written hr hu hd => exact .written hr hu hd
  | done => exact .done
  | crashed => exact .crashed

/-- Another request than a search that has not written yet. -/
theorem PhaseOk.ofUnwritten (hr : request ≠ .search) (hu : pc.unwritten = true) :
    PhaseOk d request k pc (.pending (request, k)) := .pending hu fun h => absurd h hr

/-- After a split. -/
theorem PhaseOk.updateParent {isRoot : Bool} {level a key new : Nat} (hr : request ≠ .search) :
    PhaseOk d request k (cl.updateParent isRoot level a key new).pc (.taken (request, k) kValueNull) := by
  cases isRoot <;> exact .written hr rfl nofun

/-- **A step of a search** that has not taken effect: it stays so, or takes effect with what is stored now. -/
theorem TreeMove.search_pending (hg : TreeOk g) (h3 : 3 ≤ L.internalSpanSize) (hc : ClientOk g cl) (hcl : cl.pc = pc)
    (hm : TreeMove g ch cl pc g' cl') (hr : cl.request = .search) (hs : pc.Searching g.dir cl.key) :
    PhaseOk g'.dir cl.request cl.key cl'.pc (.pending (cl.request, cl.key)) ∨
    ∃ v, PhaseOk g'.dir cl.request cl.key cl'.pc (.taken (cl.request, cl.key) v) ∧
      (Contents g cl.key v ∨ (v = kValueNull ∧ ∀ w, ¬Contents g cl.key w)) := by
  obtain ⟨-, -, hpc⟩ := hc
  rw [hcl] at hpc
  cases hm with
  | fromRoot | fromCache | staleVisit | visitRight | down | staleLeaf => exact .inl (.pending rfl fun _ => trivial)
  | atLeaf hlevel =>
    obtain ⟨-, hv⟩ := hpc
    obtain ⟨l, hl, hp⟩ := hv.node.points h3
    rw [hlevel] at hp
    exact .inl (.pending rfl fun _ => ⟨l, hl, hp⟩)
  | found _ _ hat hst => exact .inr ⟨_, .done, .inl ⟨_, _, hat.leaves, hst⟩⟩
  | absent _ hpa hat hno hh =>
    obtain ⟨l, hl, hp⟩ := hs
    obtain rfl := hg.begins hp hpa hat.linked
    exact .inr ⟨_, .done, .inr ⟨rfl, fun w hw => hno (hat.hasKey hg hl hh hw)⟩⟩
  | @walk _ a l h h' lf lock sib _ hpa hat hno _ _ _ hpt =>
    obtain ⟨l', hl, hp⟩ := hs
    obtain rfl := hg.begins hp hpa hat.linked
    by_cases hh : cl.key < h
    · exact .inr ⟨_, .passed (p := ⟨1, sib, _, false⟩) hr rfl hpt hh,
        .inr ⟨rfl, fun w hw => hno (hat.hasKey hg hl hh hw)⟩⟩
    · exact .inl (.pending rfl fun _ => ⟨h, not_lt.1 hh, hpt⟩)
  | spinLeaf hreq => exact absurd hr hreq
  | lockLeaf hreq => exact absurd hr hreq
  | _ => exact hs.elim

/-- A step of a search past its key: the search goes on, and finds nothing. -/
theorem TreeMove.search_passed (hg : TreeOk g) {p : Position} {l : Nat} (hm : TreeMove g ch cl (.leaf p) g' cl')
    (hr : cl.request = .search) (hfc : p.fromCache = false) (hp : Points (g.dir 0) l p.nodeAddr) (hl : cl.key < l) :
    PhaseOk g'.dir cl.request cl.key cl'.pc (.taken (cl.request, cl.key) kValueNull) := by
  cases hm with
  | found _ hpa hat hst =>
    obtain rfl := hg.begins hp hpa hat.linked
    exact absurd (hat.ok.range _ (hasKey_iff.2 ⟨_, hst⟩)).1 (not_le.2 hl)
  | absent => exact .done
  | walk _ hpa hat _ _ _ _ hpt =>
    obtain rfl := hg.begins hp hpa hat.linked
    exact .passed (p := ⟨1, _, _, false⟩) hr rfl hpt (hl.trans hat.ok.next.lt)
  | staleLeaf hfc' => cases hfc.symm.trans hfc'
  | spinLeaf hreq => exact absurd hr hreq
  | lockLeaf hreq => exact absurd hr hreq

/-- **A step of an insert or update** that does not write a leaf: it takes no effect. -/
theorem TreeMove.writer_phase (hcl : cl.pc = pc) (hm : TreeMove g ch cl pc g' cl') (hr : cl.request ≠ .search)
    (hw : cl.writesLeaf = false) (hp : PhaseOk g.dir cl.request cl.key pc phase) :
    PhaseOk g'.dir cl.request cl.key cl'.pc phase := by
  cases hp with
  | pending hu =>
    cases hm with
    | found hreq => exact absurd hreq hr
    | absent hreq => exact absurd hreq hr
    | walk hreq => exact absurd hreq hr
    | stuck | keyMissing => exact .crashed
    | unlockLeaf => exact .ofUnwritten hr unwritten_afterLeaf
    | spinLeaf => exact .ofUnwritten hr (hcl ▸ rfl)
    | writeLeaf | splitLeaf =>
      rw [Client.writesLeaf, hcl] at hw
      cases hw
    | fromRoot | fromCache | atLeaf | staleVisit | visitRight | down | staleLeaf | lockLeaf | staleLocked | insertRight
    | updateRight | toWrite | toSplit | writeLeafSibling => exact .ofUnwritten hr rfl
    | _ => cases hu
  | passed hreq => exact absurd hreq hr
  | written _ hu =>
    cases hm with
    | growRoot | writeInternal => exact .done
    | splitInternal => exact .updateParent hr
    | @unlockInternal _ _ next =>
      cases next <;> exact .written hr rfl fun _ h => by cases h
    | spinInternal => exact .written hr (by rw [hcl]; rfl) (fun _ h => by cases hcl.symm.trans h)
    | parentNull | noTarget => exact .crashed
    | newRoot | parentPath | parentCache | parentRoot | readRoot | atTarget | targetRight | targetDown | lockInternal
    | staleInternal | internalRight | toInternalWrite | toInternalSplit | writeInternalSibling =>
      exact .written hr rfl fun _ h => by cases h
    | _ => cases hu
  | done | crashed => cases hm

end Phases

/-! ## The simulation -/

/-- The map holds what the leaves store, and the calls are where the clients are. -/
structure Simulates (g : Charted L) (clients : Nat → Option (Client L))
    (a : SeqObject.State (Nat → Option Nat) (Request × Nat) Nat) : Prop where
  value : ∀ k v, 1 ≤ k → k < L.ghostKey → (a.value k = some v ↔ Contents g k v)
  idle : ∀ {c}, clients c = none → a.calls c = none
  busy : ∀ {c cl}, clients c = some cl → cl.key < L.ghostKey ∧
    ∃ phase, a.calls c = some phase ∧ PhaseOk g.dir cl.request cl.key cl.pc phase

section Simulation

open Chime.Tree

variable {clients : Nat → Option (Client L)} {a : SeqObject.State (Nat → Option Nat) (Request × Nat) Nat} {c : Nat}
  {phase : Phase (Request × Nat) Nat}

/-- A client changes, and its call. -/
theorem Simulates.update (h : Simulates g clients a) (hd : g.dir.Le g'.dir) {v : Nat → Option Nat}
    (hv : ∀ k w, 1 ≤ k → k < L.ghostKey → (v k = some w ↔ Contents g' k w)) (hk : cl'.key < L.ghostKey)
    (hp : PhaseOk g'.dir cl'.request cl'.key cl'.pc phase) :
    Simulates g' (Function.update clients c (some cl')) (a.set v c (some phase)) where
  value := hv
  idle {c'} hc' := by
    rcases eq_or_ne c' c with rfl | hcc
    · rw [Function.update_self] at hc'
      cases hc'
    · rw [Function.update_of_ne hcc] at hc'
      rw [a.set_of_ne v hcc]
      exact h.idle hc'
  busy {c' cl₁} hc' := by
    rcases update_eq_some hc' with ⟨rfl, he⟩ | ⟨hcc, hc'⟩
    · cases he
      exact ⟨hk, phase, a.set_self .., hp⟩
    · obtain ⟨hkey, phase', hph, hok⟩ := h.busy hc'
      exact ⟨hkey, phase', (a.set_of_ne v hcc _).trans hph, hok.mono hd⟩

/-- A client changes, its call does not. -/
theorem Simulates.frame (h : Simulates g clients a) (hd : g.dir.Le g'.dir)
    (hv : ∀ k w, 1 ≤ k → k < L.ghostKey → (a.value k = some w ↔ Contents g' k w)) (hk : cl'.key < L.ghostKey)
    (hc : a.calls c = some phase) (hp : PhaseOk g'.dir cl'.request cl'.key cl'.pc phase) :
    Simulates g' (Function.update clients c (some cl')) a := by
  have hs := h.update (c := c) hd hv hk hp
  rwa [a.set_eq_self hc] at hs

/-- A client leaves. -/
theorem Simulates.leave (h : Simulates g clients a) :
    Simulates g (Function.update clients c none) (a.set a.value c none) where
  value := h.value
  idle {c'} hc' := by
    rcases eq_or_ne c' c with rfl | hcc
    · exact a.set_self ..
    · rw [Function.update_of_ne hcc] at hc'
      rw [a.set_of_ne _ hcc]
      exact h.idle hc'
  busy {c' cl₁} hc' := by
    rcases update_eq_some hc' with ⟨-, he⟩ | ⟨hcc, hc'⟩
    · cases he
    · rw [a.set_of_ne _ hcc]
      exact h.busy hc'

/-- Before the write of its leaf a call is pending. -/
theorem PhaseOk.pending_of_writesLeaf {d : Directory} (hw : cl.writesLeaf = true)
    (hp : PhaseOk d cl.request cl.key cl.pc phase) : phase = .pending (cl.request, cl.key) := by
  have hu := unwritten_of_writesLeaf hw
  rw [Client.writesLeaf] at hw
  generalize cl.pc = pc at hp hu hw
  cases hp with
  | pending => rfl
  | written _ hu' => cases hu.symm.trans hu'
  | _ => cases hw

/-- After the write of its leaf a call is taken. -/
theorem TreeMove.phase_of_writesLeaf (hcl : cl.pc = pc) (hm : TreeMove g ch cl pc g' cl') (hw : cl.writesLeaf = true)
    (hr : cl.request ≠ .search) : PhaseOk g'.dir cl.request cl.key cl'.pc (.taken (cl.request, cl.key) kValueNull) := by
  rw [Client.writesLeaf, hcl] at hw
  cases hm with
  | writeLeaf => exact .done
  | splitLeaf => exact .updateParent hr
  | _ => cases hw

/-- The map after the point of an insert or update. -/
theorem keyMap_apply_write {m : Nat → Option Nat} {request : Request} {k : Nat} (hr : request ≠ .search)
    (hu : (∃ v, request = .update v) → m k ≠ none) :
    keyMap.apply (request, k) m = some (Function.update m k (some request.value), kValueNull) := by
  cases request with
  | insert v => rfl
  | update v => simp only [keyMap, if_neg (hu ⟨v, rfl⟩), Request.value]
  | search => exact absurd rfl hr

/-- **A step** of a client is followed by the map: its call takes effect, or nothing happens. -/
theorem Simulates.move {s : Tree L} {d : Directory} {es : List Event} (h3 : 3 ≤ L.internalSpanSize)
    (hsim : Simulates ⟨s.store, d⟩ s.clients a) (hg : TreeGood s d)
    (ht : ∀ k, 1 ≤ k → k < L.ghostKey → Tracked k s d es) (hg' : TreeOk g') (hle : d.Le g'.dir)
    (honce : ∀ k, 1 ≤ k → k < L.ghostKey → OnceEach g' k) (hc : s.clients c = some cl)
    (hm : TreeMove ⟨s.store, d⟩ ch cl cl.pc g' cl') :
    ∃ a', keyMap.Advances c a a' ∧ Simulates g' (Function.update s.clients c (some cl')) a' := by
  obtain ⟨hkey, phase, hph, hok⟩ := hsim.busy hc
  obtain ⟨hk', hr'⟩ := hm.operation
  have hkc := (hg.client hc).key_pos
  rw [← hk'] at hkey
  cases hm.leaves hg.shared (hg.client hc) rfl with
  | same hw hsame =>
    have hv : ∀ k w, 1 ≤ k → k < L.ghostKey → (a.value k = some w ↔ Contents g' k w) := by
      intro k w h1 h2
      rw [hsim.value k w h1 h2]
      simp only [Contents, hsame _ _]
    by_cases hr : cl.request = .search
    · generalize hcl : cl.pc = pc at hm hok
      cases hok with
      | pending _ hs =>
        rcases hm.search_pending hg.shared h3 (hg.client hc) hcl hr (hs hr) with hp | ⟨v, hp, hcont⟩
        · exact ⟨a, .inl rfl, hsim.frame hle hv hkey hph (by rwa [hk', hr'])⟩
        · have hres : (a.value cl.key).getD kValueNull = v := by
            rcases hcont with hcont | ⟨rfl, hno⟩
            · rw [(hsim.value _ _ hkc (hk' ▸ hkey)).2 hcont, Option.getD_some]
            · cases hval : a.value cl.key with
              | none => rfl
              | some w => exact absurd ((hsim.value _ _ hkc (hk' ▸ hkey)).1 hval) (hno w)
          have happly : keyMap.apply (cl.request, cl.key) a.value = some (a.value, v) := by
            simp only [keyMap, hr, hres]
          exact ⟨_, .inr ⟨_, _, _, hph, happly, rfl⟩, hsim.update hle hv hkey (by rwa [hk', hr'])⟩
      | passed _ hfc hp hl =>
        exact ⟨a, .inl rfl, hsim.frame hle hv hkey hph
          (by rw [hk', hr']; exact hm.search_passed hg.shared hr hfc hp hl)⟩
      | written hr' => exact absurd hr hr'
      | done | crashed => cases hm
    · exact ⟨a, .inl rfl, hsim.frame hle hv hkey hph (by rw [hk', hr']; exact hm.writer_phase rfl hr hw hok)⟩
  | puts hw hputs =>
    have hr := (ht cl.key hkc (hk' ▸ hkey)).writes hc hw
    obtain rfl := hok.pending_of_writesLeaf hw
    have happly := keyMap_apply_write (m := a.value) (k := cl.key) hr fun hu hnone => by
      obtain ⟨w, hw'⟩ := hputs.old hu
      cases hnone.symm.trans ((hsim.value _ _ hkc (hk' ▸ hkey)).2 hw')
    refine ⟨_, .inr ⟨_, _, _, hph, happly, rfl⟩, hsim.update hle (fun k w h1 h2 => ?_) hkey
      (by rw [hk', hr']; exact hm.phase_of_writesLeaf rfl hw hr)⟩
    by_cases hkk : k = cl.key
    · subst hkk
      rw [Function.update_self, Option.some.injEq]
      exact ⟨fun he => he ▸ hputs.self, fun hcont => hg'.contents_unique (honce _ h1 h2) hputs.self hcont⟩
    · rw [Function.update_of_ne hkk, hsim.value k w h1 h2]
      exact ⟨hputs.kept k w hkk, fun hcont => (hputs.stored k w hcont).resolve_right fun he => hkk he.1⟩

/-- The tree after a history, and the map behind it. -/
structure Simulated (s : Tree L) (h : List Event) (d : Directory)
    (a : SeqObject.State (Nat → Option Nat) (Request × Nat) Nat) : Prop where
  good : TreeGood s d
  tracked : ∀ k, 1 ≤ k → k < L.ghostKey → Tracked k s d h
  map : Simulates ⟨s.store, d⟩ s.clients a

/-- What the map does at a step of the tree. -/
inductive MapStep (a : SeqObject.State (Nat → Option Nat) (Request × Nat) Nat) :
    Action L → List Event → SeqObject.State (Nat → Option Nat) (Request × Nat) Nat → Prop
  | invoke {c : Nat} {request : Request} {key : Nat} : a.calls c = none →
      MapStep a (.invoke c request key) [.invoke c request key] (a.set a.value c (some (.pending (request, key))))
  | move {c : Nat} {ch : Choice L} {es : List Event} {a' : SeqObject.State (Nat → Option Nat) (Request × Nat) Nat} :
      es.filterMap Event.call = [] → keyMap.Advances c a a' → MapStep a (.step c ch) es a'
  | ret {c : Nat} {request : Request} {key v : Nat} : a.calls c = some (.taken (request, key) v) →
      MapStep a (.ret c) [.ret c request key v] (a.set a.value c none)

variable {s s' : Tree L} {h es : List Event} {d : Directory} {x : Action L}
  {a' : SeqObject.State (Nat → Option Nat) (Request × Nat) Nat}

theorem MapStep.run (hs : MapStep a x es a') (ha : keyMap.atomic.Run anyStep a (h.filterMap Event.call)) :
    keyMap.atomic.Run anyStep a' ((es ++ h).filterMap Event.call) := by
  cases hs with
  | invoke hc => exact run_invoke ha hc
  | move hes hadv =>
    rw [List.filterMap_append, hes]
    exact run_advances ha hadv
  | ret hc => exact run_ret ha hc

/-- **Every step** of the tree is followed by the map. -/
theorem Simulated.step (h3 : 3 ≤ L.internalSpanSize) (hsim : Simulated s h d a) (hkeys : UserKeys s x)
    (honce : InsertsOnce (es ++ h)) (hstep : Tree.step s x = some (s', es)) :
    ∃ d' a', Simulated s' (es ++ h) d' a' ∧ MapStep a x es a' := by
  obtain ⟨hg, ht, hmap⟩ := hsim
  obtain ⟨d', hs⟩ := Tree.step_cases hg hstep
  have hg' := hs.good hg hkeys.valid
  have ht' : ∀ k, 1 ≤ k → k < L.ghostKey → Tracked k s' d' (es ++ h) := fun k h1 h2 =>
    (ht k h1 h2).step hg (by omega) hkeys.valid hs
  have hle := hs.le hg
  suffices hnext : ∃ a', Simulates ⟨s'.store, d'⟩ s'.clients a' ∧ MapStep a x es a' from
    let ⟨a', hmap', hs'⟩ := hnext
    ⟨d', a', ⟨hg', ht', hmap'⟩, hs'⟩
  cases hs with
  | invoke hc =>
    exact ⟨_, hmap.update (.refl d) hmap.value hkeys.2 (.pending rfl fun _ => trivial), .invoke (hmap.idle hc)⟩
  | @move c ch cl cl' g' hc hm =>
    obtain ⟨a', hadv, hmap'⟩ :=
      hmap.move h3 hg ht hg'.shared hle (fun k h1 h2 => (ht' k h1 h2).once (honce k)) hc hm
    exact ⟨a', hmap', .move (by split <;> rfl) hadv⟩
  | @ret c v cl hc hv =>
    obtain ⟨-, phase, hph, hok⟩ := hmap.busy hc
    rw [hv] at hok
    cases hok with
    | pending hu => cases hu
    | written _ _ hno => exact absurd rfl (hno v)
    | done => exact ⟨_, hmap.leave, .ret hph⟩

end Simulation
end Chime

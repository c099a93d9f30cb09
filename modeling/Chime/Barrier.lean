import Chime.Lib.Machine
import Mathlib.Algebra.Order.BigOperators.Group.Finset
import Mathlib.Data.Finset.Card
import Mathlib.Data.Finset.Max
import Mathlib.Data.Finset.Range

/-!
# Barriers over the cluster (`DSM::barrier`, `DSMKeeper::barrier`)

Node 0 sets the counter of a barrier to 0 in memcached, every node adds one to it as soon as it is there, and reads it
until it is the number of the nodes. The nodes run through a sequence of barriers, in any order of their steps. With
different names, a node that leaves a barrier finds that all nodes have come to it (`barrier_separates`), and the nodes
can always be led through any number of barriers (`barrier_completes`).

The number of nodes, a `uint32_t` here and a `uint16_t` for the nodes themselves, and the counter are natural numbers,
which is the same for fewer than 2^16 nodes.
-/

namespace Chime

/-- The key of a barrier. -/
def barrierKey (name : String) : String := "barrier-" ++ name

theorem barrierKey_inj {a b : String} (h : barrierKey a = barrierKey b) : a = b := by
  have hl := congrArg String.toList h
  simp only [barrierKey, String.toList_append, List.append_cancel_left_eq] at hl
  exact String.toList_inj.1 hl

namespace Barrier

/-- Where a node stands in a barrier. -/
inductive Stage
  /-- `memSet` of node 0 -/
  | set
  /-- `memFetchAndAdd` -/
  | add
  /-- `memGet` until all nodes have come -/
  | get
  deriving DecidableEq, Repr

/-- A node is in the barrier with this number. -/
structure Place where
  round : Nat
  stage : Stage
  deriving DecidableEq, Repr

structure State where
  memcached : String → Option Nat
  nodes : Nat → Place

variable (serverNR : Nat) (name : Nat → String)

/-- A step of node `p`; `name r` is the name of barrier `r`. A call that finds no value tries again. -/
def step (s : State) (p : Nat) : Option (State × List Unit) :=
  let r := (s.nodes p).round
  let key := barrierKey (name r)
  let goto (memcached : String → Option Nat) (place : Place) : Option (State × List Unit) :=
    some (⟨memcached, Function.update s.nodes p place⟩, [])
  if p < serverNR then
    match (s.nodes p).stage with
    | .set =>
      if p = 0 then goto (Function.update s.memcached key (some 0)) ⟨r, .add⟩
      else goto s.memcached ⟨r, .add⟩
    | .add =>
      match s.memcached key with
      | some v => goto (Function.update s.memcached key (some (v + 1))) ⟨r, .get⟩
      | none => none
    | .get =>
      match s.memcached key with
      | some v => if v = serverNR then goto s.memcached ⟨r + 1, .set⟩ else none
      | none => none
  else none

def machine : Machine State Nat Unit := ⟨⟨fun _ => none, fun _ => ⟨0, .set⟩⟩, step serverNR name⟩

/-- Node 0 has set the counter of barrier `r`. -/
def State.opened (s : State) (r : Nat) : Prop :=
  r < (s.nodes 0).round ∨ ((s.nodes 0).round = r ∧ (s.nodes 0).stage ≠ .set)

/-- The node has come to barrier `r`. -/
def State.came (s : State) (r p : Nat) : Prop :=
  r < (s.nodes p).round ∨ ((s.nodes p).round = r ∧ (s.nodes p).stage = .get)

instance (s : State) (r p : Nat) : Decidable (s.came r p) := inferInstanceAs (Decidable (_ ∨ _))

instance (s : State) (r : Nat) : Decidable (s.opened r) := inferInstanceAs (Decidable (_ ∨ _))

/-- The nodes that have come to barrier `r`. -/
def State.present (s : State) (r : Nat) : Finset Nat := (Finset.range serverNR).filter (s.came r)

/-- What holds between the steps. -/
structure Inv (s : State) : Prop where
  /-- a counter is there when it is set, and counts the nodes that have come -/
  counter : ∀ r, s.memcached (barrierKey (name r)) = if s.opened r then some (s.present serverNR r).card else none
  opened : ∀ r p, p < serverNR → s.came r p → s.opened r
  /-- a node leaves a barrier after all have come -/
  left : ∀ r p, p < serverNR → r < (s.nodes p).round → ∀ q < serverNR, s.came r q

variable {serverNR name} {s s' : State} {es : List Unit} {p q r : Nat}

/-! ## The steps -/

/-- The state after a step of node `p`. -/
def goto (s : State) (memcached : String → Option Nat) (p : Nat) (place : Place) : State :=
  ⟨memcached, Function.update s.nodes p place⟩

/-- **A step** of node `p`. -/
inductive Step (serverNR : Nat) (name : Nat → String) (s : State) (p : Nat) : State → Prop
  | reset : p = 0 → (s.nodes p).stage = .set → Step serverNR name s p
      (goto s (Function.update s.memcached (barrierKey (name (s.nodes p).round)) (some 0)) p ⟨(s.nodes p).round, .add⟩)
  | pass : p ≠ 0 → (s.nodes p).stage = .set →
      Step serverNR name s p (goto s s.memcached p ⟨(s.nodes p).round, .add⟩)
  | add {v : Nat} : (s.nodes p).stage = .add → s.memcached (barrierKey (name (s.nodes p).round)) = some v →
      Step serverNR name s p
        (goto s (Function.update s.memcached (barrierKey (name (s.nodes p).round)) (some (v + 1))) p
          ⟨(s.nodes p).round, .get⟩)
  | leave : (s.nodes p).stage = .get → s.memcached (barrierKey (name (s.nodes p).round)) = some serverNR →
      Step serverNR name s p (goto s s.memcached p ⟨(s.nodes p).round + 1, .set⟩)

theorem step_iff : step serverNR name s p = some (s', es) ↔
    p < serverNR ∧ Step serverNR name s p s' ∧ es = [] := by
  constructor
  · intro h
    simp only [step] at h
    split at h
    swap
    · cases h
    rename_i hp
    refine ⟨hp, ?_⟩
    split at h
    · rename_i hst
      split at h
      · rename_i h0
        cases h
        exact ⟨.reset h0 hst, rfl⟩
      · rename_i h0
        cases h
        exact ⟨.pass h0 hst, rfl⟩
    · rename_i hst
      split at h
      · rename_i hv
        cases h
        exact ⟨.add hst hv, rfl⟩
      · cases h
    · rename_i hst
      split at h
      · rename_i hv
        split at h
        · rename_i hn
          cases h
          exact ⟨.leave hst (hn ▸ hv), rfl⟩
        · cases h
      · cases h
  · rintro ⟨hp, hs, rfl⟩
    cases hs with
    | reset h0 hst => subst h0; simp [step, hp, hst, goto]
    | pass h0 hst => simp [step, hp, hst, h0, goto]
    | add hst hv => simp [step, hp, hst, hv, goto]
    | leave hst hv => simp [step, hp, hst, hv, goto]

section Goto

variable {memcached : String → Option Nat} {place : Place}

theorem goto_self : (goto s memcached p place).nodes p = place := Function.update_self ..

theorem goto_of_ne (h : q ≠ p) : (goto s memcached p place).nodes q = s.nodes q := Function.update_of_ne h ..

theorem came_goto_of_ne (h : q ≠ p) : (goto s memcached p place).came r q ↔ s.came r q := by
  simp only [State.came, goto_of_ne h]

theorem opened_goto_of_ne (h : p ≠ 0) : (goto s memcached p place).opened r ↔ s.opened r := by
  simp only [State.opened, goto_of_ne h.symm]

/-- Nobody has come and no barrier has been opened by the step. -/
theorem Inv.same (h : Inv serverNR name s) (hcame : ∀ r q, (goto s s.memcached p place).came r q ↔ s.came r q)
    (hopened : ∀ r, (goto s s.memcached p place).opened r ↔ s.opened r)
    (hleft : ∀ r, r < place.round → ∀ q < serverNR, s.came r q) :
    Inv serverNR name (goto s s.memcached p place) where
  counter r := by
    have hpresent : (goto s s.memcached p place).present serverNR r = s.present serverNR r :=
      Finset.filter_congr fun q _ => hcame r q
    rw [hpresent]
    simp only [hopened]
    exact h.counter r
  opened r q hq hc := (hopened r).2 (h.opened r q hq ((hcame r q).1 hc))
  left r q hq hr k hk := by
    refine (hcame r k).2 ?_
    rcases eq_or_ne q p with rfl | hqp
    · rw [goto_self] at hr
      exact hleft r hr k hk
    · rw [goto_of_ne hqp] at hr
      exact h.left r q hq hr k hk

end Goto

theorem Step.inv (hname : Function.Injective name) (hs : Step serverNR name s p s') (hp : p < serverNR)
    (h : Inv serverNR name s) : Inv serverNR name s' := by
  have hkey : ∀ {r r'}, barrierKey (name r) = barrierKey (name r') → r = r' := fun he => hname (barrierKey_inj he)
  cases hs with
  | reset h0 hst =>
    subst h0
    generalize hr : (s.nodes 0).round = r₀
    have hclosed : ¬s.opened r₀ := by simp [State.opened, hr, hst]
    have hcame : ∀ r q, (goto s (Function.update s.memcached (barrierKey (name r₀)) (some 0)) 0 ⟨r₀, .add⟩).came r q ↔
        s.came r q := by
      intro r q
      rcases eq_or_ne q 0 with rfl | hq
      · simp [State.came, goto_self, hr, hst]
      · exact came_goto_of_ne hq
    have hpresent : ∀ r, (goto s (Function.update s.memcached (barrierKey (name r₀)) (some 0)) 0 ⟨r₀, .add⟩).present
        serverNR r = s.present serverNR r := fun r => Finset.filter_congr fun q _ => hcame r q
    have hopened : ∀ r, (goto s (Function.update s.memcached (barrierKey (name r₀)) (some 0)) 0 ⟨r₀, .add⟩).opened r ↔
        s.opened r ∨ r = r₀ := by
      intro r
      simp [State.opened, goto_self, hr, hst]
      omega
    refine ⟨fun r => ?_, fun r q hq hc => (hopened r).2 (.inl (h.opened r q hq ((hcame r q).1 hc))),
      fun r q hq hlt k hk => (hcame r k).2 (h.left r q hq ?_ k hk)⟩
    · rw [hpresent]
      simp only [hopened]
      by_cases hrr : r = r₀
      · -- nobody has come to a barrier that is not open
        have hempty : s.present serverNR r₀ = ∅ := Finset.filter_eq_empty_iff.2 fun q hq hc =>
          hclosed (h.opened r₀ q (Finset.mem_range.1 hq) hc)
        rw [hrr, hempty, if_pos (.inr rfl)]
        simp [goto]
      · simp only [hrr, or_false, goto, Function.update_of_ne fun he => hrr (hkey he)]
        exact h.counter r
    · rcases eq_or_ne q 0 with rfl | hq0
      · rwa [goto_self, ← hr] at hlt
      · rwa [goto_of_ne hq0] at hlt
  | pass h0 hst =>
    refine h.same (fun r q => ?_) (fun r => opened_goto_of_ne h0) fun r hr => h.left r p hp hr
    rcases eq_or_ne q p with rfl | hq
    · simp [State.came, goto_self, hst]
    · exact came_goto_of_ne hq
  | @add v hst hv =>
    generalize hr : (s.nodes p).round = r₀ at hv ⊢
    have hcounter := h.counter r₀
    rw [hv] at hcounter
    have hopen : s.opened r₀ := by
      by_contra hno
      rw [if_neg hno] at hcounter
      cases hcounter
    rw [if_pos hopen] at hcounter
    have hv' : v = (s.present serverNR r₀).card := Option.some.inj hcounter
    have hnot : ¬s.came r₀ p := by simp [State.came, hr, hst]
    generalize hs' : goto s _ p ⟨r₀, .get⟩ = s'
    have hcame : ∀ r q, s'.came r q ↔ s.came r q ∨ (q = p ∧ r = r₀) := by
      intro r q
      rw [← hs']
      rcases eq_or_ne q p with rfl | hq
      · simp [State.came, goto_self, hr, hst]
        omega
      · rw [came_goto_of_ne hq]
        simp [hq]
    have hopened : ∀ r, s'.opened r ↔ s.opened r := by
      intro r
      rw [← hs']
      rcases eq_or_ne p 0 with rfl | hp0
      · simp [State.opened, goto_self, hr, hst]
      · exact opened_goto_of_ne hp0
    refine ⟨fun r => ?_, fun r q hq hc => ?_, fun r q hq hlt k hk => ?_⟩
    · simp only [hopened]
      by_cases hrr : r = r₀
      · subst hrr
        have hpresent : s'.present serverNR r = insert p (s.present serverNR r) := by
          ext q
          simp only [State.present, Finset.mem_filter, Finset.mem_range, Finset.mem_insert, hcame, and_true]
          constructor
          · rintro ⟨hq, hc | rfl⟩
            · exact .inr ⟨hq, hc⟩
            · exact .inl rfl
          · rintro (rfl | ⟨hq, hc⟩)
            · exact ⟨hp, .inr rfl⟩
            · exact ⟨hq, .inl hc⟩
        have hmem : p ∉ s.present serverNR r := fun hmem => hnot (Finset.mem_filter.1 hmem).2
        rw [if_pos hopen, hpresent, Finset.card_insert_of_notMem hmem, ← hv', ← hs']
        simp [goto]
      · have hpresent : s'.present serverNR r = s.present serverNR r := Finset.filter_congr fun q _ => by
          rw [hcame]
          simp [hrr]
        rw [hpresent, ← hs']
        simp only [goto, Function.update_of_ne fun he => hrr (hkey he)]
        exact h.counter r
    · rcases (hcame r q).1 hc with hc | ⟨-, rfl⟩
      · exact (hopened r).2 (h.opened r q hq hc)
      · exact (hopened r).2 hopen
    · refine (hcame r k).2 (.inl (h.left r q hq ?_ k hk))
      rw [← hs'] at hlt
      rcases eq_or_ne q p with rfl | hqp
      · rwa [goto_self, ← hr] at hlt
      · rwa [goto_of_ne hqp] at hlt
  | leave hst hv =>
    generalize hr : (s.nodes p).round = r₀ at hv ⊢
    have hcounter := h.counter r₀
    rw [hv] at hcounter
    have hopen : s.opened r₀ := by
      by_contra hno
      rw [if_neg hno] at hcounter
      cases hcounter
    rw [if_pos hopen, Option.some.injEq] at hcounter
    -- all have come
    have hall : s.present serverNR r₀ = Finset.range serverNR :=
      Finset.eq_of_subset_of_card_le (Finset.filter_subset _ _) (by rw [Finset.card_range, ← hcounter])
    refine h.same (fun r q => ?_) (fun r => ?_) fun r hlt q hq => ?_
    · rcases eq_or_ne q p with rfl | hq
      · simp [State.came, goto_self, hr, hst]
        omega
      · exact came_goto_of_ne hq
    · rcases eq_or_ne p 0 with rfl | hp0
      · simp [State.opened, goto_self, hr, hst]
        omega
      · exact opened_goto_of_ne hp0
    · rcases Nat.lt_succ_iff_lt_or_eq.1 hlt with hlt | rfl
      · exact h.left r p hp (hr ▸ hlt) q hq
      · have hmem : q ∈ s.present serverNR r := hall ▸ Finset.mem_range.2 hq
        exact (Finset.mem_filter.1 hmem).2

theorem init_inv : Inv serverNR name (machine serverNR name).init := by
  have hcame : ∀ r q, ¬(machine serverNR name).init.came r q := by
    intro r q hc
    simp [machine, State.came] at hc
  have hopened : ∀ r, ¬(machine serverNR name).init.opened r := by
    intro r hc
    simp [machine, State.opened] at hc
  exact ⟨fun r => by rw [if_neg (hopened r)]; rfl, fun r q _ hc => absurd hc (hcame r q), fun r q _ hr => by cases hr⟩

theorem run_inv (hname : Function.Injective name) {h : List Unit}
    (hrun : (machine serverNR name).Run (fun _ _ => True) s h) : Inv serverNR name s := by
  refine hrun.invariant (I := fun s _ => Inv serverNR name s) init_inv ?_
  intro s h p s' es _ hinv _ hs
  obtain ⟨hp, hs, -⟩ := step_iff.1 hs
  exact hs.inv hname hp hinv

/-- **Barriers separate**: in every run, with different names, a node that has left a barrier has done so after all
nodes have come to it. -/
theorem barrier_separates (hname : Function.Injective name) {h : List Unit}
    (hrun : (machine serverNR name).Run (fun _ _ => True) s h) (hp : p < serverNR) (hr : r < (s.nodes p).round) :
    ∀ q < serverNR, s.came r q := (run_inv hname hrun).left r p hp hr

/-- Names of barriers. -/
def numbered (r : Nat) : String := String.ofList (List.replicate r 'i')

theorem numbered_injective : Function.Injective numbered := fun a b h => by
  have hl := congrArg (fun s => s.toList.length) h
  simpa [numbered] using hl

/-- Node 0 has left a barrier that node 1 is still in. -/
theorem barrier_separates_two : ∃ s h, (machine 2 numbered).Run (fun _ _ => True) s h ∧ (s.nodes 0).round = 1 ∧
    (s.nodes 1).round = 0 ∧ ∀ q < 2, s.came 0 q := by
  have hsome : (((machine 2 numbered).exec (fun _ _ => true) (machine 2 numbered).init [] [1, 0, 1, 0, 0]).map fun y =>
      ((y.1.nodes 0).round, (y.1.nodes 1).round)) = some (1, 0) := by decide +kernel
  obtain ⟨⟨s, h⟩, hexec, heq⟩ := Option.map_eq_some_iff.1 hsome
  obtain ⟨h0, h1⟩ := Prod.mk.inj heq
  have hrun : (machine 2 numbered).Run (fun _ _ => True) s h := .of_exec (I := fun _ => True) (fun _ _ => trivial)
    (fun _ _ _ => trivial) trivial .init hexec
  exact ⟨s, h, hrun, h0, h1, barrier_separates numbered_injective hrun (p := 0) (by decide) (by rw [h0]; decide)⟩

/-! ## Progress -/

/-- The steps that a node has left to the end of barrier `n - 1`. -/
def Place.left (n : Nat) (place : Place) : Nat :=
  3 * (n - place.round) - match place.stage with
    | .set => 0
    | .add => 1
    | .get => 2

/-- While a node is before barrier `n`, some node has a step that brings it closer. -/
theorem Inv.productive (h : Inv serverNR name s) {n : Nat} (hp : p < serverNR) (hn : (s.nodes p).round < n) :
    ∃ q < serverNR, ∃ memcached place, Step serverNR name s q (goto s memcached q place) ∧
      place.left n < (s.nodes q).left n := by
  -- a node in the first of the barriers that have a node
  obtain ⟨k, hk, hmin⟩ := Finset.exists_min_image (Finset.range serverNR) (fun q => (s.nodes q).round)
    ⟨p, Finset.mem_range.2 hp⟩
  generalize hr : (s.nodes k).round = r at hmin
  have hkn := Finset.mem_range.1 hk
  have hge : ∀ q < serverNR, r ≤ (s.nodes q).round := fun q hq => hmin q (Finset.mem_range.2 hq)
  have hrn : r < n := (hge p hp).trans_lt hn
  by_cases hset : ∃ q < serverNR, (s.nodes q).round = r ∧ (s.nodes q).stage = .set
  · obtain ⟨q, hq, hqr, hst⟩ := hset
    rcases eq_or_ne q 0 with rfl | h0
    · refine ⟨0, hq, _, _, .reset rfl hst, ?_⟩
      simp only [Place.left, hqr, hst]
      omega
    · refine ⟨q, hq, _, _, .pass h0 hst, ?_⟩
      simp only [Place.left, hqr, hst]
      omega
  have hopen : s.opened r := by
    rcases (hge 0 (Nat.zero_lt_of_lt hp)).eq_or_lt with h0 | h0
    · exact .inr ⟨h0.symm, fun hst => hset ⟨0, Nat.zero_lt_of_lt hp, h0.symm, hst⟩⟩
    · exact .inl h0
  have hcounter := h.counter r
  rw [if_pos hopen] at hcounter
  by_cases hadd : ∃ q < serverNR, (s.nodes q).round = r ∧ (s.nodes q).stage = .add
  · obtain ⟨q, hq, rfl, hst⟩ := hadd
    refine ⟨q, hq, _, _, .add hst hcounter, ?_⟩
    simp only [Place.left, hst]
    omega
  -- all nodes have come
  have hget : ∀ q < serverNR, (s.nodes q).round = r → (s.nodes q).stage = .get := by
    intro q hq hqr
    cases hst : (s.nodes q).stage with
    | set => exact absurd ⟨q, hq, hqr, hst⟩ hset
    | add => exact absurd ⟨q, hq, hqr, hst⟩ hadd
    | get => rfl
  have hall : s.present serverNR r = Finset.range serverNR := Finset.filter_true_of_mem fun q hq => by
    have hq := Finset.mem_range.1 hq
    rcases (hge q hq).eq_or_lt with hqr | hqr
    · exact .inr ⟨hqr.symm, hget q hq hqr.symm⟩
    · exact .inl hqr
  rw [hall, Finset.card_range] at hcounter
  subst hr
  refine ⟨k, hkn, _, _, .leave (hget k hkn rfl) hcounter, ?_⟩
  simp only [Place.left, hget k hkn rfl]
  omega

/-- **The barriers are passed**: from every state that is reached, all nodes can be led through the first `n`
barriers. -/
theorem barrier_completes (hname : Function.Injective name) {h : List Unit}
    (hrun : (machine serverNR name).Run (fun _ _ => True) s h) (n : Nat) :
    ∃ s' h', (machine serverNR name).Steps (fun _ _ => True) s h s' h' ∧
      ∀ p < serverNR, n ≤ (s'.nodes p).round := by
  let total (s : State) : Nat := ∑ p ∈ Finset.range serverNR, (s.nodes p).left n
  have hlead := Machine.Steps.of_rank (M := machine serverNR name) (G := fun _ _ => True) Nat.lt_wfRel.wf
    (I := fun m s => Inv serverNR name s ∧ total s = m) (Q := fun s => ∀ p < serverNR, n ≤ (s.nodes p).round) ?_
  · exact hlead _ s ⟨run_inv hname hrun, rfl⟩ h
  rintro m s ⟨hinv, rfl⟩
  by_cases hall : ∀ p < serverNR, n ≤ (s.nodes p).round
  · exact .inl hall
  obtain ⟨p, hp⟩ := not_forall.1 hall
  obtain ⟨hp, hn⟩ := Classical.not_imp.1 hp
  obtain ⟨q, hq, memcached, place, hs, hlt⟩ := hinv.productive hp (not_le.1 hn)
  have hle : ∀ r, ((goto s memcached q place).nodes r).left n ≤ (s.nodes r).left n := by
    intro r
    rcases eq_or_ne r q with rfl | hr
    · rw [goto_self]
      exact hlt.le
    · rw [goto_of_ne hr]
  have htotal : total (goto s memcached q place) < total s :=
    Finset.sum_lt_sum (fun r _ => hle r) ⟨q, Finset.mem_range.2 hq, by rwa [goto_self]⟩
  exact .inr ⟨q, _, [], trivial, step_iff.2 ⟨hq, hs, rfl⟩, .inr ⟨_, htotal, hs.inv hname hq hinv, rfl⟩⟩

/-- Of three nodes one has left the first barrier, and the others stand in it; all pass four barriers. -/
theorem barrier_completes_behind : ∃ s h, (machine 3 numbered).Run (fun _ _ => True) s h ∧ (s.nodes 0).round = 1 ∧
    (s.nodes 2).round = 0 ∧ ∃ s' h', (machine 3 numbered).Steps (fun _ _ => True) s h s' h' ∧
      ∀ p < 3, 4 ≤ (s'.nodes p).round := by
  have hsome : (((machine 3 numbered).exec (fun _ _ => true) (machine 3 numbered).init [] [1, 0, 2, 0, 1, 2, 0]).map
      fun y => ((y.1.nodes 0).round, (y.1.nodes 2).round)) = some (1, 0) := by decide +kernel
  obtain ⟨⟨s, h⟩, hexec, heq⟩ := Option.map_eq_some_iff.1 hsome
  obtain ⟨h0, h2⟩ := Prod.mk.inj heq
  have hrun : (machine 3 numbered).Run (fun _ _ => True) s h := .of_exec (I := fun _ => True) (fun _ _ => trivial)
    (fun _ _ _ => trivial) trivial .init hexec
  exact ⟨s, h, hrun, h0, h2, barrier_completes numbered_injective hrun 4⟩

end Barrier
end Chime

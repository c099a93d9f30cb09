import Chime.SkipListSteps

/-!
# The skip list is linearizable

In any run of any number of threads no assertion fails, and each call acts like one on a sorted list of keys at a moment
between its invocation and its return (`skiplist_linearizable`). At any moment the links of a level are a list in the
order of the keys, and a part of the list of the level below (`skiplist_levels`).
-/

namespace Chime
namespace SkipList

open SeqObject

variable {α : Type} [LinearOrder α] {kMaxHeight : Nat} {m m' : Memory α} {S S' : Levels} {pc pc' : Pc α}

/-- **An action** of a thread. -/
inductive ThreadStep (kMaxHeight : Nat) (s : State α) : Action α → State α → List (Call (Op α) (Res α)) → Prop
  | insert {t height : Nat} {key : α} : s.pcs t = .idle → 1 ≤ height ∧ height ≤ kMaxHeight →
      ThreadStep kMaxHeight s (.insert t key height)
        { s with mem := s.mem.allocate key height, pcs := Function.update s.pcs t (.load s.mem.size) }
        [.invoke t (.insert key)]
  | seek {t : Nat} {target : α} : s.pcs t = .idle →
      ThreadStep kMaxHeight s (.seek t target) { s with pcs := Function.update s.pcs t (.height target) }
        [.invoke t (.seek target)]
  | next {t : Nat} {n : Node} : s.pcs t = .idle → s.iter t = some n →
      ThreadStep kMaxHeight s (.next t) { s with pcs := Function.update s.pcs t (.advance n) }
        [.invoke t (.next (s.mem.key n))]
  | step {t loaded : Nat} {fails : Bool} {m' : Memory α} {pc' : Pc α} :
      s.mem.step loaded fails (s.pcs t) = some (m', pc') →
      ThreadStep kMaxHeight s (.step t loaded fails) { s with mem := m', pcs := Function.update s.pcs t pc' } []
  | inserted {t : Nat} {key : α} {res : Bool} : s.pcs t = .inserted key res →
      ThreadStep kMaxHeight s (.ret t) { s with pcs := Function.update s.pcs t .idle }
        [.ret t (.insert key) (.inserted res)]
  | found {t : Nat} {op : Op α} {n : Option Node} : s.pcs t = .found op n →
      ThreadStep kMaxHeight s (.ret t)
        { s with pcs := Function.update s.pcs t .idle, iter := Function.update s.iter t n }
        [.ret t op (.at (n.map s.mem.key))]

theorem step_cases {s s' : State α} {act : Action α} {es : List (Call (Op α) (Res α))}
    (he : step kMaxHeight s act = some (s', es)) : ThreadStep kMaxHeight s act s' es := by
  cases act with
  | insert t key height =>
    simp only [SkipList.step] at he
    split at he
    · rename_i hpc
      split at he
      · rename_i hheight
        cases he
        exact .insert hpc hheight
      · cases he
    · cases he
  | seek t target =>
    simp only [SkipList.step] at he
    split at he
    · rename_i hpc
      cases he
      exact .seek hpc
    · cases he
  | next t =>
    simp only [SkipList.step] at he
    split at he
    · rename_i hpc hiter
      cases he
      exact .next hpc hiter
    · cases he
  | step t loaded fails =>
    obtain ⟨⟨m', pc'⟩, hstep, heq⟩ := Option.map_eq_some_iff.1 he
    cases heq
    exact .step hstep
  | ret t =>
    simp only [SkipList.step] at he
    split at he
    · rename_i hpc
      cases he
      exact .inserted hpc
    · rename_i hpc
      cases he
      exact .found hpc
    · cases he

/-- What holds in every state of a run. -/
structure Inv (kMaxHeight : Nat) (s : State α) (S : Levels) : Prop where
  mem : s.mem.Ok kMaxHeight S
  ok : ∀ t, PcOk s.mem S (s.pcs t)
  owns : ∀ t, Owns kMaxHeight s.mem S (s.pcs t)
  /-- two threads do not insert the same node -/
  one : ∀ {t t' x i j}, (s.pcs t).inserting = some (x, i) → (s.pcs t').inserting = some (x, j) → t = t'
  iter : ∀ t n, s.iter t = some n → n ∈ S 0 ∧ n ≠ head

variable {s s' : State α} {t : Nat}

/-- The call of another thread stays as it is. -/
theorem Pc.phase_mono (hm : m.Ok kMaxHeight S) (hg : Grows m S m' S') (hown : Owns kMaxHeight m S pc)
    (h : PcOk m S pc) : pc.phase m' = pc.phase m := by
  have hkey : ∀ {x i}, pc.inserting = some (x, i) → m'.key x = m.key x := fun hx =>
    (hg.same _ (hown _ _ hx).lt_size).1
  cases pc with
  | idle | inserted | height | seek | failed => rfl
  | load x | raise x | recompute x | link x | cas x | refind x => simp only [Pc.phase, hkey rfl]
  | advance n => simp only [Pc.phase, (hg.same n (hm.allocated h.1)).1]
  | found op n =>
    cases n with
    | none => rfl
    | some n => simp only [Pc.phase, Option.map_some, (hg.same n (hm.allocated (h n rfl).1)).1]

/-- **A step of a thread** keeps the invariant. -/
theorem Inv.moved (hI : Inv kMaxHeight s S) (hmv : Moved kMaxHeight s.mem S (s.pcs t) m' S' pc') :
    Inv kMaxHeight { s with mem := m', pcs := Function.update s.pcs t pc' } S' := by
  have hframe : ∀ {t' x i}, t' ≠ t → (s.pcs t').inserting = some (x, i) → ∀ l,
      (x ∈ S' l ↔ x ∈ S l) ∧ (x ∉ S l → m'.next x l = s.mem.next x l) := fun hne hx l =>
    hmv.frame _ l fun j hj => hne (hI.one hx hj)
  refine ⟨hmv.mem, fun t' => ?_, fun t' => ?_, ?_, fun t' n hn => (hI.iter t' n hn).imp_left (hmv.grows.le 0 ·)⟩
  · rcases eq_or_ne t' t with rfl | hne
    · simp only [Function.update_self]
      exact hmv.ok
    · simp only [Function.update_of_ne hne]
      refine (hI.ok t').mono hI.mem hmv.grows (hI.owns t') fun x i hx => (hframe hne hx i).2 fun hmem => ?_
      exact Nat.lt_irrefl i (((hI.owns t' x i hx).linked i).1 hmem)
  · rcases eq_or_ne t' t with rfl | hne
    · simp only [Function.update_self]
      exact hmv.owns
    · simp only [Function.update_of_ne hne]
      intro x i hx
      obtain ⟨hx0, hlt, hheight, hlinked⟩ := hI.owns t' x i hx
      exact ⟨hx0, hlt.trans_le hmv.grows.size, (hmv.grows.same x hlt).2 ▸ hheight, fun l =>
        (hframe hne hx l).1.trans (hlinked l)⟩
  · -- the new node of the thread was its new node before
    have hold : ∀ {t' x i}, (Function.update s.pcs t pc' t').inserting = some (x, i) →
        ∃ j, (s.pcs t').inserting = some (x, j) := by
      intro t' x i hx
      rcases eq_or_ne t' t with rfl | hne
      · rw [Function.update_self] at hx
        exact hmv.same x i hx
      · rw [Function.update_of_ne hne] at hx
        exact ⟨i, hx⟩
    intro t₁ t₂ x i j h₁ h₂
    obtain ⟨_, h₁⟩ := hold h₁
    obtain ⟨_, h₂⟩ := hold h₂
    exact hI.one h₁ h₂

/-- A call of a search, or a return. -/
theorem Inv.goto (hI : Inv kMaxHeight s S) (pc : Pc α) (h : PcOk s.mem S pc) (hi : pc.inserting = none)
    {iter : Nat → Option Node} (hiter : ∀ t n, iter t = some n → n ∈ S 0 ∧ n ≠ head) :
    Inv kMaxHeight { s with pcs := Function.update s.pcs t pc, iter } S := by
  have hold : ∀ {t' x i}, (Function.update s.pcs t pc t').inserting = some (x, i) →
      (s.pcs t').inserting = some (x, i) := by
    intro t' x i hx
    rcases eq_or_ne t' t with rfl | hne
    · rw [Function.update_self, hi] at hx
      cases hx
    · rwa [Function.update_of_ne hne] at hx
  refine ⟨hI.mem, fun t' => ?_, fun t' x i hx => hI.owns t' x i (hold hx), fun h₁ h₂ => hI.one (hold h₁) (hold h₂), hiter⟩
  rcases eq_or_ne t' t with rfl | hne
  · simp only [Function.update_self]
    exact h
  · simp only [Function.update_of_ne hne]
    exact hI.ok t'

/-- A node is allocated. -/
theorem Memory.Ok.allocate (hm : m.Ok kMaxHeight S) (key : α) (height : Nat) :
    (m.allocate key height).Ok kMaxHeight S ∧ Grows m S (m.allocate key height) S := by
  have hsame : ∀ n < m.size, (m.allocate key height).key n = m.key n ∧ (m.allocate key height).height n = m.height n :=
    fun n hn => ⟨Function.update_of_ne hn.ne .., Function.update_of_ne hn.ne ..⟩
  have hg : Grows m S (m.allocate key height) S := ⟨hsame, Nat.le_succ _, le_rfl, fun _ => le_rfl⟩
  refine ⟨⟨hm.head_mem, fun h => (hm.allocated h).trans (Nat.lt_succ_self _), hm.nested, fun l => ?_, hm.maxHeight⟩, hg⟩
  exact (hm.linked l).congr (fun n hn => hg.rank (hm.lt_size hn)) fun _ _ => rfl

/-- A call of `InsertConcurrently`. -/
theorem Inv.allocate (hI : Inv kMaxHeight s S) {height : Nat} (hheight : 1 ≤ height ∧ height ≤ kMaxHeight) (key : α) :
    Inv kMaxHeight
      { s with mem := s.mem.allocate key height, pcs := Function.update s.pcs t (.load s.mem.size) } S := by
  obtain ⟨hm', hg⟩ := hI.mem.allocate key height
  have hnew : ∀ {l}, s.mem.size ∉ S l := fun h => Nat.lt_irrefl _ (hI.mem.lt_size h)
  have hfresh : ∀ {t' i}, (s.pcs t').inserting ≠ some (s.mem.size, i) := fun hx =>
    Nat.lt_irrefl _ ((hI.owns _ _ _ hx).lt_size)
  refine ⟨hm', fun t' => ?_, fun t' => ?_, ?_, hI.iter⟩
  · rcases eq_or_ne t' t with rfl | hne
    · simp only [Function.update_self]
      trivial
    · simp only [Function.update_of_ne hne]
      exact (hI.ok t').mono hI.mem hg (hI.owns t') fun _ _ _ => rfl
  · rcases eq_or_ne t' t with rfl | hne
    · simp only [Function.update_self]
      intro x i hx
      cases hx
      refine ⟨fun he => ?_, Nat.lt_succ_self _, ?_, fun l => ⟨fun h => absurd h hnew, fun h => by cases h⟩⟩
      · exact absurd (he ▸ hI.mem.allocated (hI.mem.head_mem 0)) (Nat.lt_irrefl _)
      · simp only [Memory.allocate, Function.update_self]
        exact hheight
    · simp only [Function.update_of_ne hne]
      intro x i hx
      obtain ⟨hx0, hlt, hxh, hlinked⟩ := hI.owns t' x i hx
      exact ⟨hx0, hlt.trans (Nat.lt_succ_self _), (hg.same x hlt).2 ▸ hxh, hlinked⟩
  · intro t₁ t₂ x i j h₁ h₂
    simp only at h₁ h₂
    rcases eq_or_ne t₁ t with rfl | hne₁ <;> rcases eq_or_ne t₂ t₁ with rfl | hne₂
    · rfl
    · rw [Function.update_self] at h₁
      rw [Function.update_of_ne hne₂] at h₂
      cases h₁
      exact absurd h₂ hfresh
    · rfl
    · rw [Function.update_of_ne hne₁] at h₁
      rcases eq_or_ne t₂ t with rfl | hne
      · rw [Function.update_self] at h₂
        cases h₂
        exact absurd h₁ hfresh
      · rw [Function.update_of_ne hne] at h₂
        exact hI.one h₁ h₂

/-- The list of keys with the calls that have begun. -/
def Sim (kMaxHeight : Nat) (s : State α) (a : SeqObject.State (List α) (Op α) (Res α)) : Prop :=
  ∃ S, Inv kMaxHeight s S ∧ Lists s.mem S a.value ∧ ∀ t, a.calls t = (s.pcs t).phase s.mem

omit [LinearOrder α] in
/-- The calls after a step of one thread. -/
theorem calls_update {calls : Nat → Option (Phase (Op α) (Res α))} {pcs : Nat → Pc α}
    {phase : Option (Phase (Op α) (Res α))} (hself : phase = pc'.phase m')
    (hothers : ∀ t', t' ≠ t → calls t' = (pcs t').phase m') (t' : Nat) :
    Function.update calls t phase t' = (Function.update pcs t pc' t').phase m' := by
  rcases eq_or_ne t' t with rfl | hne
  · rw [Function.update_self, Function.update_self, hself]
  · rw [Function.update_of_ne hne, Function.update_of_ne hne, hothers t' hne]

/-- **The simulation**: a step of a thread is followed by the list with atomic calls. -/
theorem Sim.step (hmax : kMaxHeight < kMaxPossibleHeight) {a : SeqObject.State (List α) (Op α) (Res α)}
    (hsim : Sim kMaxHeight s a) {act : Action α} {h es : List (Call (Op α) (Res α))}
    (he : step kMaxHeight s act = some (s', es)) (hrun : (orderedList α).atomic.Run anyStep a h) :
    ∃ a', (orderedList α).atomic.Run anyStep a' (es ++ h) ∧ Sim kMaxHeight s' a' := by
  obtain ⟨S, hI, hlists, hcalls⟩ := hsim
  have hidle : ∀ {t}, s.pcs t = .idle → a.calls t = none := fun hpc => by rw [hcalls, hpc]; rfl
  cases step_cases he with
  | @insert t height key hpc hheight =>
    obtain ⟨-, hg⟩ := hI.mem.allocate key height
    refine ⟨_, run_invoke hrun (hidle hpc), S, hI.allocate hheight key, ⟨hlists.1, fun k => ?_⟩, calls_update ?_ ?_⟩
    · refine (hlists.2 k).trans (exists_congr fun n => and_congr_right fun hn => ?_)
      rw [(hg.same n (hI.mem.allocated hn)).1]
    · simp only [Pc.phase, Memory.allocate, Function.update_self]
    · intro t' hne
      rw [hcalls, Pc.phase_mono hI.mem hg (hI.owns t') (hI.ok t')]
  | @seek t target hpc =>
    exact ⟨_, run_invoke hrun (hidle hpc), S, hI.goto (.height target) trivial rfl hI.iter, hlists,
      calls_update rfl fun t' _ => hcalls t'⟩
  | @next t n hpc hiter =>
    exact ⟨_, run_invoke hrun (hidle hpc), S, hI.goto (.advance n) (hI.iter t n hiter) rfl hI.iter, hlists,
      calls_update rfl fun t' _ => hcalls t'⟩
  | @step t loaded fails m' pc' hstep =>
    obtain ⟨S', hmv⟩ := hI.mem.step hmax (hI.owns t) (hI.ok t) hstep
    have hothers : ∀ t', t' ≠ t → a.calls t' = (s.pcs t').phase m' := fun t' _ => by
      rw [hcalls, Pc.phase_mono hI.mem hmv.grows (hI.owns t') (hI.ok t')]
    cases hmv.effect with
    | silent hphase hkeep =>
      refine ⟨a, hrun, S', hI.moved hmv, hkeep _ hlists, fun t' => ?_⟩
      have hupdate : Function.update a.calls t (a.calls t) t' = (Function.update s.pcs t pc' t').phase m' :=
        calls_update ((hcalls t).trans hphase.symm) hothers t'
      rwa [Function.update_eq_self] at hupdate
    | point op res hpending htaken happly =>
      obtain ⟨keys, happly, hlists'⟩ := happly _ hlists
      exact ⟨_, run_point hrun ((hcalls t).trans hpending) happly, S', hI.moved hmv, hlists',
        calls_update htaken.symm hothers⟩
  | @inserted t key res hpc =>
    have hc : a.calls t = some (.taken (.insert key) (.inserted res)) := by rw [hcalls, hpc]; rfl
    exact ⟨_, run_ret hrun hc, S, hI.goto .idle trivial rfl hI.iter, hlists, calls_update rfl fun t' _ => hcalls t'⟩
  | @found t op n hpc =>
    have hc : a.calls t = some (.taken op (.at (n.map s.mem.key))) := by rw [hcalls, hpc]; rfl
    have hok := hI.ok t
    rw [hpc] at hok
    refine ⟨_, run_ret hrun hc, S, hI.goto .idle trivial rfl fun t' n' hn' => ?_, hlists,
      calls_update rfl fun t' _ => hcalls t'⟩
    rcases eq_or_ne t' t with rfl | hne
    · rw [Function.update_self] at hn'
      exact hok n' hn'
    · rw [Function.update_of_ne hne] at hn'
      exact hI.iter t' n' hn'

theorem sim_init (h1 : 1 ≤ kMaxHeight) (unset : α) :
    Sim kMaxHeight (machine kMaxHeight unset).init ⟨(orderedList α).init, fun _ => none⟩ := by
  have hlinked : ∀ l : Nat, Linked (machine kMaxHeight unset).init.mem.rank {head}
      fun n => (machine kMaxHeight unset).init.mem.next n l := by
    intro l
    refine ⟨Set.injOn_singleton _ _, fun _ h => (by cases h), fun _ h => (by cases h), fun hn _ hj => ?_⟩
    rw [Set.mem_singleton_iff.1 hn, Set.mem_singleton_iff.1 hj]
  refine ⟨fun _ => {head}, ⟨⟨fun _ => rfl, fun h => ?_, fun _ => le_rfl, hlinked, le_rfl, h1⟩, fun _ => trivial,
    fun _ _ _ h => (by cases h), fun h => (by cases h), fun _ _ h => (by cases h)⟩, ⟨.nil, fun k => ?_⟩, fun _ => rfl⟩
  · rw [Set.mem_singleton_iff.1 h]
    exact Nat.one_pos
  · exact ⟨fun h => absurd h List.not_mem_nil, fun ⟨n, hn, hne, _⟩ => absurd hn hne⟩

/-- What holds after a run, with the list that the atomic calls have led to. -/
theorem sim_of_run (h1 : 1 ≤ kMaxHeight) (hmax : kMaxHeight < kMaxPossibleHeight) {unset : α}
    {h : List (Call (Op α) (Res α))} (hrun : (machine kMaxHeight unset).Run (fun _ _ => True) s h) :
    ∃ a, (orderedList α).atomic.Run anyStep a h ∧ Sim kMaxHeight s a := by
  refine hrun.invariant (I := fun s h => ∃ a, (orderedList α).atomic.Run anyStep a h ∧ Sim kMaxHeight s a)
    ⟨_, .init, sim_init h1 unset⟩ ?_
  intro s h act s' es _ ⟨a, ha, hsim⟩ _ he
  exact hsim.step hmax he ha

/-- **The skip list is linearizable**: with any number of threads that insert and read, in any order of their steps, no
assertion fails, and each call acts like one on a sorted list of keys at a moment between its invocation and its return.
An insert returns whether the key was new, a `Seek` leads to the first key that is not before its target, and `Next` to
the first one after the key where the iterator stands. -/
theorem skiplist_linearizable (h1 : 1 ≤ kMaxHeight) (hmax : kMaxHeight < kMaxPossibleHeight) {unset : α}
    {h : List (Call (Op α) (Res α))} (hrun : (machine kMaxHeight unset).Run (fun _ _ => True) s h) :
    (∀ t, s.pcs t ≠ .failed) ∧ (orderedList α).Linearizable h := by
  obtain ⟨a, ha, S, hI, -⟩ := sim_of_run h1 hmax hrun
  refine ⟨fun t ht => ?_, a, ha⟩
  have hok := hI.ok t
  rw [ht] at hok
  exact hok

/-- The thread 1 finds the key 5 of the thread 0 only after its compare-and-swap has failed. -/
def twoInserts : List (Action Nat) :=
  .insert 0 5 2 :: .step 0 1 false :: List.replicate 5 (.step 0 0 false) ++ .insert 1 5 1 ::
    List.replicate 4 (.step 1 1 false) ++ .step 0 0 false :: List.replicate 3 (.step 1 0 false) ++
    [.ret 1, .seek 2 4, .step 2 1 false, .step 2 0 false, .ret 2, .next 2]

def twoInsertsHistory : List (Call (Op Nat) (Res Nat)) :=
  [.invoke 2 (.next 5), .ret 2 (.seek 4) (.at (some 5)), .invoke 2 (.seek 4), .ret 1 (.insert 5) (.inserted false),
    .invoke 1 (.insert 5), .invoke 0 (.insert 5)]

theorem twoInserts_run {y : State Nat × List (Call (Op Nat) (Res Nat))}
    (he : (machine 21 0).exec (fun _ _ => true) (machine 21 0).init [] twoInserts = some y) :
    (machine 21 0).Run (fun _ _ => True) y.1 y.2 :=
  .of_exec (I := fun _ => True) (fun _ _ => trivial) (fun _ _ _ => trivial) trivial .init he

/-- The insert of the thread 1 has returned that the key is in the list, that of the thread 0 has not returned yet. -/
theorem skiplist_linearizable_two : ∃ s, (machine 21 0).Run (fun _ _ => True) s twoInsertsHistory ∧
    (∀ t, s.pcs t ≠ .failed) ∧ (orderedList Nat).Linearizable twoInsertsHistory := by
  have hsome : ((machine 21 0).exec (fun _ _ => true) (machine 21 0).init [] twoInserts).map (fun y => y.2) =
      some twoInsertsHistory := by decide +kernel
  obtain ⟨⟨s, h⟩, hexec, rfl⟩ := Option.map_eq_some_iff.1 hsome
  have hrun := twoInserts_run hexec
  exact ⟨s, hrun, skiplist_linearizable (by decide) (by decide) hrun⟩

/-- **The levels** after any run: the links of each one are a list of nodes in the order of their keys, a part of the
list of the level below, and those of the level 0 are the list that the calls have led to. -/
theorem skiplist_levels (h1 : 1 ≤ kMaxHeight) (hmax : kMaxHeight < kMaxPossibleHeight) {unset : α}
    {h : List (Call (Op α) (Res α))} (hrun : (machine kMaxHeight unset).Run (fun _ _ => True) s h) :
    ∃ (a : SeqObject.State (List α) (Op α) (Res α)) (ns : Nat → List Node), (orderedList α).atomic.Run anyStep a h ∧
      a.value = (ns 0).map s.mem.key ∧ ∀ l, Follows (fun n => s.mem.next n l) head (ns l) ∧
        ((ns l).map s.mem.key).Pairwise (· < ·) ∧ (ns (l + 1)).Sublist (ns l) := by
  obtain ⟨a, ha, S, ⟨hm, -⟩, hlists, -⟩ := sim_of_run h1 hmax hrun
  have hfin : ∀ l, (S l).Finite := fun l => (Set.finite_lt_nat s.mem.size).subset fun n hn => hm.lt_size hn
  choose ns hfollows hsorted hmem using fun l => (hm.linked l).exists_follows (hfin l) (hm.head_mem l)
  have hne : ∀ {l n}, n ∈ ns l → n ∈ S l ∧ n ≠ head := fun hn =>
    ⟨((hmem _ _).1 hn).1, Memory.ne_head_of_lt ((hmem _ _).1 hn).2⟩
  have hkeys : ∀ l, ((ns l).map s.mem.key).Pairwise (· < ·) := by
    intro l
    rw [List.pairwise_map]
    refine (hsorted l).imp_of_mem fun hn hn' hlt => ?_
    rwa [Memory.rank_of_ne (hne hn).2, Memory.rank_of_ne (hne hn').2, WithBot.coe_lt_coe] at hlt
  refine ⟨a, ns, ha, ?_, fun l => ⟨hfollows l, hkeys l, ?_⟩⟩
  · refine hlists.1.eq_of_mem_iff (hkeys 0) fun k => ?_
    rw [hlists.2, List.mem_map]
    constructor
    · rintro ⟨n, hn, hn0, hk⟩
      refine ⟨n, (hmem 0 n).2 ⟨hn, ?_⟩, hk⟩
      rw [Memory.rank_head, Memory.rank_of_ne hn0]
      exact WithBot.bot_lt_coe _
    · rintro ⟨n, hn, hk⟩
      exact ⟨n, (hne hn).1, (hne hn).2, hk⟩
  · exact Linked.sublist_of_subset (hsorted (l + 1)) (hsorted l) fun n hn =>
      (hmem l n).2 ⟨hm.nested l (hne hn).1, ((hmem (l + 1) n).1 hn).2⟩

/-- In that run the node of the thread 0 has two levels, and is linked at the first one. -/
theorem skiplist_levels_two : ∃ (s : State Nat) (a : SeqObject.State (List Nat) (Op Nat) (Res Nat))
    (ns : Nat → List Node), (machine 21 0).Run (fun _ _ => True) s twoInsertsHistory ∧ s.mem.height 1 = 2 ∧
      s.mem.next head 0 = some 1 ∧ s.mem.next head 1 = none ∧
      a.value = (ns 0).map s.mem.key ∧ ∀ l, Follows (fun n => s.mem.next n l) head (ns l) ∧
        ((ns l).map s.mem.key).Pairwise (· < ·) ∧ (ns (l + 1)).Sublist (ns l) := by
  have hsome : ((machine 21 0).exec (fun _ _ => true) (machine 21 0).init [] twoInserts).map (fun y =>
      (y.2, y.1.mem.height 1, y.1.mem.next head 0, y.1.mem.next head 1)) =
        some (twoInsertsHistory, 2, some 1, none) := by decide +kernel
  obtain ⟨⟨s, h⟩, hexec, heq⟩ := Option.map_eq_some_iff.1 hsome
  simp only [Prod.mk.injEq] at heq
  obtain ⟨rfl, hheight, h0, h1⟩ := heq
  have hrun := twoInserts_run hexec
  obtain ⟨a, ns, -, hvalue, hlevels⟩ := skiplist_levels (by decide) (by decide) hrun
  exact ⟨s, a, ns, hrun, hheight, h0, h1, hvalue, hlevels⟩

end SkipList
end Chime

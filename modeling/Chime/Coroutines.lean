import Chime.Lib.Machine
import Mathlib.Data.Finset.Card
import Mathlib.Data.Finset.Range
import Mathlib.Data.List.Nodup

/-!
# The coroutines of a thread (`Tree::run_coroutine`, `Tree::coro_worker`)

A thread runs its requests in `coro_cnt` coroutines. A coroutine gives control back after it has posted a signaled work
request with its number, or after it has put its number into `busy_waiting_queue`. The main loop resumes the coroutine
of one completion, if there is one, and the one at the front of the queue. In every order of the completions, a
coroutine that waits has exactly one of a request, a completion and a place in the queue, so that the loop never resumes
one that does not wait (`coroutines_wait`), and from when it has the completion or the place, fewer than `2 * coro_cnt`
coroutines are resumed before it is (`coroutines_fair`).
-/

namespace Chime
namespace Coroutines

inductive Status
  | fresh
  | running
  | suspended
  | finished
  deriving DecidableEq, Repr

/-- Where `run_coroutine` stands. -/
inductive Loop
  /-- `workers[i](i)` -/
  | start (i : Nat)
  /-- `while (!need_stop)` -/
  | check
  /-- `poll_rdma_cq_once` -/
  | poll
  /-- `busy_waiting_queue.front()` -/
  | pop
  | done
  deriving DecidableEq, Repr

structure State where
  loop : Loop
  /-- the coroutine that has control -/
  running : Option Nat
  status : Nat → Status
  busyWaitingQueue : List Nat
  /-- the requests that are not completed -/
  requests : List Nat
  /-- the completions that were not polled -/
  completions : List Nat
  needStop : Bool
  /-- a coroutine was resumed that does not wait -/
  crashed : Bool

inductive Action
  /-- the next step of `run_coroutine` -/
  | loop
  /-- the coroutine posts a request and waits -/
  | post
  /-- it goes to the end of the queue and waits -/
  | wait
  /-- it returns, at the end of a request -/
  | finish
  | complete (c : Nat)
  /-- `need_stop` is set -/
  | stop
  deriving DecidableEq, Repr

inductive Event
  | started (c : Nat)
  | resumed (c : Nat)
  deriving DecidableEq, Repr

def Event.isResumed : Event → Bool
  | started _ => false
  | resumed _ => true

/-- A coroutine gets control. -/
def State.resume (s : State) (c : Nat) (loop : Loop) : State :=
  if s.status c = .fresh ∨ s.status c = .suspended then
    { s with loop, running := some c, status := Function.update s.status c .running }
  else { s with loop, crashed := true }

/-- It gives control back. -/
def State.leave (s : State) (c : Nat) (status : Status) : State :=
  { s with running := none, status := Function.update s.status c status }

variable (coroCnt : Nat)

def loopStep (s : State) : Option (State × List Event) :=
  match s.loop with
  | .start i =>
    if i < coroCnt then some (s.resume i (.start (i + 1)), [.started i]) else some ({ s with loop := .check }, [])
  | .check => some ({ s with loop := if s.needStop then .done else .poll }, [])
  | .poll =>
    match s.completions with
    | [] => some ({ s with loop := .pop }, [])
    | c :: completions => some ({ s with completions }.resume c .pop, [.resumed c])
  | .pop =>
    match s.busyWaitingQueue with
    | [] => some ({ s with loop := .check }, [])
    | c :: busyWaitingQueue => some ({ s with busyWaitingQueue }.resume c .check, [.resumed c])
  | .done => none

def step (s : State) : Action → Option (State × List Event)
  | .loop => if s.crashed ∨ s.running ≠ none then none else loopStep coroCnt s
  | .post => s.running.map fun c => ({ s.leave c .suspended with requests := c :: s.requests }, [])
  | .wait => s.running.map fun c => ({ s.leave c .suspended with busyWaitingQueue := s.busyWaitingQueue ++ [c] }, [])
  | .finish => if s.needStop then s.running.map fun c => (s.leave c .finished, []) else none
  | .complete c =>
    if c ∈ s.requests then
      some ({ s with requests := s.requests.erase c, completions := s.completions ++ [c] }, [])
    else none
  | .stop => some ({ s with needStop := true }, [])

def machine : Machine State Action Event :=
  ⟨⟨.start 0, none, fun _ => .fresh, [], [], [], false, false⟩, step coroCnt⟩

/-- How often a coroutine is going to be resumed. -/
def State.wakes (s : State) (c : Nat) : Nat :=
  s.busyWaitingQueue.count c + s.requests.count c + s.completions.count c

/-- The coroutines that were started. -/
def State.startedCnt (s : State) : Nat :=
  match s.loop with
  | .start i => i
  | _ => coroCnt

/-- What holds between the steps. -/
structure Inv (s : State) : Prop where
  crashed : s.crashed = false
  wakes : ∀ c, s.wakes c = if s.status c = .suspended then 1 else 0
  running : ∀ c, s.running = some c ↔ s.status c = .running
  started : s.startedCnt coroCnt ≤ coroCnt
  fresh : ∀ c, s.status c = .fresh ↔ s.startedCnt coroCnt ≤ c

variable {coroCnt} {s s' : State} {es h h' : List Event} {a : Action} {c : Nat}

/-! ## The steps -/

/-- A waiting coroutine of the front of a line is resumed. -/
theorem Inv.resume (h : Inv coroCnt s) {s₁ : State} {loop : Loop} (hnone : s.running = none)
    (hstatus : s₁.status = s.status) (hcrashed : s₁.crashed = false) (hc : 0 < s.wakes c)
    (hwakes : ∀ d, s₁.wakes d + (if d = c then 1 else 0) = s.wakes d) (hloop : ∀ i, loop ≠ .start i)
    (hstarted : ∀ i, s.loop ≠ .start i) : Inv coroCnt (s₁.resume c loop) := by
  have hsuspended : s.status c = .suspended := by
    by_contra hno
    rw [h.wakes, if_neg hno] at hc
    cases hc
  have hcnt : ∀ {s : State}, (∀ i, s.loop ≠ .start i) → s.startedCnt coroCnt = coroCnt := by
    intro s hno
    rw [State.startedCnt]
    split
    · rename_i i hi
      exact absurd hi (hno i)
    · rfl
  have heq : s₁.resume c loop = { s₁ with loop, running := some c, status := Function.update s₁.status c .running } :=
    if_pos (.inr (by rw [hstatus, hsuspended]))
  have hnew : (s₁.resume c loop).startedCnt coroCnt = coroCnt := hcnt (by rw [heq]; exact hloop)
  have hold := hcnt hstarted
  refine ⟨by rw [heq]; exact hcrashed, fun d => ?_, fun d => ?_, hnew.le, fun d => ?_⟩
  · have hd := hwakes d
    rw [h.wakes] at hd
    rw [heq]
    change s₁.wakes d = _
    rcases eq_or_ne d c with rfl | hdc
    · rw [if_pos rfl, if_pos hsuspended] at hd
      simp only [Function.update_self]
      rw [if_neg (by decide)]
      omega
    · rw [if_neg hdc] at hd
      simp only [Function.update_of_ne hdc, hstatus]
      omega
  · rw [heq]
    rcases eq_or_ne d c with rfl | hdc
    · simp
    · have hno : s.status d ≠ .running := fun hr => by
        have := (h.running d).2 hr
        rw [hnone] at this
        cases this
      simp [hdc, hdc.symm, hstatus, hno]
  · rw [hnew, heq]
    rcases eq_or_ne d c with rfl | hdc
    · have hfresh := h.fresh d
      rw [hsuspended, hold] at hfresh
      simp only [Function.update_self]
      exact ⟨fun hd => (by cases hd), fun hle => (by cases hfresh.2 hle)⟩
    · simp only [Function.update_of_ne hdc, hstatus]
      rw [h.fresh, hold]

/-- The loop goes on without a coroutine. -/
theorem Inv.goto (h : Inv coroCnt s) {loop : Loop}
    (hcnt : ({ s with loop } : State).startedCnt coroCnt = s.startedCnt coroCnt) : Inv coroCnt { s with loop } :=
  ⟨h.crashed, h.wakes, h.running, hcnt ▸ h.started, fun d => hcnt ▸ h.fresh d⟩

/-- A coroutine is started. -/
theorem Inv.start {i : Nat} (h : Inv coroCnt s) (hnone : s.running = none) (hloop : s.loop = .start i)
    (hi : i < coroCnt) : Inv coroCnt (s.resume i (.start (i + 1))) := by
  have hcnt : s.startedCnt coroCnt = i := by rw [State.startedCnt, hloop]
  have hfresh : s.status i = .fresh := (h.fresh i).2 hcnt.le
  have heq : s.resume i (.start (i + 1)) =
      { s with loop := .start (i + 1), running := some i, status := Function.update s.status i .running } :=
    if_pos (.inl hfresh)
  rw [heq]
  refine ⟨h.crashed, fun d => ?_, fun d => ?_, hi, fun d => ?_⟩
  · refine (h.wakes d).trans ?_
    rcases eq_or_ne d i with rfl | hd
    · simp [hfresh]
    · simp [hd]
  · rcases eq_or_ne d i with rfl | hd
    · simp
    · have hno : s.status d ≠ .running := fun hr => by
        have := (h.running d).2 hr
        rw [hnone] at this
        cases this
      simp [hd, hd.symm, hno]
  · rcases eq_or_ne d i with rfl | hd
    · simp [State.startedCnt]
    · simp only [State.startedCnt, Function.update_of_ne hd]
      rw [h.fresh, hcnt]
      omega

/-- The running coroutine waits, in one way. -/
theorem Inv.leave (h : Inv coroCnt s) {s₁ : State} {status : Status} (hc : s.running = some c)
    (hs₁ : s₁.status = Function.update s.status c status) (hnone : s₁.running = none)
    (hcrashed : s₁.crashed = s.crashed) (hloop : s₁.loop = s.loop) (hrunning : status ≠ .running)
    (hfresh : status ≠ .fresh)
    (hwakes : ∀ d, s₁.wakes d = s.wakes d + if d = c ∧ status = .suspended then 1 else 0) : Inv coroCnt s₁ := by
  have hstatus := (h.running c).1 hc
  have hcnt : s₁.startedCnt coroCnt = s.startedCnt coroCnt := by rw [State.startedCnt, State.startedCnt, hloop]
  refine ⟨hcrashed.trans h.crashed, fun d => ?_, fun d => ?_, hcnt ▸ h.started, fun d => ?_⟩
  · rw [hwakes, h.wakes, hs₁]
    rcases eq_or_ne d c with rfl | hdc
    · rw [hstatus, Function.update_self]
      simp
    · have hno : ¬(d = c ∧ status = .suspended) := fun hd => hdc hd.1
      rw [Function.update_of_ne hdc, if_neg hno, Nat.add_zero]
  · rw [hnone, hs₁]
    rcases eq_or_ne d c with rfl | hdc
    · simp [hrunning]
    · rw [Function.update_of_ne hdc, ← h.running d, hc]
      simp [hdc.symm]
  · rw [hcnt, hs₁]
    rcases eq_or_ne d c with rfl | hdc
    · rw [Function.update_self, ← h.fresh d, hstatus]
      simp [hfresh]
    · rw [Function.update_of_ne hdc, h.fresh]

theorem Inv.step (h : Inv coroCnt s) (hs : step coroCnt s a = some (s', es)) : Inv coroCnt s' := by
  cases a with
  | loop =>
    simp only [Coroutines.step] at hs
    split at hs
    · cases hs
    rename_i hno
    obtain ⟨-, hnone⟩ := not_or.1 hno
    have hnone : s.running = none := not_not.1 hnone
    simp only [loopStep] at hs
    split at hs
    · rename_i i hloop
      split at hs
      · rename_i hi
        cases hs
        exact h.start hnone hloop hi
      · rename_i hi
        cases hs
        have hstarted := h.started
        simp only [State.startedCnt, hloop] at hstarted
        exact h.goto (by simp only [State.startedCnt, hloop]; omega)
    · rename_i hloop
      cases hs
      refine h.goto ?_
      cases s.needStop <;> simp [State.startedCnt, hloop]
    · rename_i hloop
      split at hs
      · cases hs
        exact h.goto (by simp only [State.startedCnt, hloop])
      · rename_i d completions hcq
        cases hs
        refine h.resume hnone rfl h.crashed ?_ (fun e => ?_) (fun i hi => by cases hi) fun i hi => ?_
        · simp only [State.wakes, hcq, List.count_cons_self]
          omega
        · simp only [State.wakes, hcq, List.count_cons, beq_iff_eq]
          rcases eq_or_ne e d with rfl | hed
          · simp only [if_pos]
            omega
          · rw [if_neg hed, if_neg hed.symm]
            omega
        · rw [hloop] at hi
          cases hi
    · rename_i hloop
      split at hs
      · cases hs
        exact h.goto (by simp only [State.startedCnt, hloop])
      · rename_i d queue hq
        cases hs
        refine h.resume hnone rfl h.crashed ?_ (fun e => ?_) (fun i hi => by cases hi) fun i hi => ?_
        · simp only [State.wakes, hq, List.count_cons_self]
          omega
        · simp only [State.wakes, hq, List.count_cons, beq_iff_eq]
          rcases eq_or_ne e d with rfl | hed
          · simp only [if_pos]
            omega
          · rw [if_neg hed, if_neg hed.symm]
            omega
        · rw [hloop] at hi
          cases hi
    · cases hs
  | post =>
    obtain ⟨c, hc, he⟩ := Option.map_eq_some_iff.1 hs
    cases he
    refine h.leave hc rfl rfl rfl rfl (by decide) (by decide) fun d => ?_
    simp only [State.wakes, State.leave, List.count_cons, and_true, beq_iff_eq, eq_comm (a := d)]
    omega
  | wait =>
    obtain ⟨c, hc, he⟩ := Option.map_eq_some_iff.1 hs
    cases he
    refine h.leave hc rfl rfl rfl rfl (by decide) (by decide) fun d => ?_
    simp only [State.wakes, State.leave, List.count_append, List.count_singleton, and_true, beq_iff_eq,
      eq_comm (a := d)]
    omega
  | finish =>
    simp only [Coroutines.step] at hs
    split at hs
    · obtain ⟨c, hc, he⟩ := Option.map_eq_some_iff.1 hs
      cases he
      exact h.leave hc rfl rfl rfl rfl (by decide) (by decide) fun d => by simp [State.wakes, State.leave]
    · cases hs
  | complete c =>
    simp only [Coroutines.step] at hs
    split at hs
    · rename_i hc
      cases hs
      refine ⟨h.crashed, fun d => ?_, h.running, h.started, h.fresh⟩
      rw [← h.wakes d]
      simp only [State.wakes, List.count_append, List.count_singleton, beq_iff_eq]
      rcases eq_or_ne c d with rfl | hcd
      · have := List.count_pos_iff.2 hc
        rw [List.count_erase_self, if_pos rfl]
        omega
      · rw [List.count_erase_of_ne hcd.symm, if_neg hcd]
        omega
    · cases hs
  | stop =>
    cases hs
    exact ⟨h.crashed, h.wakes, h.running, h.started, h.fresh⟩

theorem init_inv : Inv coroCnt (machine coroCnt).init where
  crashed := rfl
  wakes _ := rfl
  running c := ⟨fun h => (by cases h), fun h => (by cases h)⟩
  started := Nat.zero_le _
  fresh c := ⟨fun _ => Nat.zero_le c, fun _ => rfl⟩

theorem run_inv (hrun : (machine coroCnt).Run (fun _ _ => True) s h) : Inv coroCnt s :=
  hrun.invariant (I := fun s _ => Inv coroCnt s) init_inv fun _ hinv _ hs => hinv.step hs

/-- **Waiting coroutines**: in every run, no coroutine is resumed that does not wait, and one that waits is going to be
resumed once: by a request, a completion or its place in the queue. -/
theorem coroutines_wait (hrun : (machine coroCnt).Run (fun _ _ => True) s h) :
    s.crashed = false ∧ ∀ c, s.wakes c = if s.status c = .suspended then 1 else 0 :=
  ⟨(run_inv hrun).crashed, (run_inv hrun).wakes⟩

/-- The first coroutine waits for a completion, the second one in the queue. -/
def bothWait : List Action := [.loop, .post, .loop, .wait, .loop, .loop, .complete 0]

theorem coroutines_wait_two : ∃ s h, (machine 2).Run (fun _ _ => True) s h ∧ s.completions = [0] ∧
    s.busyWaitingQueue = [1] ∧ s.crashed = false ∧ ∀ c, s.wakes c = if s.status c = .suspended then 1 else 0 := by
  have hsome : (((machine 2).exec (fun _ _ => true) (machine 2).init [] bothWait).map fun y =>
      (y.1.completions, y.1.busyWaitingQueue)) = some ([0], [1]) := by decide +kernel
  obtain ⟨⟨s, h⟩, hexec, heq⟩ := Option.map_eq_some_iff.1 hsome
  obtain ⟨hcq, hq⟩ := Prod.mk.inj heq
  have hrun : (machine 2).Run (fun _ _ => True) s h := .of_exec (I := fun _ => True) (fun _ _ => trivial)
    (fun _ _ _ => trivial) trivial .init hexec
  exact ⟨s, h, hrun, hcq, hq, coroutines_wait hrun⟩

/-! ## Fairness -/

namespace Loop

/-- A completion can be polled before the queue is popped. -/
def queueTurn : Loop → Nat
  | start _ | check | poll => 1
  | pop | done => 0

/-- The queue can be popped before a completion is polled. -/
def completionTurn : Loop → Nat
  | pop => 1
  | _ => 0

theorem queueTurn_le (loop : Loop) : loop.queueTurn ≤ 1 := by cases loop <;> simp [queueTurn]

theorem completionTurn_le (loop : Loop) : loop.completionTurn ≤ 1 := by cases loop <;> simp [completionTurn]

end Loop

/-- What a step does to the queue and to the completions. -/
inductive Passes (s : State) : State → List Event → Prop
  /-- nobody is resumed -/
  | go {s' : State} {es : List Event} : es.countP Event.isResumed = 0 → s.busyWaitingQueue <+: s'.busyWaitingQueue →
      s.completions <+: s'.completions → s'.loop.queueTurn ≤ s.loop.queueTurn ∨ s.busyWaitingQueue = [] →
      s'.loop.completionTurn ≤ s.loop.completionTurn ∨ s.completions = [] → Passes s s' es
  | poll {s' : State} {d : Nat} : s.loop = .poll → s'.loop = .pop → s.completions = d :: s'.completions →
      s'.busyWaitingQueue = s.busyWaitingQueue → Passes s s' [.resumed d]
  | pop {s' : State} {d : Nat} : s.loop = .pop → s'.loop = .check → s.busyWaitingQueue = d :: s'.busyWaitingQueue →
      s'.completions = s.completions → Passes s s' [.resumed d]

theorem State.resume_eq (s : State) (c : Nat) (loop : Loop) : (s.resume c loop).loop = loop ∧
    (s.resume c loop).busyWaitingQueue = s.busyWaitingQueue ∧ (s.resume c loop).completions = s.completions := by
  unfold State.resume
  split <;> exact ⟨rfl, rfl, rfl⟩

theorem loopStep_passes (hs : loopStep coroCnt s = some (s', es)) : Passes s s' es := by
  simp only [loopStep] at hs
  split at hs
  · rename_i i hloop
    split at hs
    · cases hs
      obtain ⟨hl, hq, hc⟩ := s.resume_eq i (.start (i + 1))
      exact .go rfl (hq ▸ List.prefix_rfl) (hc ▸ List.prefix_rfl) (.inl (by rw [hl, hloop]; exact le_rfl))
        (.inl (by rw [hl, hloop]; exact le_rfl))
    · cases hs
      exact .go rfl List.prefix_rfl List.prefix_rfl (.inl (by rw [hloop]; exact le_rfl))
        (.inl (by rw [hloop]; exact le_rfl))
  · rename_i hloop
    cases hs
    refine .go rfl List.prefix_rfl List.prefix_rfl (.inl ?_) (.inl ?_)
    · rw [hloop]
      exact Loop.queueTurn_le _
    · simp only
      split <;> exact Nat.zero_le _
  · rename_i hloop
    split at hs
    · rename_i hcq
      cases hs
      exact .go rfl List.prefix_rfl List.prefix_rfl (.inl (Nat.zero_le _)) (.inr hcq)
    · rename_i d completions hcq
      cases hs
      obtain ⟨hl, hq, hc⟩ := ({ s with completions } : State).resume_eq d .pop
      exact .poll hloop hl (by rw [hc, hcq]) hq
  · rename_i hloop
    split at hs
    · rename_i hq
      cases hs
      exact .go rfl List.prefix_rfl List.prefix_rfl (.inr hq) (.inl (Nat.zero_le _))
    · rename_i d busyWaitingQueue hq
      cases hs
      obtain ⟨hl, hq', hc⟩ := ({ s with busyWaitingQueue } : State).resume_eq d .check
      exact .pop hloop hl (by rw [hq', hq]) hc
  · cases hs

theorem step_passes (hs : step coroCnt s a = some (s', es)) : Passes s s' es := by
  cases a with
  | loop =>
    simp only [step] at hs
    split at hs
    · cases hs
    · exact loopStep_passes hs
  | post =>
    obtain ⟨c, -, he⟩ := Option.map_eq_some_iff.1 hs
    cases he
    exact .go rfl List.prefix_rfl List.prefix_rfl (.inl le_rfl) (.inl le_rfl)
  | wait =>
    obtain ⟨c, -, he⟩ := Option.map_eq_some_iff.1 hs
    cases he
    exact .go rfl (List.prefix_append _ _) List.prefix_rfl (.inl le_rfl) (.inl le_rfl)
  | finish =>
    simp only [step] at hs
    split at hs
    · obtain ⟨c, -, he⟩ := Option.map_eq_some_iff.1 hs
      cases he
      exact .go rfl List.prefix_rfl List.prefix_rfl (.inl le_rfl) (.inl le_rfl)
    · cases hs
  | complete c =>
    simp only [step] at hs
    split at hs
    · cases hs
      exact .go rfl List.prefix_rfl (List.prefix_append _ _) (.inl le_rfl) (.inl le_rfl)
    · cases hs
  | stop =>
    cases hs
    exact .go rfl List.prefix_rfl List.prefix_rfl (.inl le_rfl) (.inl le_rfl)

/-- How many coroutines may be resumed before one in a line, which takes turns with another line. -/
def potential (line : List Nat) (turn c : Nat) : Nat := 2 * line.idxOf c + turn

section Potential

variable {line line' : List Nat} {turn turn' d : Nat}

/-- Others come to the end of the line. -/
theorem potential_prefix (hc : c ∈ line) (hline : line <+: line') (hturn : turn' ≤ turn ∨ line = []) :
    c ∈ line' ∧ potential line' turn' c ≤ potential line turn c := by
  obtain ⟨l, rfl⟩ := hline
  refine ⟨List.mem_append_left _ hc, ?_⟩
  rcases hturn with hturn | rfl
  · rw [potential, potential, List.idxOf_append_of_mem hc]
    omega
  · cases hc

/-- Another one leaves the line. -/
theorem potential_cons (hc : c ∈ d :: line) (hne : d ≠ c) :
    c ∈ line ∧ 1 + potential line 1 c ≤ potential (d :: line) 0 c := by
  refine ⟨(List.mem_cons.1 hc).resolve_left hne.symm, ?_⟩
  rw [potential, potential, List.idxOf_cons_ne _ hne]
  omega

end Potential

theorem Passes.queue (hp : Passes s s' es) (hc : c ∈ s.busyWaitingQueue) (hno : .resumed c ∉ es) :
    c ∈ s'.busyWaitingQueue ∧ es.countP Event.isResumed + potential s'.busyWaitingQueue s'.loop.queueTurn c ≤
      potential s.busyWaitingQueue s.loop.queueTurn c := by
  cases hp with
  | go hnone hq _ hturn _ =>
    rw [hnone, Nat.zero_add]
    exact potential_prefix hc hq hturn
  | poll hl hl' _ hq =>
    refine ⟨hq ▸ hc, ?_⟩
    rw [hl, hl', hq, potential, potential]
    simp only [List.countP_singleton, Event.isResumed, Loop.queueTurn, if_pos]
    omega
  | @pop d hl hl' hq _ =>
    rw [hq] at hc ⊢
    rw [hl, hl']
    exact potential_cons hc fun he => hno (he ▸ List.mem_singleton_self _)

theorem Passes.completion (hp : Passes s s' es) (hc : c ∈ s.completions) (hno : .resumed c ∉ es) :
    c ∈ s'.completions ∧ es.countP Event.isResumed + potential s'.completions s'.loop.completionTurn c ≤
      potential s.completions s.loop.completionTurn c := by
  cases hp with
  | go hnone _ hcq _ hturn =>
    rw [hnone, Nat.zero_add]
    exact potential_prefix hc hcq hturn
  | @poll d hl hl' hcq _ =>
    rw [hcq] at hc ⊢
    rw [hl, hl']
    exact potential_cons hc fun he => hno (he ▸ List.mem_singleton_self _)
  | pop hl hl' _ hcq =>
    refine ⟨hcq ▸ hc, ?_⟩
    rw [hl, hl', hcq, potential, potential]
    simp only [List.countP_singleton, Event.isResumed, Loop.completionTurn, if_pos]
    omega

/-- A line has no coroutine twice. -/
theorem Inv.length_le (h : Inv coroCnt s) {line : List Nat} (hline : ∀ c, line.count c ≤ s.wakes c) :
    line.length ≤ coroCnt := by
  have hnodup : line.Nodup := List.nodup_iff_count_le_one.2 fun c => by
    have := hline c
    rw [h.wakes] at this
    split at this <;> omega
  have hsub : line.toFinset ⊆ Finset.range coroCnt := by
    intro c hc
    have hpos := List.count_pos_iff.2 (List.mem_toFinset.1 hc)
    have hle := hline c
    rw [h.wakes] at hle
    have hsuspended : s.status c = .suspended := by
      by_contra hno
      rw [if_neg hno] at hle
      omega
    have hfresh := h.fresh c
    rw [hsuspended] at hfresh
    have hlt : c < s.startedCnt coroCnt := not_le.1 fun hle => by cases hfresh.2 hle
    exact Finset.mem_range.2 (hlt.trans_le h.started)
  have hcard := Finset.card_le_card hsub
  rwa [List.toFinset_card_of_nodup hnodup, Finset.card_range] at hcard

/-- **Fairness**: in every run, fewer than `2 * coro_cnt` coroutines are resumed between the moment when a coroutine has
a place in the queue or a completion and the moment when it is resumed. -/
theorem coroutines_fair (hrun : (machine coroCnt).Run (fun _ _ => True) s h)
    (hc : c ∈ s.busyWaitingQueue ∨ c ∈ s.completions)
    (hsteps : (machine coroCnt).Steps (fun _ _ => True) s h s' (es ++ h)) (hno : .resumed c ∉ es) :
    es.countP Event.isResumed < 2 * coroCnt := by
  have hinv := run_inv hrun
  have hbad : ∀ e ∈ es, ¬e = .resumed c := fun e he hec => hno (hec ▸ he)
  have hbound : ∀ {line : List Nat} {turn : Nat}, c ∈ line → line.length ≤ coroCnt → turn ≤ 1 →
      potential line turn c < 2 * coroCnt := by
    intro line turn hmem hlen hturn
    have := List.idxOf_lt_length_of_mem hmem
    rw [potential]
    omega
  rcases hc with hc | hc
  · have hle := (Machine.Steps.bounded (P := fun s => c ∈ s.busyWaitingQueue)
      (f := fun s => potential s.busyWaitingQueue s.loop.queueTurn c) (B := fun e => e = .resumed c)
      (fun hP _ hs hno => (step_passes hs).queue hP fun hmem => hno _ hmem rfl) hsteps hc es rfl hbad).2
    have hlen : s.busyWaitingQueue.length ≤ coroCnt := hinv.length_le fun d => by
      rw [State.wakes]
      omega
    have := hbound hc hlen s.loop.queueTurn_le
    omega
  · have hle := (Machine.Steps.bounded (P := fun s => c ∈ s.completions)
      (f := fun s => potential s.completions s.loop.completionTurn c) (B := fun e => e = .resumed c)
      (fun hP _ hs hno => (step_passes hs).completion hP fun hmem => hno _ hmem rfl) hsteps hc es rfl hbad).2
    have hlen : s.completions.length ≤ coroCnt := hinv.length_le fun d => by
      rw [State.wakes]
      omega
    have := hbound hc hlen s.loop.completionTurn_le
    omega

/-- The second coroutine waits in the queue while the first one is resumed. -/
theorem coroutines_fair_two : ∃ s h s', (machine 2).Run (fun _ _ => True) s h ∧ s.busyWaitingQueue = [1] ∧
    (machine 2).Steps (fun _ _ => True) s h s' ([.resumed 0] ++ h) ∧
    [Event.resumed 0].countP Event.isResumed < 2 * 2 := by
  have hsome : (((machine 2).exec (fun _ _ => true) (machine 2).init [] bothWait).bind fun x =>
      ((machine 2).exec (fun _ _ => true) x.1 x.2 [.loop, .wait]).map fun y => (x.1.busyWaitingQueue, x.2, y.2)) =
      some ([1], [.started 1, .started 0], [.resumed 0, .started 1, .started 0]) := by decide +kernel
  obtain ⟨⟨s, h⟩, hexec, heq⟩ := Option.bind_eq_some_iff.1 hsome
  obtain ⟨⟨s', h'⟩, hexec', heq⟩ := Option.map_eq_some_iff.1 heq
  simp only [Prod.mk.injEq] at heq
  obtain ⟨hq, rfl, rfl⟩ := heq
  have hrun : (machine 2).Run (fun _ _ => True) s _ := .of_exec (I := fun _ => True) (fun _ _ => trivial)
    (fun _ _ _ => trivial) trivial .init hexec
  have hsteps : (machine 2).Steps (fun _ _ => True) s _ s' _ := .of_exec (fun _ _ _ => trivial) hexec'
  exact ⟨s, _, s', hrun, hq, hsteps, coroutines_fair (c := 1) hrun (.inl (by rw [hq]; decide)) hsteps (by decide)⟩

end Coroutines
end Chime

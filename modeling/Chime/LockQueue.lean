import Chime.Lib.Clients
import Chime.Lib.TicketQueue
import Chime.LockTable

/-!
# Mutual exclusion in the local lock table
-/

namespace Chime

namespace LocalLockNode

variable (n : LocalLockNode) (σ ρ : Side) (q : WaitingQueue)

@[simp] theorem queue_setQueue : (n.setQueue σ q).queue σ = q := Function.update_self _ _ _

@[simp] theorem queue_setQueue_of_ne (h : ρ ≠ σ) : (n.setQueue σ q).queue ρ = n.queue ρ := Function.update_of_ne h _ _

@[simp] theorem queue_closeWindow : n.closeWindow.queue = n.queue := by
  unfold closeWindow
  split <;> rfl

@[simp] theorem wcBuffer_setQueue : (n.setQueue σ q).wcBuffer = n.wcBuffer := rfl

@[simp] theorem wcBuffer_closeWindow : n.closeWindow.wcBuffer = n.wcBuffer := by
  unfold closeWindow
  split <;> rfl

end LocalLockNode

theorem Side.other_ne (σ : Side) : σ.other ≠ σ := by cases σ <;> decide

namespace Op

/-- The operation holds the lock: it is past the wait, and has neither released nor given up on a conflict of keys. -/
def holds (o : Op) : Bool :=
  match o.pc with
  | .cas | .combine _ | .takeTicket | .wait _ | .leave => false
  | .remoteRead | .loadUnique | .loadBuffer | .remoteWrite => !o.acquireRet.2
  | _ => true

/-- The operation has a ticket that is not served yet. -/
def queued (o : Op) : Bool :=
  match o.pc with
  | .wait _ => true
  | _ => o.holds

/-- What a step does to the counters of its own queue. -/
inductive TicketMove (o : Op) (q q' : WaitingQueue) : Option Op → Prop
  | outside {o' : Option Op} : o.queued = false → q'.ticket = q.ticket → q'.current = q.current →
      (∀ p, o' = some p → p.queued = false) → TicketMove o q q' o'
  | enter {p : Op} : o.queued = false → q'.ticket = q.ticket + 1 → q'.current = q.current → p.pc = .wait q.ticket →
      TicketMove o q q' (some p)
  | spin {t : UInt8} : o.pc = .wait t → q' = q → TicketMove o q q' (some o)
  | first {p : Op} : o.pc = .wait q.current → q' = q → p.holds = true → TicketMove o q q' (some p)
  | stay {p : Op} : o.holds = true → q'.ticket = q.ticket → q'.current = q.current → p.holds = true →
      TicketMove o q q' (some p)
  | pass {p : Op} : o.holds = true → q'.ticket = q.ticket → q'.current = q.current + 1 → p.queued = false →
      TicketMove o q q' (some p)

end Op

/-- The operation after the step, if it has not returned. -/
def Outcome.next : Outcome → Option Op
  | .goto o | .write o => some o
  | .ret => none

namespace Op

variable (o : Op) (n : LocalLockNode) (r : Nat)

@[simp] theorem at'_pc (pc : Pc) : (o.at' pc).pc = pc := rfl

@[simp] theorem at'_side (pc : Pc) : (o.at' pc).side = o.side := rfl

@[simp] theorem at'_key (pc : Pc) : (o.at' pc).key = o.key := rfl

@[simp] theorem at'_acquireRet (pc : Pc) : (o.at' pc).acquireRet = o.acquireRet := rfl

theorem body_same : o.body.side = o.side ∧ o.body.key = o.key := by
  unfold body
  split <;> exact ⟨rfl, rfl⟩

theorem afterAccess_same : o.afterAccess.side = o.side ∧ o.afterAccess.key = o.key := by
  unfold afterAccess
  split <;> exact ⟨rfl, rfl⟩

/-- After a conflict of keys the operation goes on without the lock. -/
theorem conflict_queued : o.conflict.queued = false := by
  obtain ⟨side, key, value, res, ret, pc⟩ := o
  cases side <;> rfl

/-- Past the last check the operation goes on with the lock. -/
theorem body_holds (h : o.acquireRet.2 = false) : o.body.holds = true := by
  obtain ⟨side, key, value, res, ⟨ho, co⟩, pc⟩ := o
  cases h
  cases side <;> cases ho <;> rfl

theorem afterAccess_holds (h : o.acquireRet.2 = false) : o.afterAccess.holds = true := by
  obtain ⟨side, key, value, res, ⟨ho, co⟩, pc⟩ := o
  cases h
  cases side <;> rfl

theorem afterAccess_queued (h : o.acquireRet.2 = true) : o.afterAccess.queued = false := by
  obtain ⟨side, key, value, res, ⟨ho, co⟩, pc⟩ := o
  cases h
  rfl

/-- **Tickets**: what a step does to the counters of its queue. -/
theorem step_tickets : TicketMove o (n.queue o.side) ((o.step n r).1.queue o.side) (o.step n r).2.next := by
  obtain ⟨side, key, value, res, ret, pc⟩ := o
  cases pc with
  | cas =>
    simp only [step, acquireLocalLock]
    split
    · cases side <;> exact .outside rfl (by simp) (by simp) (by rintro _ ⟨⟩; rfl)
    · split
      · exact .outside rfl rfl rfl (by rintro _ ⟨⟩; exact conflict_queued _)
      · cases side <;> exact .outside rfl rfl rfl (by rintro _ ⟨⟩; rfl)
  | combine => exact .outside rfl rfl rfl (by rintro _ ⟨⟩; rfl)
  | takeTicket => exact .enter rfl (by simp [step, acquireLocalLock]) (by simp [step, acquireLocalLock]) rfl
  | wait t =>
    simp only [step, acquireLocalLock]
    split
    · exact .spin rfl rfl
    · rename_i h
      obtain rfl := not_not.1 h
      exact .first rfl rfl rfl
  | bailNext =>
    exact .pass rfl (by simp [step, acquireLocalLock]) (by simp [step, acquireLocalLock]) (conflict_queued _)
  | loadHandover => exact .stay rfl rfl rfl (body_holds _ rfl)
  | remoteRead =>
    cases hc : ret.2 with
    | false => exact .stay (by simp [holds, hc]) rfl rfl (afterAccess_holds _ hc)
    | true => exact .outside (by simp [queued, holds, hc]) rfl rfl (by rintro _ ⟨⟩; exact afterAccess_queued _ hc)
  | remoteWrite =>
    cases hc : ret.2 with
    | false => exact .stay (by simp [holds, hc]) rfl rfl (afterAccess_holds _ hc)
    | true => exact .outside (by simp [queued, holds, hc]) rfl rfl (by rintro _ ⟨⟩; exact afterAccess_queued _ hc)
  | loadUnique =>
    simp only [step, access]
    cases hc : ret.2 with
    | false => split <;> exact .stay (by simp [holds, hc]) rfl rfl (by simp [holds, hc])
    | true => split <;> exact .outside (by simp [queued, holds, hc]) rfl rfl (by rintro _ ⟨⟩; simp [queued, holds, hc])
  | loadBuffer =>
    cases hc : ret.2 with
    | false => exact .stay (by simp [holds, hc]) rfl rfl (by simp [holds, hc])
    | true => exact .outside (by simp [queued, holds, hc]) rfl rfl (by rintro _ ⟨⟩; simp [queued, holds, hc])
  | finish =>
    simp only [step, releaseLocalLock]
    split <;> exact .pass rfl (by simp) (by simp) rfl
  | leave => exact .outside rfl rfl rfl (by rintro _ ⟨⟩)
  | relStart =>
    simp only [step, releaseLocalLock]
    cases side <;> split <;> exact .stay rfl rfl rfl rfl
  | relOwnWindow =>
    cases side <;> exact .stay rfl (by simp [step, releaseLocalLock]) (by simp [step, releaseLocalLock]) rfl
  | relOtherWindow =>
    cases side <;> exact .stay rfl (by simp [step, releaseLocalLock, Side.other])
      (by simp [step, releaseLocalLock, Side.other]) rfl
  | _ =>
    simp only [step, acquireLocalLock, releaseLocalLock]
    first
      | exact .stay rfl (by simp) (by simp) rfl
      | split <;> exact .stay rfl rfl rfl rfl

/-- The other queue keeps all but its window. -/
theorem step_other : ∃ w, (o.step n r).1.queue o.side.other = { n.queue o.side.other with window := w } := by
  obtain ⟨side, key, value, res, ret, pc⟩ := o
  have hne : ∀ {m : LocalLockNode} {q : WaitingQueue}, m.queue side.other = n.queue side.other →
      ∃ w, (m.setQueue side q).queue side.other = { n.queue side.other with window := w } := fun {m q} h =>
    ⟨(n.queue side.other).window, (LocalLockNode.queue_setQueue_of_ne _ _ _ _ (Side.other_ne _)).trans h⟩
  cases pc with
  | cas =>
    simp only [step, acquireLocalLock]
    split
    · exact hne rfl
    · split <;> exact ⟨_, rfl⟩
  | takeTicket | bailDecrement | bailNext | clearHandover | relOwnWindow | storeHandover | clearUnique => exact hne rfl
  | relOtherWindow => exact ⟨_, LocalLockNode.queue_setQueue _ _ _⟩
  | relStart =>
    simp only [step, releaseLocalLock]
    split <;> exact ⟨_, rfl⟩
  | finish =>
    simp only [step, releaseLocalLock]
    split
    · refine hne ?_
      rw [LocalLockNode.queue_closeWindow]
      exact LocalLockNode.queue_setQueue_of_ne _ _ _ _ (Side.other_ne _)
    · exact hne rfl
  | _ => exact ⟨_, rfl⟩

/-- **The unique key** is installed into an empty place, and cleared at the end of an epoch. -/
theorem step_unique : ((o.step n r).1.queue o.side).uniqueKey = (n.queue o.side).uniqueKey ∨
    (o.pc = .cas ∧ (n.queue o.side).uniqueKey = none ∧ ((o.step n r).1.queue o.side).uniqueKey = some o.key ∧
      (o.step n r).2.next = some (o.at' (match o.side with | .read => .takeTicket | .write => .combine true))) ∨
    (o.pc = .clearUnique ∧ ((o.step n r).1.queue o.side).uniqueKey = none) := by
  obtain ⟨side, key, value, res, ret, pc⟩ := o
  cases pc with
  | cas =>
    simp only [step, acquireLocalLock]
    split
    · rename_i h
      exact .inr (.inl ⟨trivial, h, by simp, by cases side <;> rfl⟩)
    · split <;> exact .inl rfl
  | clearUnique => exact .inr (.inr ⟨rfl, by simp [step, releaseLocalLock]⟩)
  | relStart =>
    simp only [step, releaseLocalLock]
    split <;> exact .inl rfl
  | relOtherWindow =>
    refine .inl (congrArg _ (LocalLockNode.queue_setQueue_of_ne _ _ _ _ (Side.other_ne _).symm))
  | finish =>
    simp only [step, releaseLocalLock]
    split <;> exact .inl (by simp)
  | _ => exact .inl (by simp [step, acquireLocalLock, releaseLocalLock, access])

/-- **The handover flag** is stored after the window, or cleared where the window is closed. -/
theorem step_handover : ((o.step n r).1.queue o.side).handover = (n.queue o.side).handover ∨
    (o.pc = .clearHandover ∧ ((o.step n r).1.queue o.side).handover = false) ∨
    ∃ ticket current, o.pc = .storeHandover ticket current := by
  obtain ⟨side, key, value, res, ret, pc⟩ := o
  cases pc with
  | cas =>
    simp only [step, acquireLocalLock]
    split
    · exact .inl (by simp)
    · split <;> exact .inl rfl
  | clearHandover => exact .inr (.inl ⟨rfl, by simp [step, acquireLocalLock]⟩)
  | storeHandover t c => exact .inr (.inr ⟨t, c, rfl⟩)
  | relStart =>
    simp only [step, releaseLocalLock]
    split <;> exact .inl rfl
  | relOtherWindow =>
    refine .inl (congrArg _ (LocalLockNode.queue_setQueue_of_ne _ _ _ _ (Side.other_ne _).symm))
  | finish =>
    simp only [step, releaseLocalLock]
    split <;> exact .inl (by simp)
  | _ => exact .inl (by simp [step, acquireLocalLock, releaseLocalLock, access])

/-- The operation is in the acquire of its lock. -/
def acquiring (o : Op) : Bool :=
  match o.pc with
  | .cas | .combine _ | .takeTicket | .wait _ | .recheck | .bailWindow | .bailDecrement | .bailReadWindow
  | .bailWriteWindow | .bailWindowStart | .bailNext | .checkWindow | .clearHandover | .loadHandover => true
  | _ => false

/-- **The acquire**: an operation stays in it, or leaves it on a conflict of keys or with the handover flag. -/
theorem step_acquire {p : Op} (ha : o.acquiring = true) (h : (o.step n r).2.next = some p) :
    (p = o.at' p.pc ∧ p.acquiring = true) ∨ p = o.conflict ∨
      (o.pc = .loadHandover ∧ p = { o with acquireRet := ((n.queue o.side).handover, false) }.body) := by
  obtain ⟨side, key, value, res, ret, pc⟩ := o
  cases pc with
  | cas =>
    simp only [step, acquireLocalLock] at h
    split at h
    · cases h
      cases side <;> exact .inl ⟨rfl, rfl⟩
    · split at h <;> cases h
      · exact .inr (.inl rfl)
      · cases side <;> exact .inl ⟨rfl, rfl⟩
  | wait | recheck | bailWindow | bailReadWindow | bailWriteWindow | checkWindow =>
    simp only [step, acquireLocalLock] at h
    split at h <;> cases h <;> exact .inl ⟨rfl, rfl⟩
  | combine | takeTicket | bailDecrement | bailWindowStart | clearHandover => cases h; exact .inl ⟨rfl, rfl⟩
  | bailNext => cases h; exact .inr (.inl rfl)
  | loadHandover => cases h; exact .inr (.inr ⟨rfl, rfl⟩)
  | _ => cases ha

/-- An operation keeps its side and its key. -/
theorem step_same {p : Op} (h : (o.step n r).2.next = some p) : p.side = o.side ∧ p.key = o.key := by
  by_cases ha : o.acquiring = true
  · rcases step_acquire _ _ _ ha h with ⟨he, -⟩ | rfl | ⟨-, rfl⟩
    · rw [he]
      exact ⟨rfl, rfl⟩
    · exact body_same _
    · exact body_same _
  obtain ⟨side, key, value, res, ret, pc⟩ := o
  cases pc with
  | remoteRead | remoteWrite => cases h; exact afterAccess_same _
  | relStart =>
    simp only [step, releaseLocalLock] at h
    split at h <;> cases h <;> exact ⟨rfl, rfl⟩
  | leave => cases h
  | _ => first | exact absurd rfl ha | (cases h; exact ⟨rfl, rfl⟩)

end Op

/-! ## The ticket queues -/

/-- The operations in one queue hold the tickets from `current` up to `ticket`, the one that holds the lock the
first. -/
def Tickets (q : WaitingQueue) (ops : Nat → Option Op) : Prop :=
  ∃ (Q : Finset Nat) (tick : Nat → Nat) (head tail : Nat), (∀ c, c ∈ Q ↔ ∃ o, ops c = some o ∧ o.queued = true) ∧
    TicketQueue.Holds Q tick head tail ∧ head ≤ tail ∧ q.current = UInt8.ofNat head ∧ q.ticket = UInt8.ofNat tail ∧
    (∀ c o t, ops c = some o → o.pc = .wait t → t = UInt8.ofNat (tick c)) ∧
    ∀ c o, ops c = some o → o.holds = true → tick c = head

/-- At most 255 operations at a time. -/
def AtMost255 (ops : Nat → Option Op) : Prop := ∃ A : Finset Nat, A.card ≤ 255 ∧ ∀ c, ops c ≠ none → c ∈ A

/-- At most `n` operations are queued. -/
def QueuedAtMost (n : Nat) (ops : Nat → Option Op) : Prop :=
  ∀ A : Finset Nat, (∀ c ∈ A, ∃ o, ops c = some o ∧ o.queued = true) → A.card ≤ n

theorem AtMost255.queued {ops : Nat → Option Op} (h : AtMost255 ops) : QueuedAtMost 255 ops := by
  obtain ⟨A, hA, hmem⟩ := h
  refine fun B hB => (Finset.card_le_card fun c hc => hmem c ?_).trans hA
  obtain ⟨o, ho, -⟩ := hB c hc
  simp [ho]

theorem QueuedAtMost.mono {m n : Nat} {ops : Nat → Option Op} (h : QueuedAtMost m ops) (hmn : m ≤ n) :
    QueuedAtMost n ops := fun A hA => (h A hA).trans hmn

theorem Op.queued_of_holds {o : Op} (h : o.holds = true) : o.queued = true := by
  unfold Op.queued
  split
  · rfl
  · exact h

theorem Op.queued_of_wait {o : Op} {t : UInt8} (h : o.pc = .wait t) : o.queued = true := by
  simp [Op.queued, h]

theorem Op.not_holds_of_wait {o : Op} {t : UInt8} (h : o.pc = .wait t) : o.holds = false := by
  simp [Op.holds, h]

namespace Tickets

variable {q q' : WaitingQueue} {ops : Nat → Option Op} {c d : Nat} {o p : Op}

/-- **Mutual exclusion**: at most one operation of a queue holds the lock. -/
theorem unique (h : Tickets q ops) (hc : ops c = some o) (hd : ops d = some p) (ho : o.holds = true)
    (hp : p.holds = true) : c = d := by
  obtain ⟨Q, tick, head, tail, hQ, hh, -, -, -, -, hhold⟩ := h
  exact hh.unique ((hQ c).2 ⟨o, hc, Op.queued_of_holds ho⟩) ((hQ d).2 ⟨p, hd, Op.queued_of_holds hp⟩) (hhold c o hc ho)
    (hhold d p hd hp)

/-- An operation outside the queue moves outside of it. -/
theorem outside (h : Tickets q ops) (hc : ∀ o, ops c = some o → o.queued = false) (ht : q'.ticket = q.ticket)
    (hcur : q'.current = q.current) {o' : Option Op} (ho' : ∀ p, o' = some p → p.queued = false) :
    Tickets q' (Function.update ops c o') := by
  obtain ⟨Q, tick, head, tail, hQ, hh, hle, h1, h2, hwait, hhold⟩ := h
  have hne : ∀ {d p}, Function.update ops c o' d = some p → p.queued = true → ops d = some p := by
    intro d p hd hp
    rcases update_eq_some hd with ⟨-, hd⟩ | ⟨-, hd⟩
    · rw [ho' p hd] at hp
      cases hp
    · exact hd
  refine ⟨Q, tick, head, tail, fun d => ?_, hh, hle, hcur.trans h1, ht.trans h2, fun d p t hd hp => ?_,
    fun d p hd hp => ?_⟩
  · rw [hQ]
    constructor
    · rintro ⟨p, hd, hp⟩
      have hdc : d ≠ c := by
        rintro rfl
        rw [hc p hd] at hp
        cases hp
      exact ⟨p, (Function.update_of_ne hdc _ _).trans hd, hp⟩
    · rintro ⟨p, hd, hp⟩
      exact ⟨p, hne hd hp, hp⟩
  · exact hwait d p t (hne hd (Op.queued_of_wait hp)) hp
  · exact hhold d p (hne hd (Op.queued_of_holds hp)) hp

/-- The queued operation stays queued. -/
theorem stay (h : Tickets q ops) (hc : ops c = some o) (ho : o.queued = true) (ht : q'.ticket = q.ticket)
    (hcur : q'.current = q.current) (hp : p.queued = true) (hpw : ∀ t, p.pc = .wait t → o.pc = .wait t)
    (hph : p.holds = true → o.holds = true ∨ (QueuedAtMost 256 ops ∧ o.pc = .wait q.current)) :
    Tickets q' (Function.update ops c (some p)) := by
  obtain ⟨Q, tick, head, tail, hQ, hh, hle, h1, h2, hwait, hhold⟩ := h
  have hcQ : c ∈ Q := (hQ c).2 ⟨o, hc, ho⟩
  refine ⟨Q, tick, head, tail, fun d => ?_, hh, hle, hcur.trans h1, ht.trans h2, fun d x t hd hx => ?_,
    fun d x hd hx => ?_⟩
  · by_cases hdc : d = c
    · subst hdc
      rw [Function.update_self]
      exact ⟨fun _ => ⟨p, rfl, hp⟩, fun _ => hcQ⟩
    · rw [Function.update_of_ne hdc]
      exact hQ d
  · rcases update_eq_some hd with ⟨rfl, he⟩ | ⟨-, hd⟩
    · cases he
      exact hwait d o t hc (hpw t hx)
    · exact hwait d x t hd hx
  · rcases update_eq_some hd with ⟨rfl, he⟩ | ⟨-, hd⟩
    · cases he
      rcases hph hx with hoh | ⟨hA, hw⟩
      · exact hhold d o hc hoh
      -- the stored residues tell the first ticket
      refine hh.eq_head (hA Q fun e he => (hQ e).1 he) hcQ ?_
      have heq := congrArg UInt8.toNat ((hwait d o _ hc hw).symm.trans h1)
      simpa only [UInt8.toNat_ofNat'] using heq
    · exact hhold d x hd hx

/-- **A step** of an operation keeps the tickets of its queue. -/
theorem move (h : Tickets q ops) (hA : QueuedAtMost 256 ops) (hc : ops c = some o) {o' : Option Op}
    (hm : o.TicketMove q q' o') : Tickets q' (Function.update ops c o') := by
  cases hm with
  | outside ho ht hcur ho' => exact h.outside (fun p hp => by rw [hc] at hp; cases hp; exact ho) ht hcur ho'
  | spin hpc hq =>
    subst hq
    rwa [← hc, Function.update_eq_self]
  | first hpc hq hp =>
    subst hq
    exact h.stay hc (Op.queued_of_wait hpc) rfl rfl (Op.queued_of_holds hp)
      (fun t ht => by rw [Op.not_holds_of_wait ht] at hp; cases hp) fun _ => .inr ⟨hA, hpc⟩
  | stay ho ht hcur hp =>
    exact h.stay hc (Op.queued_of_holds ho) ht hcur (Op.queued_of_holds hp)
      (fun t ht => by rw [Op.not_holds_of_wait ht] at hp; cases hp) fun _ => .inl ho
  | enter ho ht hcur hp =>
    rename_i p
    obtain ⟨Q, tick, head, tail, hQ, hh, hle, h1, h2, hwait, hhold⟩ := h
    have hcQ : c ∉ Q := fun hmem => by
      obtain ⟨x, hx, hq⟩ := (hQ c).1 hmem
      rw [hc] at hx
      cases hx
      rw [ho] at hq
      cases hq
    refine ⟨insert c Q, Function.update tick c tail, head, tail + 1, fun d => ?_, hh.enter hle hcQ, by omega,
      hcur.trans h1, ?_, fun d x t hd hx => ?_, fun d x hd hx => ?_⟩
    · rw [Finset.mem_insert]
      by_cases hdc : d = c
      · subst hdc
        rw [Function.update_self]
        exact ⟨fun _ => ⟨p, rfl, Op.queued_of_wait hp⟩, fun _ => .inl rfl⟩
      · rw [Function.update_of_ne hdc, hQ]
        exact or_iff_right hdc
    · rw [ht, h2]
      exact (UInt8.ofNat_add tail 1).symm
    · rcases update_eq_some hd with ⟨rfl, he⟩ | ⟨hdc, hd⟩
      · cases he
        rw [hp] at hx
        cases hx
        rw [Function.update_self]
        exact h2
      · rw [Function.update_of_ne hdc]
        exact hwait d x t hd hx
    · rcases update_eq_some hd with ⟨rfl, he⟩ | ⟨hdc, hd⟩
      · cases he
        rw [Op.not_holds_of_wait hp] at hx
        cases hx
      · rw [Function.update_of_ne hdc]
        exact hhold d x hd hx
  | pass ho ht hcur hp =>
    rename_i p
    obtain ⟨Q, tick, head, tail, hQ, hh, hle, h1, h2, hwait, hhold⟩ := h
    have hcQ : c ∈ Q := (hQ c).2 ⟨o, hc, Op.queued_of_holds ho⟩
    have hch : tick c = head := hhold c o hc ho
    have hmem : ∀ {d x}, Function.update ops c (some p) d = some x → x.queued = true → d ≠ c ∧ ops d = some x := by
      intro d x hd hx
      rcases update_eq_some hd with ⟨rfl, he⟩ | hd
      · cases he
        rw [hp] at hx
        cases hx
      · exact hd
    refine ⟨Q.erase c, tick, head + 1, tail, fun d => ?_, hh.leave hcQ hch, ?_, ?_, ht.trans h2, fun d x t hd hx => ?_,
      fun d x hd hx => ?_⟩
    · rw [Finset.mem_erase, hQ]
      constructor
      · rintro ⟨hdc, x, hx⟩
        exact ⟨x, by rwa [Function.update_of_ne hdc]⟩
      · rintro ⟨x, hd, hx⟩
        obtain ⟨hdc, hd⟩ := hmem hd hx
        exact ⟨hdc, x, hd, hx⟩
    · have := (hh.mem hcQ).2
      omega
    · rw [hcur, h1]
      exact (UInt8.ofNat_add head 1).symm
    · exact hwait d x t (hmem hd (Op.queued_of_wait hx)).2 hx
    · -- a second operation would hold the lock as well
      obtain ⟨hdc, hd⟩ := hmem hd (Op.queued_of_holds hx)
      exact absurd (hh.unique ((hQ d).2 ⟨x, hd, Op.queued_of_holds hx⟩) hcQ (hhold d x hd hx) hch) hdc

end Tickets

/-- No operation is in the queues of a new lock node. -/
theorem Tickets.init {q : WaitingQueue} (h1 : q.current = 0) (h2 : q.ticket = 0) {ops : Nat → Option Op}
    (h : ∀ c, ops c = none) : Tickets q ops :=
  ⟨∅, fun _ => 0, 0, 0,
    fun c => by simp [h], TicketQueue.Holds.empty _ 0, le_rfl, h1, h2, fun c o t hc => by simp [h] at hc,
    fun c o hc => by simp [h] at hc⟩

namespace LockTable

variable {hash : Nat → Nat} {s s' : LockTable} {es : List Event} {i : Nat} {σ : Side} {c : Nat} {o : Op}

/-- The operations on one queue of a lock node. -/
def opsOn (hash : Nat → Nat) (s : LockTable) (i : Nat) (σ : Side) : Nat → Option Op := fun c =>
  (s.clients c).filter fun o => hash o.key = i ∧ o.side = σ

theorem opsOn_eq_some : opsOn hash s i σ c = some o ↔ s.clients c = some o ∧ hash o.key = i ∧ o.side = σ := by
  simp [opsOn, Option.filter_eq_some_iff]

/-- The events of a step of client `c`. -/
def events (c : Nat) (o : Op) : Outcome → List Event
  | .goto _ => []
  | .write _ => [.write c o.key o.value]
  | .ret => [.ret c o]

/-- What a step of client `c` in the operation `o` does. -/
structure ClientStep (hash : Nat → Nat) (s : LockTable) (c : Nat) (o : Op) (s' : LockTable) (es : List Event) :
    Prop where
  client : s.clients c = some o
  nodes : s'.nodes = Function.update s.nodes (hash o.key) (o.step (s.nodes (hash o.key)) (s.remote o.key)).1
  clients : s'.clients = Function.update s.clients c (o.step (s.nodes (hash o.key)) (s.remote o.key)).2.next
  events : es = events c o (o.step (s.nodes (hash o.key)) (s.remote o.key)).2

/-- **The steps** of the machine. -/
theorem step_cases {a : Action} (h : step hash s a = some (s', es)) :
    (∃ c side k v, a = .invoke c side k v ∧ s.clients c = none ∧ s'.nodes = s.nodes ∧
      s'.clients = Function.update s.clients c (some ⟨side, k, v, false, (false, false), .cas⟩) ∧
      es = [.invoke c side k v]) ∨
    (∃ c o, a = .step c ∧ ClientStep hash s c o s' es) ∨
    (∃ k v, a = .remote k v ∧ s'.nodes = s.nodes ∧ s'.clients = s.clients ∧ es = []) := by
  cases a with
  | invoke c side k v =>
    simp only [step] at h
    split at h
    · obtain ⟨rfl, rfl⟩ := Prod.mk.inj (Option.some.inj h)
      exact .inl ⟨c, side, k, v, rfl, ‹_›, rfl, rfl, rfl⟩
    · cases h
  | step c =>
    obtain ⟨o, hc, ho⟩ := Option.map_eq_some_iff.1 h
    refine .inr (.inl ⟨c, o, rfl, ?_⟩)
    simp only [stepClient] at ho
    split at ho <;> rename_i n p he <;> obtain ⟨rfl, rfl⟩ := Prod.mk.inj ho <;>
      exact ⟨hc, by rw [he]; rfl, by rw [he]; rfl, by rw [he]; rfl⟩
  | remote k v =>
    obtain ⟨rfl, rfl⟩ := Prod.mk.inj (Option.some.inj h)
    exact .inr (.inr ⟨k, v, rfl, rfl, rfl, rfl⟩)

/-- A step of a client moves its own operation in its own queue. -/
theorem ClientStep.opsOn (h : ClientStep hash s c o s' es) :
    LockTable.opsOn hash s' (hash o.key) o.side =
      Function.update (LockTable.opsOn hash s (hash o.key) o.side) c
        (o.step (s.nodes (hash o.key)) (s.remote o.key)).2.next := by
  funext d
  rw [LockTable.opsOn, h.clients]
  by_cases hd : d = c
  · subst hd
    rw [Function.update_self, Function.update_self]
    cases hn : (o.step (s.nodes (hash o.key)) (s.remote o.key)).2.next with
    | none => rfl
    | some p =>
      obtain ⟨h1, h2⟩ := Op.step_same _ _ _ hn
      simp [Option.filter, h1, h2]
  · rw [Function.update_of_ne hd, Function.update_of_ne hd]
    rfl

/-- A step of a client keeps the operations in the other queues. -/
theorem ClientStep.opsOn_of_ne (h : ClientStep hash s c o s' es) (hne : ¬(hash o.key = i ∧ o.side = σ)) :
    LockTable.opsOn hash s' i σ = LockTable.opsOn hash s i σ := by
  funext d
  rw [LockTable.opsOn, LockTable.opsOn, h.clients]
  by_cases hd : d = c
  · subst hd
    rw [Function.update_self, h.client]
    cases hn : (o.step (s.nodes (hash o.key)) (s.remote o.key)).2.next with
    | none => simp [Option.filter, hne]
    | some p =>
      obtain ⟨h1, h2⟩ := Op.step_same _ _ _ hn
      simp [Option.filter, h1, h2, hne]
  · rw [Function.update_of_ne hd]

/-- A step of a client keeps the other queues but for their windows. -/
theorem ClientStep.queue_of_ne (h : ClientStep hash s c o s' es) (hne : ¬(hash o.key = i ∧ o.side = σ)) :
    ∃ w, (s'.nodes i).queue σ = { (s.nodes i).queue σ with window := w } := by
  rw [h.nodes]
  by_cases hi : i = hash o.key
  · subst hi
    rw [Function.update_self]
    have hσ : σ = o.side.other := by
      have : o.side ≠ σ := fun e => hne ⟨rfl, e⟩
      revert this
      cases σ <;> cases o.side <;> simp [Side.other]
    subst hσ
    exact Op.step_other _ _ _
  · rw [Function.update_of_ne hi]
    exact ⟨_, rfl⟩

theorem atMost255_opsOn (h : AtMost255 s.clients) : AtMost255 (opsOn hash s i σ) := by
  obtain ⟨A, hA, hmem⟩ := h
  refine ⟨A, hA, fun c hc => hmem c fun h0 => hc ?_⟩
  simp [opsOn, h0]

/-- An invocation adds an operation to the queue of its side and its key. -/
theorem opsOn_invoke (hcl : s'.clients = Function.update s.clients c (some o)) :
    opsOn hash s' i σ = Function.update (opsOn hash s i σ) c
      ((some o).filter fun o => hash o.key = i ∧ o.side = σ) := by
  funext d
  rw [opsOn, hcl]
  by_cases hd : d = c
  · subst hd
    rw [Function.update_self, Function.update_self]
  · rw [Function.update_of_ne hd, Function.update_of_ne hd]
    rfl

/-- After an invocation a client has the new operation or is where it was. -/
theorem clients_invoke {p : Op} (hcl : s'.clients = Function.update s.clients c (some o))
    (hd : s'.clients d = some p) : (p = o ∧ d = c) ∨ (d ≠ c ∧ s.clients d = some p) := by
  rw [hcl] at hd
  rcases update_eq_some hd with ⟨hdc, he⟩ | hd
  · exact .inl ⟨(Option.some.inj he).symm, hdc⟩
  · exact .inr hd

/-- **Tickets** of every queue, in every run with at most 255 clients at a time. -/
theorem tickets {init : Nat → Bool × Nat × Nat} {remote : Nat → Nat} {G : LockTable → Action → Prop}
    (hG : ∀ s a, G s a → AtMost255 s.clients) {h : List Event} (hrun : (machine hash init remote).Run G s h) :
    ∀ i σ, Tickets ((s.nodes i).queue σ) (opsOn hash s i σ) := by
  refine hrun.invariant (I := fun s _ => ∀ i σ, Tickets ((s.nodes i).queue σ) (opsOn hash s i σ))
    (fun i σ => .init rfl rfl fun c => rfl) ?_
  intro s h a s' es _ ih hg hstep i σ
  rcases step_cases hstep with ⟨c, side, k, v, -, hc, hn, hcl, -⟩ | ⟨c, o, -, hs⟩ | ⟨k, v, -, hn, hcl, -⟩
  · rw [hn, opsOn_invoke hcl]
    refine (ih i σ).outside (fun o ho => ?_) rfl rfl fun p hp => ?_
    · rw [(opsOn_eq_some.1 ho).1] at hc
      cases hc
    · obtain ⟨hp, -⟩ := Option.filter_eq_some_iff.1 hp
      cases hp
      rfl
  · by_cases hq : hash o.key = i ∧ o.side = σ
    · obtain ⟨rfl, rfl⟩ := hq
      rw [hs.opsOn, hs.nodes, Function.update_self]
      exact (ih _ _).move ((atMost255_opsOn (hG s a hg)).queued.mono (by decide))
        (opsOn_eq_some.2 ⟨hs.client, rfl, rfl⟩) (Op.step_tickets _ _ _)
    · obtain ⟨w, hw⟩ := hs.queue_of_ne hq
      rw [hs.opsOn_of_ne hq, hw]
      exact ih i σ
  · rw [hn, show opsOn hash s' i σ = opsOn hash s i σ by funext d; rw [opsOn, hcl]; rfl]
    exact ih i σ

/-! ## Runs of a few clients -/

/-- The action is one of the clients below `n`. -/
def Action.below (n : Nat) : Action → Bool
  | .invoke c _ _ _ | .step c => c < n
  | .remote _ _ => true

/-- No other client than those below `n` has begun an operation. -/
def Below (n : Nat) (s : LockTable) : Prop := ∀ c, n ≤ c → s.clients c = none

theorem Below.step {n : Nat} {a : Action} (h : Below n s) (ha : a.below n = true) (hs : step hash s a = some (s', es)) :
    Below n s' := by
  intro d hd
  have hne : ∀ {c}, c < n → ∀ {o'}, Function.update s.clients c o' d = none := fun {c} hc {o'} => by
    rw [Function.update_of_ne (by omega)]
    exact h d hd
  rcases step_cases hs with ⟨c, side, k, v, rfl, -, -, hcl, -⟩ | ⟨c, o, rfl, hstep⟩ | ⟨k, v, rfl, -, hcl, -⟩
  · rw [hcl]
    exact hne (of_decide_eq_true ha)
  · rw [hstep.clients]
    exact hne (of_decide_eq_true ha)
  · rw [hcl]
    exact h d hd

theorem Below.atMost255 {n : Nat} (h : Below n s) (hn : n ≤ 255) : AtMost255 s.clients := by
  refine ⟨Finset.range n, by simpa using hn, fun c hc => Finset.mem_range.2 ?_⟩
  by_contra hlt
  exact hc (h c (Nat.not_lt.1 hlt))

/-- One lock node for all keys. -/
def single : Machine LockTable Action Event := machine (fun _ => 0) (fun _ => (false, 0, 0)) fun _ => 0

end LockTable
end Chime

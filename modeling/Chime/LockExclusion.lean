import Chime.LockQueue

/-!
# Exclusion in the local lock table

The tickets of a queue are bytes. While a client that takes a ticket finds fewer than 256 tickets in use (`Roomy`), the
tickets of a queue are distinct, and at most one operation is past the wait and has not released (`exclusive`). The code
admits `MAX_APP_THREAD * MAX_CORO_NUM` clients: the 257th client in a queue gets the ticket that is being served
(`not_exclusive`).
-/

namespace Chime

/-! ## The length of a queue -/

namespace Op

variable {o p : Op} {n : LocalLockNode} {r : Nat}

theorem body_not_wait {t : UInt8} : o.body.pc ≠ .wait t := by
  unfold body
  split <;> cases o.side <;> nofun

theorem afterAccess_not_wait {t : UInt8} : o.afterAccess.pc ≠ .wait t := by
  unfold afterAccess
  split
  · nofun
  · cases o.side <;> nofun

/-- An operation waits with the ticket it has taken. -/
theorem step_wait {t : UInt8} (h : (o.step n r).2.next = some p) (hp : p.pc = .wait t) :
    o.pc = .takeTicket ∨ o.pc = .wait t := by
  obtain ⟨side, key, value, res, ret, pc⟩ := o
  cases pc with
  | takeTicket => exact .inl rfl
  | wait u =>
    simp only [step, acquireLocalLock] at h
    split at h <;> cases h
    · exact .inr hp
    · cases hp
  | cas =>
    simp only [step, acquireLocalLock] at h
    split at h
    · cases h
      cases side <;> cases hp
    · split at h <;> cases h
      · exact absurd hp body_not_wait
      · cases side <;> cases hp
  | recheck | bailWindow | bailReadWindow | bailWriteWindow | checkWindow =>
    simp only [step, acquireLocalLock] at h
    split at h <;> cases h <;> cases hp
  | bailNext | loadHandover => cases h; exact absurd hp body_not_wait
  | remoteRead | remoteWrite => cases h; exact absurd hp afterAccess_not_wait
  | loadUnique =>
    simp only [step, access] at h
    split at h <;> cases h <;> cases hp
  | share | relHandover | testHandover =>
    simp only [step, releaseLocalLock] at h
    split at h <;> cases h <;> cases hp
  | relStart =>
    simp only [step, releaseLocalLock] at h
    split at h <;> cases h
    · cases hp
    · cases side <;> cases hp
  | relOwnWindow | relOtherWindow => cases h; cases side <;> cases hp
  | leave => cases h
  | _ => cases h; cases hp

/-- An operation comes into its queue by taking a ticket. -/
theorem step_queued (h : (o.step n r).2.next = some p) (hp : p.queued = true) :
    o.queued = true ∨ o.pc = .takeTicket := by
  have hm := o.step_tickets n r
  rw [h] at hm
  cases hm with
  | outside _ _ _ hout => rw [hout p rfl] at hp; cases hp
  | enter _ _ _ hpc =>
    rcases step_wait h hpc with ht | hw
    · exact .inr ht
    · exact .inl (queued_of_wait hw)
  | spin hpc => exact .inl (queued_of_wait hpc)
  | first hpc => exact .inl (queued_of_wait hpc)
  | stay ho => exact .inl (queued_of_holds ho)
  | pass ho => exact .inl (queued_of_holds ho)

end Op

namespace QueuedAtMost

variable {m : Nat} {ops : Nat → Option Op} {c : Nat} {o' : Option Op}

theorem none (hops : ∀ c, ops c = none) : QueuedAtMost m ops := by
  intro A hA
  rcases A.eq_empty_or_nonempty with rfl | ⟨c, hc⟩
  · exact Nat.zero_le m
  · obtain ⟨o, ho, -⟩ := hA c hc
    cases (hops c).symm.trans ho

/-- Another operation makes a queue longer by one at most. -/
theorem enter (h : QueuedAtMost m ops) : QueuedAtMost (m + 1) (Function.update ops c o') := by
  intro A hA
  have herase : (A.erase c).card ≤ m := h _ fun d hd => by
    obtain ⟨hne, hd⟩ := Finset.mem_erase.1 hd
    obtain ⟨o, ho, hq⟩ := hA d hd
    exact ⟨o, by rwa [Function.update_of_ne hne] at ho, hq⟩
  have := Finset.pred_card_le_card_erase (s := A) (a := c)
  omega

/-- An operation that was in the queue, or stays outside, makes it no longer. -/
theorem update (h : QueuedAtMost m ops)
    (ho' : ∀ p, o' = some p → p.queued = true → ∃ o, ops c = some o ∧ o.queued = true) :
    QueuedAtMost m (Function.update ops c o') := by
  refine fun A hA => h A fun d hd => ?_
  obtain ⟨p, hp, hq⟩ := hA d hd
  by_cases hdc : d = c
  · subst hdc
    rw [Function.update_self] at hp
    exact ho' p hp hq
  · rw [Function.update_of_ne hdc] at hp
    exact ⟨p, hp, hq⟩

end QueuedAtMost

namespace LockTable

variable {hash : Nat → Nat} {s s' : LockTable} {es h : List Event} {a : Action}

/-! ## Runs -/

/-- The guard of exclusion: who takes a ticket of a queue finds fewer than 256 operations with tickets of that queue. -/
def Roomy (hash : Nat → Nat) (s : LockTable) (a : Action) : Prop :=
  ∀ c o, a = .step c → s.clients c = some o → o.pc = .takeTicket → QueuedAtMost 255 (opsOn hash s (hash o.key) o.side)

/-- At most one operation of each queue is past the wait and has not released. -/
def Exclusive (hash : Nat → Nat) (s : LockTable) : Prop :=
  ∀ c d o p, s.clients c = some o → s.clients d = some p → hash o.key = hash p.key → o.side = p.side →
    o.holds = true → p.holds = true → c = d

/-- What holds of each queue in every roomy run. -/
structure Ticketed (q : WaitingQueue) (ops : Nat → Option Op) : Prop where
  tickets : Tickets q ops
  queued : QueuedAtMost 256 ops

/-- **A step** keeps the tickets of the queues. -/
theorem Ticketed.step (ht : ∀ i σ, Ticketed ((s.nodes i).queue σ) (opsOn hash s i σ)) (hg : Roomy hash s a)
    (hs : LockTable.step hash s a = some (s', es)) (i : Nat) (σ : Side) :
    Ticketed ((s'.nodes i).queue σ) (opsOn hash s' i σ) := by
  rcases step_cases hs with ⟨c, side, k, v, -, hc, hn, hcl, -⟩ | ⟨c, o, ha, hs⟩ | ⟨k, v, -, hn, hcl, -⟩
  · rw [hn, opsOn_invoke hcl]
    have hout : ∀ p, (some (⟨side, k, v, false, (false, false), .cas⟩ : Op)).filter
        (fun o => hash o.key = i ∧ o.side = σ) = some p → p.queued = false := fun p hp => by
      obtain ⟨hp, -⟩ := Option.filter_eq_some_iff.1 hp
      cases hp
      rfl
    refine ⟨(ht i σ).tickets.outside (fun o ho => ?_) rfl rfl hout, (ht i σ).queued.update fun p hp hq => ?_⟩
    · rw [(opsOn_eq_some.1 ho).1] at hc
      cases hc
    · rw [hout p hp] at hq
      cases hq
  · by_cases hq : hash o.key = i ∧ o.side = σ
    · obtain ⟨rfl, rfl⟩ := hq
      have hops : opsOn hash s (hash o.key) o.side c = some o := opsOn_eq_some.2 ⟨hs.client, rfl, rfl⟩
      rw [hs.opsOn, hs.nodes, Function.update_self]
      refine ⟨(ht _ _).tickets.move (ht _ _).queued hops (Op.step_tickets _ _ _), ?_⟩
      by_cases hpc : o.pc = .takeTicket
      · exact (hg c o ha hs.client hpc).enter
      · refine (ht _ _).queued.update fun p hp hqp => ⟨o, hops, ?_⟩
        rcases Op.step_queued hp hqp with h | h
        · exact h
        · exact absurd h hpc
    · obtain ⟨w, hw⟩ := hs.queue_of_ne hq
      rw [hs.opsOn_of_ne hq, hw]
      exact ⟨(ht i σ).tickets, (ht i σ).queued⟩
  · rw [hn, show opsOn hash s' i σ = opsOn hash s i σ by funext d; rw [opsOn, hcl]; rfl]
    exact ht i σ

/-- **Mutual exclusion** in every roomy run, whatever the number of its clients. -/
theorem exclusive {init : Nat → Bool × Nat × Nat} {remote : Nat → Nat}
    (hrun : (machine hash init remote).Run (Roomy hash) s h) : Exclusive hash s := by
  have ht := hrun.invariant (I := fun s _ => ∀ i σ, Ticketed ((s.nodes i).queue σ) (opsOn hash s i σ))
    (fun i σ => ⟨.init rfl rfl fun c => rfl, .none fun c => rfl⟩) fun _ ih hg hs i σ => Ticketed.step ih hg hs i σ
  intro c d o p hc hd hi hσ ho hp
  exact (ht (hash o.key) o.side).tickets.unique (opsOn_eq_some.2 ⟨hc, rfl, rfl⟩)
    (opsOn_eq_some.2 ⟨hd, hi.symm, hσ.symm⟩) ho hp

/-- In a run of two clients one holds the lock and the other waits. -/
theorem exclusive_two : ∃ s h o, single.Run (Roomy fun _ => 0) s h ∧ s.clients 0 = some o ∧ o.holds = true ∧
    ∀ p, s.clients 1 = some p → p.side = o.side → p.holds = false := by
  have hexec : (single.exec (fun _ a => a.below 2) single.init []
      (.invoke 0 .write 1 10 :: List.replicate 4 (.step 0) ++ .invoke 1 .write 1 20 :: List.replicate 4 (.step 1))).bind
      (fun y => y.1.clients 0) = some ⟨.write, 1, 10, false, (false, false), .recheck⟩ := by decide +kernel
  obtain ⟨⟨s, h⟩, he, hc⟩ := Option.bind_eq_some_iff.1 hexec
  have hrun : single.Run (Roomy fun _ => 0) s h := Machine.Run.of_exec (I := Below 2)
    (fun hb _ => fun _ _ _ _ _ => (atMost255_opsOn (hb.atMost255 (by decide))).queued)
    (fun hb hg hs => hb.step hg hs) (fun c _ => rfl) .init he
  refine ⟨s, h, _, hrun, hc, rfl, fun p hp hσ => ?_⟩
  cases hh : p.holds with
  | false => rfl
  | true => cases exclusive hrun 0 1 _ p hc hp rfl hσ.symm rfl hh

/-! ## More clients than tickets -/

/-- The clients that the code admits. -/
def Admitted (_ : LockTable) (a : Action) : Prop := a.below (maxAppThread * maxCoroNum) = true

/-- The clients below `n` wait in the write queue of one lock node, in the order of their numbers. -/
structure Crowd (n : Nat) (s : LockTable) : Prop where
  clients : ∀ c, s.clients c = if c < n then some ⟨.write, 1, 0, false, (false, false), .wait (.ofNat c)⟩ else none
  current : ((s.nodes 0).queue .write).current = 0
  ticket : ((s.nodes 0).queue .write).ticket = .ofNat n
  uniqueKey : ((s.nodes 0).queue .write).uniqueKey = none ∨ ((s.nodes 0).queue .write).uniqueKey = some 1

/-- A run goes on with a step of client `c` that stays in its operation. -/
theorem run_goto {c : Nat} {o o' : Op} {n : LocalLockNode} (hrun : single.Run Admitted s h)
    (hc : s.clients c = some o) (hlt : c < maxAppThread * maxCoroNum)
    (ho : ∀ r, o.step (s.nodes 0) r = (n, .goto o')) :
    ∃ s' h', single.Run Admitted s' h' ∧ s'.clients = Function.update s.clients c (some o') ∧ s'.nodes 0 = n := by
  have hadm : Admitted s (.step c) := decide_eq_true hlt
  refine ⟨s.set (fun _ => 0) c o n (some o'), [] ++ h, .step (.step c) hrun hadm ?_, rfl, by simp [set]⟩
  simp [single, machine, LockTable.step, hc, stepClient, ho]

/-- One more client comes into the queue. -/
theorem Crowd.join {n : Nat} (hrun : single.Run Admitted s h) (hs : Crowd n s) (hn : n < maxAppThread * maxCoroNum) :
    ∃ s' h', single.Run Admitted s' h' ∧ Crowd (n + 1) s' := by
  let o : Op := ⟨.write, 1, 0, false, (false, false), .cas⟩
  have hinvoke : single.Run Admitted { s with clients := Function.update s.clients n (some o) }
      ([.invoke n .write 1 0] ++ h) := by
    refine .step (.invoke n .write 1 0) hrun (decide_eq_true hn) ?_
    simp only [single, machine, LockTable.step, hs.clients n, lt_irrefl, if_false]
    rfl
  obtain ⟨b, hcas⟩ : ∃ b, ∀ r, o.step (s.nodes 0) r =
      ((s.nodes 0).setQueue .write { (s.nodes 0).queue .write with uniqueKey := some 1 },
        .goto (o.at' (.combine b))) := by
    rcases hs.uniqueKey with hu | hu
    · exact ⟨true, fun r => by simp [o, Op.step, Op.acquireLocalLock, hu]⟩
    · have hself : (s.nodes 0).setQueue .write { (s.nodes 0).queue .write with uniqueKey := some 1 } = s.nodes 0 := by
        rw [← hu]
        simp [LocalLockNode.setQueue]
      exact ⟨false, fun r => by rw [hself]; simp [o, Op.step, Op.acquireLocalLock, hu]⟩
  obtain ⟨s₁, h₁, hrun₁, hcl₁, hn₁⟩ := run_goto hinvoke (Function.update_self _ _ _) hn hcas
  obtain ⟨s₂, h₂, hrun₂, hcl₂, hn₂⟩ := run_goto hrun₁ (by rw [hcl₁, Function.update_self]) hn fun _ => rfl
  obtain ⟨s₃, h₃, hrun₃, hcl₃, hn₃⟩ := run_goto hrun₂ (by rw [hcl₂, Function.update_self]) hn fun _ => rfl
  have hq₂ : (s₂.nodes 0).queue .write = { (s.nodes 0).queue .write with uniqueKey := some 1 } := by
    rw [hn₂]
    show (s₁.nodes 0).queue .write = _
    rw [hn₁, LocalLockNode.queue_setQueue]
  have hq₃ : (s₃.nodes 0).queue .write =
      { (s.nodes 0).queue .write with ticket := ((s.nodes 0).queue .write).ticket + 1, uniqueKey := some 1 } := by
    rw [hn₃, show ((o.at' (.combine b)).at' .takeTicket).side = .write from rfl, hq₂]
    exact LocalLockNode.queue_setQueue _ _ _
  refine ⟨s₃, h₃, hrun₃, fun c => ?_, ?_, ?_, .inr ?_⟩
  · rw [hcl₃, hcl₂, hcl₁]
    by_cases hc : c = n
    · subst hc
      rw [Function.update_self, if_pos (Nat.lt_succ_self c),
        show ((o.at' (.combine b)).at' .takeTicket).side = .write from rfl,
        hq₂]
      simp [o, Op.at', hs.ticket]
    · simp only [Function.update_of_ne hc]
      rw [hs.clients c]
      exact if_congr (by omega) rfl rfl
  · rw [hq₃]
    exact hs.current
  · rw [hq₃, hs.ticket]
    exact (UInt8.ofNat_add n 1).symm
  · rw [hq₃]

/-- A queue of `n` clients. -/
theorem exists_crowd (n : Nat) (hn : n ≤ maxAppThread * maxCoroNum) : ∃ s h, single.Run Admitted s h ∧ Crowd n s := by
  induction n with
  | zero => exact ⟨_, _, .init, fun c => by rw [if_neg (Nat.not_lt_zero c)]; rfl, rfl, rfl, .inl rfl⟩
  | succ n ih =>
    obtain ⟨s, h, hrun, hs⟩ := ih (by omega)
    exact hs.join hrun hn

/-- **Too many clients**: of 257 clients in a queue two hold the same ticket, and go on together. -/
theorem not_exclusive : ¬∀ hash init remote s h, (machine hash init remote).Run Admitted s h → Exclusive hash s := by
  intro hall
  obtain ⟨s, h, hrun, hs⟩ := exists_crowd 257 (by decide)
  have hgo : ∀ {s : LockTable} {t : UInt8}, ((s.nodes 0).queue .write).current = t →
      ∀ r, Op.step ⟨.write, 1, 0, false, (false, false), .wait t⟩ (s.nodes 0) r =
        (s.nodes 0, .goto ⟨.write, 1, 0, false, (false, false), .recheck⟩) := by
    rintro s _ rfl r
    simp [Op.step, Op.acquireLocalLock, Op.at']
  obtain ⟨s₁, h₁, hrun₁, hcl₁, hn₁⟩ := run_goto hrun (hs.clients 0) (by decide) (hgo hs.current)
  have h256 : s₁.clients 256 = some ⟨.write, 1, 0, false, (false, false), .wait (.ofNat 256)⟩ := by
    rw [hcl₁, Function.update_of_ne (by decide), hs.clients 256]
    rfl
  obtain ⟨s₂, h₂, hrun₂, hcl₂, -⟩ := run_goto hrun₁ h256 (by decide) (hgo (by rw [hn₁, hs.current]; rfl))
  have h0 : s₂.clients 0 = some ⟨.write, 1, 0, false, (false, false), .recheck⟩ := by
    rw [hcl₂, Function.update_of_ne (by decide), hcl₁, Function.update_self]
  have := hall _ _ _ _ _ hrun₂ 0 256 _ _ h0 (by rw [hcl₂, Function.update_self]) rfl rfl rfl rfl
  cases this

end LockTable
end Chime

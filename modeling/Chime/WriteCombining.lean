import Chime.LockQueue
import Mathlib.Data.List.Infix

/-!
# Write combining

A write takes the value in `wc_buffer` for its own if it finds its key in the unique key. In a run where nobody stores
to `wc_buffer` or reads it after the epoch of the key has ended or before it has a value (`Settled`), every remote write
writes a value that was passed for its key (`writes_own_values`); the buffer holds such a value while the key is unique
and has been stored for (`Combining.buffer`).
-/

namespace Chime

/-! ## Steps of a write -/

/-- The side that a step belongs to, if not to both. -/
def Pc.side? : Pc → Option Side
  | .combine _ | .loadUnique | .loadBuffer | .remoteWrite => some .write
  | .remoteRead | .share | .storeRes | .storeRetValue | .loadRes | .loadRetValue => some .read
  | _ => none

namespace Op

/-- The operation does the steps of its side. -/
def WellSided (o : Op) : Prop := ∀ σ, o.pc.side? = some σ → o.side = σ

variable (o : Op) (n : LocalLockNode) (r : Nat)

theorem body_wellSided : o.body.WellSided := by
  obtain ⟨side, key, value, res, ret, pc⟩ := o
  intro σ h
  unfold body at h ⊢
  split at h <;> cases side <;> simp_all [at', Pc.side?]

theorem afterAccess_wellSided : o.afterAccess.WellSided := by
  obtain ⟨side, key, value, res, ret, pc⟩ := o
  intro σ h
  unfold afterAccess at h ⊢
  split at h <;> cases side <;> simp_all [at', Pc.side?]

/-- Operations keep to the steps of their side. -/
theorem step_wellSided {p : Op} (hw : o.WellSided) (h : (o.step n r).2.next = some p) : p.WellSided := by
  obtain ⟨side, key, value, res, ret, pc⟩ := o
  cases pc with
  | cas =>
    simp only [step, acquireLocalLock] at h
    split at h
    · cases h
      cases side <;> simp [WellSided, Pc.side?]
    · split at h <;> cases h
      · exact body_wellSided _
      · cases side <;> simp [WellSided, Pc.side?]
  | bailNext | loadHandover => cases h; exact body_wellSided _
  | remoteRead | remoteWrite => cases h; exact afterAccess_wellSided _
  | loadUnique =>
    obtain rfl := hw _ rfl
    cases h
    intro σ hσ
    simp only [at'_pc] at hσ
    split at hσ <;> exact Option.some.inj hσ
  | loadBuffer =>
    obtain rfl := hw _ rfl
    cases h
    exact fun σ hσ => Option.some.inj hσ
  | share =>
    obtain rfl := hw _ rfl
    cases h
    intro σ hσ
    simp only [at'_pc] at hσ
    split at hσ <;> exact Option.some.inj hσ
  | storeRes | loadRes =>
    obtain rfl := hw _ rfl
    cases h
    exact fun σ hσ => Option.some.inj hσ
  | wait t =>
    simp only [step, acquireLocalLock] at h
    split at h <;> cases h <;> exact fun σ hσ => by cases hσ
  | relStart =>
    simp only [step, releaseLocalLock] at h
    split at h <;> cases h <;> cases side <;> exact fun σ hσ => by cases hσ
  | relOwnWindow | relOtherWindow => cases h; cases side <;> exact fun σ hσ => by cases hσ
  | recheck | bailWindow | bailReadWindow | bailWriteWindow | checkWindow | relHandover | testHandover =>
    cases h
    intro σ hσ
    simp only [at'_pc] at hσ
    split at hσ <;> cases hσ
  | leave => cases h
  | _ => cases h; exact fun σ hσ => by cases hσ

theorem body_value : o.body.value = o.value := by
  unfold body
  split <;> rfl

theorem afterAccess_value : o.afterAccess.value = o.value := by
  unfold afterAccess
  split <;> rfl

/-- The value of a write is the one it was called with, until it takes the one in `wc_buffer`. -/
theorem step_value {p : Op} (hw : o.WellSided) (hs : o.side = .write) (h : (o.step n r).2.next = some p) :
    p.value = o.value ∨ (o.pc = .loadBuffer ∧ p.value = n.wcBuffer) := by
  by_cases ha : o.acquiring = true
  · refine .inl ?_
    rcases step_acquire _ _ _ ha h with ⟨he, -⟩ | rfl | ⟨-, rfl⟩
    · rw [he]
      rfl
    · exact body_value _
    · exact body_value _
  obtain ⟨side, key, value, res, ret, pc⟩ := o
  cases pc with
  | remoteWrite => cases h; exact .inl (afterAccess_value _)
  | remoteRead | loadRetValue => cases hs.symm.trans (hw _ rfl)
  | loadBuffer => cases h; exact .inr ⟨rfl, rfl⟩
  | relStart =>
    simp only [step, releaseLocalLock] at h
    split at h <;> cases h <;> exact .inl rfl
  | leave => cases h
  | _ => first | exact absurd rfl ha | (cases h; exact .inl rfl)

/-- Only `combine` stores to `wc_buffer`. -/
theorem step_wcBuffer : (o.step n r).1.wcBuffer = n.wcBuffer ∨
    ∃ b, o.pc = .combine b ∧ (o.step n r).1.wcBuffer = o.value ∧ (o.step n r).2.next = some (o.at' .takeTicket) := by
  obtain ⟨side, key, value, res, ret, pc⟩ := o
  cases pc with
  | cas =>
    simp only [step, acquireLocalLock]
    split
    · exact .inl rfl
    · split <;> exact .inl rfl
  | combine b => exact .inr ⟨b, rfl, rfl, rfl⟩
  | relStart =>
    simp only [step, releaseLocalLock]
    split <;> exact .inl rfl
  | finish =>
    simp only [step, releaseLocalLock]
    split <;> exact .inl (by simp)
  | _ => exact .inl rfl

/-- The remote write of an operation. -/
theorem step_write {p : Op} (h : (o.step n r).2 = .write p) : o.pc = .remoteWrite ∧ p = o.afterAccess := by
  obtain ⟨side, key, value, res, ret, pc⟩ := o
  cases pc with
  | remoteWrite =>
    cases h
    exact ⟨rfl, rfl⟩
  | cas =>
    simp only [step, acquireLocalLock] at h
    split at h
    · cases h
    · split at h <;> cases h
  | relStart =>
    simp only [step, releaseLocalLock] at h
    split at h <;> cases h
  | _ => cases h

theorem step_ret (h : (o.step n r).2 = .ret) : o.pc = .leave := by
  obtain ⟨side, key, value, res, ret, pc⟩ := o
  cases pc with
  | leave => rfl
  | cas =>
    simp only [step, acquireLocalLock] at h
    split at h
    · cases h
    · split at h <;> cases h
  | relStart =>
    simp only [step, releaseLocalLock] at h
    split at h <;> cases h
  | _ => cases h

end Op

/-! ## Histories -/

namespace LockTable

variable {hash : Nat → Nat} {s s' : LockTable} {h es : List Event} {k v : Nat}

/-- Some client has called `insert` or `update` with the key and the value. -/
def Passed (h : List Event) (k v : Nat) : Prop := ∃ c, .invoke c .write k v ∈ h

/-- Every remote write writes a value that was passed for its key before. -/
def OwnValues (h : List Event) : Prop := ∀ c k v h₁, (.write c k v :: h₁) <:+ h → Passed h₁ k v

theorem Passed.append (hp : Passed h k v) (es : List Event) : Passed (es ++ h) k v :=
  hp.imp fun _ hc => List.mem_append_right _ hc

/-- The lock node that a key is hashed to has the key for its unique key of writes. -/
def IsUnique (hash : Nat → Nat) (s : LockTable) (k : Nat) : Prop := ((s.nodes (hash k)).queue .write).uniqueKey = some k

/-- A client has installed the key as the unique key of writes, and not yet stored its value. -/
def Pending (s : LockTable) (k : Nat) : Prop :=
  ∃ c o, s.clients c = some o ∧ o.side = .write ∧ o.key = k ∧ o.pc = .combine true

/-- The guard of write combining: an operation stores to `wc_buffer` only while its key is the unique key, and reads it
only while its key is the unique key and has got a value since it was installed. -/
def Settled (hash : Nat → Nat) (s : LockTable) : Action → Prop
  | .step c => ∀ o, s.clients c = some o → o.side = .write →
    (∀ b, o.pc = .combine b → IsUnique hash s o.key) ∧
    (o.pc = .loadBuffer → IsUnique hash s o.key ∧ ¬Pending s o.key)
  | _ => True

/-- What holds in every settled run. -/
structure Combining (hash : Nat → Nat) (s : LockTable) (h : List Event) : Prop where
  wellSided : ∀ c o, s.clients c = some o → o.WellSided
  value : ∀ c o, s.clients c = some o → o.side = .write → Passed h o.key o.value
  buffer : ∀ k, IsUnique hash s k → ¬Pending s k → Passed h k (s.nodes (hash k)).wcBuffer
  history : OwnValues h

theorem OwnValues.cons {e : Event} (hh : OwnValues h) (he : ∀ c k v, e = .write c k v → Passed h k v) :
    OwnValues (e :: h) := by
  intro c k v h₁ hs
  rcases List.suffix_cons_iff.1 hs with heq | hs
  · obtain ⟨rfl, rfl⟩ := List.cons.inj heq
    exact he c k v rfl
  · exact hh c k v h₁ hs

theorem wellSided_invoke {c : Nat} {side : Side} (hw : ∀ d p, s.clients d = some p → p.WellSided)
    (hcl : s'.clients = Function.update s.clients c (some ⟨side, k, v, false, (false, false), .cas⟩)) :
    ∀ d p, s'.clients d = some p → p.WellSided := by
  intro d p hd
  rcases clients_invoke hcl hd with ⟨rfl, -⟩ | ⟨-, hd⟩
  · exact fun σ hσ => by cases hσ
  · exact hw d p hd

theorem Combining.invoke {c : Nat} {side : Side} (hi : Combining hash s h) (hc : s.clients c = none)
    (hn : s'.nodes = s.nodes)
    (hcl : s'.clients = Function.update s.clients c (some ⟨side, k, v, false, (false, false), .cas⟩)) :
    Combining hash s' (.invoke c side k v :: h) := by
  refine ⟨wellSided_invoke hi.wellSided hcl, fun d p hd hp => ?_, fun k' hu hnp => ?_, hi.history.cons (by simp)⟩
  · rcases clients_invoke hcl hd with ⟨rfl, rfl⟩ | ⟨-, hd⟩
    · obtain rfl := hp
      exact ⟨d, List.mem_cons_self⟩
    · exact (hi.value d p hd hp).append [_]
  · rw [hn]
    refine (hi.buffer k' (by rwa [IsUnique, hn] at hu) ?_).append [_]
    rintro ⟨d, p, hd, h1, h2, h3⟩
    have hdc : d ≠ c := fun e => by rw [e, hc] at hd; cases hd
    exact hnp ⟨d, p, by rwa [hcl, Function.update_of_ne hdc], h1, h2, h3⟩

/-- After a step of client `c` the other clients are where they were. -/
theorem ClientStep.clients_cases {c : Nat} {o : Op} (hs : ClientStep hash s c o s' es) {d : Nat} {p : Op}
    (hd : s'.clients d = some p) :
    (d = c ∧ (o.step (s.nodes (hash o.key)) (s.remote o.key)).2.next = some p) ∨ (d ≠ c ∧ s.clients d = some p) := by
  rw [hs.clients] at hd
  exact update_eq_some hd

theorem ClientStep.wellSided {c : Nat} {o : Op} (hs : ClientStep hash s c o s' es)
    (hw : ∀ d p, s.clients d = some p → p.WellSided) : ∀ d p, s'.clients d = some p → p.WellSided := by
  intro d p hd
  rcases hs.clients_cases hd with ⟨-, hn⟩ | ⟨-, hd⟩
  · exact Op.step_wellSided _ _ _ (hw _ _ hs.client) hn
  · exact hw d p hd

theorem ClientStep.node_of_ne {c : Nat} {o : Op} (hs : ClientStep hash s c o s' es) {i : Nat} (hi : i ≠ hash o.key) :
    s'.nodes i = s.nodes i := by
  rw [hs.nodes, Function.update_of_ne hi]

theorem ClientStep.node {c : Nat} {o : Op} (hs : ClientStep hash s c o s' es) :
    s'.nodes (hash o.key) = (o.step (s.nodes (hash o.key)) (s.remote o.key)).1 := by
  rw [hs.nodes, Function.update_self]

/-- A step that leaves a unique key behind has found it, or is the compare-exchange that installs it. -/
theorem ClientStep.isUnique {c : Nat} {o : Op} (hs : ClientStep hash s c o s' es) (hu : IsUnique hash s' k) :
    IsUnique hash s k ∨ (o.pc = .cas ∧ o.side = .write ∧ o.key = k ∧
      ((s.nodes (hash k)).queue .write).uniqueKey = none ∧ s'.clients c = some (o.at' (.combine true))) := by
  by_cases hq : hash o.key = hash k ∧ o.side = .write
  · obtain ⟨hk, hw⟩ := hq
    unfold IsUnique at hu ⊢
    rw [← hk, hs.node] at hu
    have hstep := Op.step_unique o (s.nodes (hash o.key)) (s.remote o.key)
    rw [hw] at hstep
    rcases hstep with he | ⟨hpc, hnone, hsome, hnext⟩ | ⟨-, hnone⟩
    · exact .inl (by rw [← hk, ← he, hu])
    · refine .inr ⟨hpc, hw, Option.some.inj (hsome.symm.trans hu), hk ▸ hnone, ?_⟩
      rw [hs.clients, Function.update_self, hnext]
    · cases hnone.symm.trans hu
  · obtain ⟨w, hw⟩ := hs.queue_of_ne hq
    rw [IsUnique, hw] at hu
    exact .inl hu

theorem Combining.step {c : Nat} {o : Op} (hi : Combining hash s h) (hg : Settled hash s (.step c))
    (hs : ClientStep hash s c o s' es) : Combining hash s' (es ++ h) := by
  have hval : ∀ d p, s'.clients d = some p → p.side = .write → Passed h p.key p.value := by
    intro d p hd hp
    rcases hs.clients_cases hd with ⟨-, hn⟩ | ⟨-, hd⟩
    · obtain ⟨h1, h2⟩ := Op.step_same _ _ _ hn
      have hw : o.side = .write := h1.symm.trans hp
      rw [h2]
      rcases Op.step_value _ _ _ (hi.wellSided c o hs.client) hw hn with hv | ⟨hpc, hv⟩
      · rw [hv]
        exact hi.value c o hs.client hw
      · -- the value in the buffer
        rw [hv]
        obtain ⟨hu, hnp⟩ := (hg o hs.client hw).2 hpc
        exact hi.buffer _ hu hnp
    · exact hi.value d p hd hp
  have hbuf : ∀ k, IsUnique hash s' k → ¬Pending s' k → Passed h k (s'.nodes (hash k)).wcBuffer := by
    intro k hu hnp
    rcases hs.isUnique hu with hu | ⟨-, hw, hk, -, hc⟩
    swap
    · exact absurd ⟨c, _, hc, hw, hk, rfl⟩ hnp
    -- a client that has installed the key and has now stored its value
    by_cases hpend : Pending s k
    · obtain ⟨d, p, hd, hp, hpk, hpc⟩ := hpend
      obtain rfl : d = c := by
        by_contra hdc
        exact hnp ⟨d, p, by rw [hs.clients, Function.update_of_ne hdc, hd], hp, hpk, hpc⟩
      obtain rfl : p = o := Option.some.inj (hd.symm.trans hs.client)
      subst hpk
      have hst : (p.step (s.nodes (hash p.key)) (s.remote p.key)).1.wcBuffer = p.value := by
        obtain ⟨side, key, value, res, ret, pc⟩ := p
        cases hpc
        rfl
      rw [hs.node, hst]
      exact hi.value d p hd hp
    · by_cases hk : hash k = hash o.key
      · rw [hk, hs.node]
        rcases Op.step_wcBuffer o (s.nodes (hash o.key)) (s.remote o.key) with hb | ⟨b, hpc, hb, -⟩
        · rw [hb, ← hk]
          exact hi.buffer k hu hpend
        · -- the key that is stored for is the unique one
          have hw : o.side = .write := hi.wellSided c o hs.client _ (by rw [hpc]; rfl)
          have hu' := (hg o hs.client hw).1 b hpc
          unfold IsUnique at hu hu'
          rw [hk, hu'] at hu
          rw [hb, ← Option.some.inj hu]
          exact hi.value c o hs.client hw
      · rw [hs.node_of_ne hk]
        exact hi.buffer k hu hpend
  refine ⟨hs.wellSided hi.wellSided, fun d p hd hp => (hval d p hd hp).append es,
    fun k hu hnp => (hbuf k hu hnp).append es, ?_⟩
  rw [hs.events]
  cases hout : (o.step (s.nodes (hash o.key)) (s.remote o.key)).2 with
  | goto p => exact hi.history
  | ret => exact hi.history.cons fun _ _ _ he => nomatch he
  | write p =>
    refine hi.history.cons fun c' k' v' he => ?_
    cases he
    have hw : o.side = .write := hi.wellSided c o hs.client _ (by rw [(Op.step_write _ _ _ hout).1]; rfl)
    exact hi.value c o hs.client hw

/-- **Write combining** writes, in every settled run, only values that were passed for the key. -/
theorem writes_own_values (hash : Nat → Nat) (init : Nat → Bool × Nat × Nat) (remote : Nat → Nat) {s : LockTable}
    {h : List Event} (hrun : (machine hash init remote).Run (Settled hash) s h) : OwnValues h := by
  refine (hrun.invariant (I := Combining hash) ⟨?_, ?_, ?_, ?_⟩ ?_).history
  · intro c o hc
    cases hc
  · intro c o hc
    cases hc
  · intro k hu
    cases hu
  · intro c k v h₁ hs
    cases List.suffix_nil.1 hs
  · intro s h a s' es _ hi hg hstep
    rcases step_cases hstep with ⟨c, side, k, v, rfl, hc, hn, hcl, rfl⟩ | ⟨c, o, rfl, hs⟩ | ⟨k, v, rfl, hn, hcl, rfl⟩
    · exact hi.invoke hc hn hcl
    · exact hi.step hg hs
    · obtain ⟨h1, h2, h3, h4⟩ := hi
      unfold IsUnique Pending at h3
      refine ⟨?_, ?_, ?_, h4⟩
      · rwa [hcl]
      · rwa [hcl]
      · unfold IsUnique Pending
        rwa [hn, hcl]

/-- Two writes of the key 1 that are combined: the client 1 joins before the client 0 writes. -/
def joined : List Action :=
  [.invoke 0 .write 1 10, .invoke 1 .write 1 20] ++ List.replicate 3 (.step 0) ++ List.replicate 3 (.step 1) ++
    List.replicate 8 (.step 0)

/-- The check of the guard for two clients on one lock node. -/
def settledCheck (s : LockTable) (a : Action) : Bool :=
  a.below 2 && match a with
  | .step c =>
    match s.clients c with
    | some o =>
      match o.pc with
      | .combine _ => ((s.nodes 0).queue .write).uniqueKey = some o.key
      | .loadBuffer => ((s.nodes 0).queue .write).uniqueKey = some o.key ∧
          (List.range 2).all fun d => (s.clients d).all fun p : Op => p.pc ≠ .combine true
      | _ => true
    | none => true
  | _ => true

theorem settled_of_check {a : Action} (hb : Below 2 s) (hg : settledCheck s a = true) : Settled (fun _ => 0) s a := by
  cases a with
  | invoke c side k v => trivial
  | remote k v => trivial
  | step c =>
    intro o hc _
    have hg := (Bool.and_eq_true_iff.1 hg).2
    simp only [hc] at hg
    constructor
    · intro b hpc
      simp only [hpc, decide_eq_true_eq] at hg
      exact hg
    · intro hpc
      simp only [hpc, decide_eq_true_eq] at hg
      refine ⟨hg.1, ?_⟩
      rintro ⟨d, p, hd, -, -, hp⟩
      have hlt : d < 2 := by
        by_contra hge
        rw [hb d (by omega)] at hd
        cases hd
      have := List.all_eq_true.1 hg.2 d (List.mem_range.2 hlt)
      rw [hd, Option.all_some, decide_eq_true_eq] at this
      exact this hp

/-- The write of a combined value. -/
theorem writes_own_values_joined :
    ∃ s h₁, single.Run (Settled fun _ => 0) s (.write 0 1 20 :: h₁) ∧ Passed h₁ 1 20 := by
  have hexec : (single.exec settledCheck single.init [] joined).map (·.2) =
      some [.write 0 1 20, .invoke 1 .write 1 20, .invoke 0 .write 1 10] := by decide +kernel
  obtain ⟨⟨s, h⟩, he, rfl⟩ := Option.map_eq_some_iff.1 hexec
  have hrun : single.Run (Settled fun _ => 0) s _ := Machine.Run.of_exec (I := Below 2) settled_of_check
    (fun hb hg hs => hb.step (Bool.and_eq_true_iff.1 hg).1 hs) (fun c _ => rfl) .init he
  exact ⟨s, _, hrun, writes_own_values _ _ _ hrun 0 1 20 _ List.suffix_rfl⟩

/-- Three clients: the client 1 passes the check of the key 1, the client 0 ends the epoch of the key, the client 2
begins an epoch of the key 2, and the client 1 stores its value. -/
def crossed : List Action :=
  [.invoke 0 .write 1 10, .step 0, .invoke 1 .write 1 20, .step 1] ++ List.replicate 21 (.step 0) ++
    [.invoke 2 .write 2 30, .step 2, .step 2, .step 1] ++ List.replicate 9 (.step 2)

/-- A store to `wc_buffer` in the epoch of another key is written under that key. -/
theorem not_writes_own_values : ¬∀ hash init remote s h, (machine hash init remote).Run (fun _ _ => True) s h →
    OwnValues h := by
  intro hall
  have hexec : (single.exec (fun _ _ => true) single.init [] crossed).map (·.2) = some [.write 2 2 20,
      .invoke 2 .write 2 30, .ret 0 ⟨.write, 1, 10, false, (false, false), .leave⟩, .write 0 1 10,
      .invoke 1 .write 1 20, .invoke 0 .write 1 10] := by decide +kernel
  obtain ⟨⟨s, h⟩, he, rfl⟩ := Option.map_eq_some_iff.1 hexec
  have hrun := Machine.Run.of_exec (I := fun _ => True) (fun _ _ => trivial) (fun _ _ _ => trivial) trivial .init he
  obtain ⟨c, hc⟩ := hall _ _ _ s _ hrun 2 2 20 _ List.suffix_rfl
  simp at hc

end LockTable
end Chime

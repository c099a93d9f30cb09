import Chime.WriteCombining

/-!
# Handover of writes

The operations that find their key in the unique key and follow one another with the handover flag set form an epoch.
In an epoch the owner's key is the unique key (`Epoch.step`). In a run where no write begins in an epoch of its key
that is past the remote write of its winner (`Timely`), an operation that returns by handover overlaps a remote write of
its key (`handover_overlaps`).
-/

namespace Chime

/-! ## Epochs -/

namespace Op

/-- The operation holds the lock and has found its key in the unique key, which it has not cleared. -/
def owns (o : Op) : Bool :=
  match o.pc with
  | .recheck | .bailWindow | .bailDecrement | .bailReadWindow | .bailWriteWindow | .bailWindowStart | .bailNext
  | .finish => false
  | _ => o.holds

/-- The operation is in the release of its lock, before the store of the handover flag. -/
def releasing (o : Op) : Bool :=
  match o.pc with
  | .relTicket | .relCurrent _ | .relHandover _ _ | .relStart _ _ | .relOwnWindow _ _ | .relOtherWindow _ _
  | .storeHandover _ _ => true
  | _ => false

theorem holds_of_owns {o : Op} (h : o.owns = true) : o.holds = true := by
  unfold owns at h
  split at h <;> first | cases h | exact h

theorem owns_of_releasing {o : Op} (h : o.releasing = true) : o.owns = true := by
  obtain ⟨side, key, value, res, ret, pc⟩ := o
  cases pc <;> first | rfl | cases h

theorem not_acquiring_of_releasing {o : Op} (h : o.releasing = true) : o.acquiring = false := by
  obtain ⟨side, key, value, res, ret, pc⟩ := o
  cases pc <;> first | rfl | cases h

variable (o : Op) (n : LocalLockNode) (r : Nat)

theorem conflict_owns : o.conflict.owns = false := by
  obtain ⟨side, key, value, res, ret, pc⟩ := o
  cases side <;> rfl

/-- An operation comes to own its queue by the second load of the unique key. -/
theorem step_owns {p : Op} (h : (o.step n r).2.next = some p) (hp : p.owns = true) :
    (o.owns = true ∧ o.pc ≠ .clearUnique) ∨ (o.pc = .recheck ∧ (n.queue o.side).uniqueKey = some o.key) := by
  obtain ⟨side, key, value, res, ret, pc⟩ := o
  cases pc with
  | cas =>
    simp only [step, acquireLocalLock] at h
    split at h
    · cases h
      cases side <;> cases hp
    · split at h <;> cases h
      · rw [conflict_owns] at hp
        cases hp
      · cases side <;> cases hp
  | combine | takeTicket | bailDecrement | bailWindowStart | finish => cases h; cases hp
  | wait t =>
    simp only [step, acquireLocalLock] at h
    split at h <;> cases h <;> cases hp
  | recheck =>
    simp only [step, acquireLocalLock] at h
    split at h <;> cases h
    · cases hp
    · exact .inr ⟨rfl, not_not.1 ‹_›⟩
  | bailWindow | bailReadWindow | bailWriteWindow =>
    simp only [step, acquireLocalLock] at h
    split at h <;> cases h <;> cases hp
  | bailNext =>
    cases h
    rw [conflict_owns] at hp
    cases hp
  | remoteRead | remoteWrite =>
    refine .inl ⟨?_, by rintro ⟨⟩⟩
    cases hc : ret.2 with
    | false => simp [owns, holds, hc]
    | true =>
      cases h
      have := queued_of_holds (holds_of_owns hp)
      rw [afterAccess_queued _ hc] at this
      cases this
  | loadUnique =>
    refine .inl ⟨?_, by rintro ⟨⟩⟩
    simp only [step, access] at h
    split at h <;> cases h <;> exact hp
  | loadBuffer => cases h; exact .inl ⟨hp, by rintro ⟨⟩⟩
  | clearUnique => cases h; cases hp
  | leave => cases h
  | _ => exact .inl ⟨rfl, by rintro ⟨⟩⟩

/-- The unique key is cleared by an operation that has loaded a cleared handover flag. -/
theorem step_clearUnique {p : Op} (h : (o.step n r).2.next = some p) (hp : p.pc = .clearUnique) :
    o.pc = .testHandover ∧ (n.queue o.side).handover = false := by
  have hbody : ∀ {o : Op}, o.body.pc ≠ .clearUnique := by
    intro o
    unfold body
    split <;> cases o.side <;> nofun
  have hafter : ∀ {o : Op}, o.afterAccess.pc ≠ .clearUnique := by
    intro o
    unfold afterAccess
    split
    · nofun
    · cases o.side <;> nofun
  by_cases ha : o.acquiring = true
  · rcases step_acquire _ _ _ ha h with ⟨-, hacq⟩ | rfl | ⟨-, rfl⟩
    · simp [acquiring, hp] at hacq
    · exact absurd hp hbody
    · exact absurd hp hbody
  obtain ⟨side, key, value, res, ret, pc⟩ := o
  cases pc with
  | remoteRead | remoteWrite => cases h; exact absurd hp hafter
  | loadUnique =>
    simp only [step, access] at h
    split at h <;> cases h <;> cases hp
  | share | relHandover | relStart =>
    simp only [step, releaseLocalLock] at h
    split at h <;> cases h <;> cases side <;> cases hp
  | relOwnWindow | relOtherWindow => cases h; cases side <;> cases hp
  | testHandover =>
    simp only [step, releaseLocalLock] at h
    split at h <;> cases h
    · cases hp
    · exact ⟨rfl, Bool.eq_false_of_not_eq_true ‹_›⟩
  | leave => cases h
  | _ => first | exact absurd rfl ha | (cases h; cases hp)

/-- A write comes into its release from its remote write, or by handover. -/
theorem step_releasing {p : Op} (hw : o.WellSided) (hs : o.side = .write) (h : (o.step n r).2.next = some p)
    (hp : p.releasing = true) :
    o.releasing = true ∨ (o.pc = .loadHandover ∧ (n.queue o.side).handover = true) ∨
      (o.pc = .remoteWrite ∧ (o.step n r).2 = .write p) := by
  by_cases ha : o.acquiring = true
  · rcases step_acquire _ _ _ ha h with ⟨-, hacq⟩ | rfl | ⟨hpc, rfl⟩
    · cases hacq.symm.trans (not_acquiring_of_releasing hp)
    · cases (conflict_owns o).symm.trans (owns_of_releasing hp)
    · rw [hs]
      refine .inr (.inl ⟨hpc, ?_⟩)
      -- without handover the write goes on to its remote write
      by_contra hho
      simp [body, releasing, handover, hs, Bool.eq_false_of_not_eq_true hho] at hp
  obtain ⟨side, key, value, res, ret, pc⟩ := o
  obtain rfl := hs
  cases pc with
  | remoteRead | storeRes | storeRetValue | loadRes | loadRetValue => cases hw _ rfl
  | remoteWrite => cases h; exact .inr (.inr ⟨rfl, rfl⟩)
  | loadUnique =>
    simp only [step, access] at h
    split at h <;> cases h <;> cases hp
  | share | testHandover =>
    simp only [step, releaseLocalLock] at h
    split at h <;> cases h <;> cases hp
  | relTicket | relCurrent | relHandover | relStart | relOwnWindow | relOtherWindow | storeHandover => exact .inl rfl
  | leave => cases h
  | _ => first | exact absurd rfl ha | (cases h; cases hp)

/-- A write gets its result by the load of the handover flag. -/
theorem step_acquireRet {p : Op} (h : (o.step n r).2.next = some p) (hp : p.handover = true) :
    o.handover = true ∨ (o.pc = .loadHandover ∧ (n.queue o.side).handover = true) := by
  have hbody : ∀ {o : Op}, o.body.handover = o.handover := by
    intro o
    unfold body
    split <;> rfl
  have hafter : ∀ {o : Op}, o.afterAccess.handover = o.handover := by
    intro o
    unfold afterAccess
    split <;> rfl
  by_cases ha : o.acquiring = true
  · rcases step_acquire _ _ _ ha h with ⟨he, -⟩ | rfl | ⟨hpc, rfl⟩
    · rw [he] at hp
      exact .inl hp
    · rw [conflict, hbody] at hp
      cases hp
    · rw [hbody] at hp
      exact .inr ⟨hpc, by simpa [handover] using hp⟩
  obtain ⟨side, key, value, res, ret, pc⟩ := o
  cases pc with
  | remoteRead | remoteWrite =>
    cases h
    rw [hafter] at hp
    exact .inl hp
  | relStart =>
    simp only [step, releaseLocalLock] at h
    split at h <;> cases h <;> exact .inl hp
  | leave => cases h
  | _ => first | exact absurd rfl ha | (cases h; exact .inl hp)

end Op

namespace LockTable

/-- What a queue keeps within an epoch: the owner's key is the unique key, and there is one while the handover flag is
set. -/
structure Epoch (q : WaitingQueue) (ops : Nat → Option Op) : Prop where
  owner : ∀ c o, ops c = some o → o.owns = true → q.uniqueKey = some o.key
  cleared : ∀ c o, ops c = some o → o.pc = .clearUnique → q.handover = false
  handover : q.handover = true → q.uniqueKey ≠ none

theorem Epoch.congr {q q' : WaitingQueue} {ops : Nat → Option Op} (h : Epoch q ops) (hu : q'.uniqueKey = q.uniqueKey)
    (hh : q'.handover = q.handover) : Epoch q' ops := by
  obtain ⟨h1, h2, h3⟩ := h
  exact ⟨hu ▸ h1, hh ▸ h2, hu ▸ hh ▸ h3⟩

theorem Epoch.init {q : WaitingQueue} {ops : Nat → Option Op} (hq : q.handover = false) (hops : ∀ c, ops c = none) :
    Epoch q ops :=
  ⟨fun c o hc => by simp [hops] at hc, fun c o hc => by simp [hops] at hc, fun h => by simp [hq] at h⟩

/-- A client outside its queue's epochs. -/
theorem Epoch.outside {q : WaitingQueue} {ops : Nat → Option Op} {c : Nat} {o' : Option Op} (h : Epoch q ops)
    (ho : ∀ p, o' = some p → p.pc = .cas) : Epoch q (Function.update ops c o') := by
  have hold : ∀ {d p}, Function.update ops c o' d = some p → ops d = some p ∨ p.pc = .cas := by
    intro d p hd
    rcases update_eq_some hd with ⟨-, hd⟩ | ⟨-, hd⟩
    · exact .inr (ho p hd)
    · exact .inl hd
  refine ⟨fun d p hd hp => ?_, fun d p hd hp => ?_, h.handover⟩
  · rcases hold hd with hd | hpc
    · exact h.owner d p hd hp
    · simp [Op.owns, Op.holds, hpc] at hp
  · rcases hold hd with hd | hpc
    · exact h.cleared d p hd hp
    · cases hp.symm.trans hpc

/-- **A step** of an operation keeps the epochs of its queue. -/
theorem Epoch.step {n : LocalLockNode} {ops : Nat → Option Op} {c : Nat} {o : Op} (h : Epoch (n.queue o.side) ops)
    (ht : Tickets (n.queue o.side) ops) (hc : ops c = some o) (r : Nat) :
    Epoch ((o.step n r).1.queue o.side) (Function.update ops c (o.step n r).2.next) := by
  -- two operations do not hold the lock at once
  have hexcl : ∀ {d p}, d ≠ c → ops d = some p → p.holds = true → o.holds = true → False :=
    fun hdc hd hp ho => hdc (ht.unique hd hc hp ho)
  have hclear : o.pc = .clearUnique → o.holds = true := fun hpc => by simp [Op.holds, hpc]
  refine ⟨fun d p hd hp => ?_, fun d p hd hp => ?_, fun hho => ?_⟩
  · rcases update_eq_some hd with ⟨-, hn⟩ | ⟨hdc, hd⟩
    · obtain ⟨-, hkey⟩ := Op.step_same _ _ _ hn
      have huniq : (n.queue o.side).uniqueKey = some o.key := by
        rcases Op.step_owns _ _ _ hn hp with ⟨ho, -⟩ | ⟨-, hu⟩
        · exact h.owner c o hc ho
        · exact hu
      rcases Op.step_unique o n r with he | ⟨-, hnone, -⟩ | ⟨hpc, -⟩
      · rw [he, huniq, hkey]
      · cases hnone.symm.trans huniq
      · rcases Op.step_owns _ _ _ hn hp with ⟨-, hne⟩ | ⟨hpc', -⟩
        · exact absurd hpc hne
        · cases hpc.symm.trans hpc'
    · have hu := h.owner d p hd hp
      rcases Op.step_unique o n r with he | ⟨-, hnone, -⟩ | ⟨hpc, -⟩
      · rw [he, hu]
      · cases hnone.symm.trans hu
      · exact (hexcl hdc hd (Op.holds_of_owns hp) (hclear hpc)).elim
  · rcases update_eq_some hd with ⟨-, hn⟩ | ⟨hdc, hd⟩
    · obtain ⟨hpc, hf⟩ := Op.step_clearUnique _ _ _ hn hp
      rcases Op.step_handover o n r with he | ⟨hpc', -⟩ | ⟨t, u, hpc'⟩
      · rw [he, hf]
      · cases hpc.symm.trans hpc'
      · cases hpc.symm.trans hpc'
    · have hf := h.cleared d p hd hp
      rcases Op.step_handover o n r with he | ⟨-, he⟩ | ⟨t, u, hpc⟩
      · rw [he, hf]
      · exact he
      · exact (hexcl hdc hd (by simp [Op.holds, hp]) (by simp [Op.holds, hpc])).elim
  · -- the flag is set by the owner, whose key is the unique key
    have hset : (n.queue o.side).uniqueKey ≠ none ∧ o.pc ≠ .clearUnique := by
      rcases Op.step_handover o n r with he | ⟨-, he⟩ | ⟨t, u, hpc⟩
      · rw [he] at hho
        refine ⟨h.handover hho, fun hpc => ?_⟩
        cases hho.symm.trans (h.cleared c o hc hpc)
      · cases hho.symm.trans he
      · refine ⟨?_, fun hpc' => ?_⟩
        · rw [h.owner c o hc (by simp [Op.owns, Op.holds, hpc])]
          exact Option.some_ne_none _
        · cases hpc.symm.trans hpc'
    rcases Op.step_unique o n r with he | ⟨-, -, he, -⟩ | ⟨hpc, -⟩
    · rw [he]
      exact hset.1
    · rw [he]
      exact Option.some_ne_none _
    · exact absurd hpc hset.2

/-! ## Handover -/

variable {hash : Nat → Nat} {s s' : LockTable} {h es : List Event} {k v c : Nat} {o : Op}

/-- A step of a client keeps the epochs of all queues. -/
theorem epoch_step (hs : ClientStep hash s c o s' es) (he : ∀ i σ, Epoch ((s.nodes i).queue σ) (opsOn hash s i σ))
    (ht : ∀ i σ, Tickets ((s.nodes i).queue σ) (opsOn hash s i σ)) (i : Nat) (σ : Side) :
    Epoch ((s'.nodes i).queue σ) (opsOn hash s' i σ) := by
  by_cases hq : hash o.key = i ∧ o.side = σ
  · obtain ⟨rfl, rfl⟩ := hq
    rw [hs.opsOn, hs.node]
    exact (he _ _).step (ht _ _) (opsOn_eq_some.2 ⟨hs.client, rfl, rfl⟩) _
  · obtain ⟨w, hw⟩ := hs.queue_of_ne hq
    rw [hs.opsOn_of_ne hq, hw]
    exact (he i σ).congr rfl rfl

/-- So does an invocation. -/
theorem epoch_invoke {side : Side} (he : ∀ i σ, Epoch ((s.nodes i).queue σ) (opsOn hash s i σ)) (hn : s'.nodes = s.nodes)
    (hcl : s'.clients = Function.update s.clients c (some ⟨side, k, v, false, (false, false), .cas⟩)) (i : Nat)
    (σ : Side) : Epoch ((s'.nodes i).queue σ) (opsOn hash s' i σ) := by
  rw [hn, opsOn_invoke hcl]
  refine (he i σ).outside fun p hp => ?_
  cases (Option.filter_eq_some_iff.1 hp).1
  rfl

/-- Some client has done its remote write of the key since the last invocation of client `c`. -/
def WrittenSince (c k : Nat) : List Event → Prop
  | [] => False
  | .write _ k' _ :: h => k' = k ∨ WrittenSince c k h
  | .invoke c' _ _ _ :: h => c' ≠ c ∧ WrittenSince c k h
  | .ret _ _ :: h => WrittenSince c k h

/-- A write that returns by handover overlaps a remote write of its key. -/
def HandoversOverlap (h : List Event) : Prop :=
  ∀ c o h₁, (.ret c o :: h₁) <:+ h → o.side = .write → o.handover = true → WrittenSince c o.key h₁

/-- The key's epoch is past the remote write of its winner: the handover flag is set, or a client is in its release and
has not yet stored the flag. -/
def InHandover (hash : Nat → Nat) (s : LockTable) (k : Nat) : Prop :=
  IsUnique hash s k ∧ (((s.nodes (hash k)).queue .write).handover = true ∨
    ∃ c o, opsOn hash s (hash k) .write c = some o ∧ o.releasing = true)

/-- The guard of handover: at most 255 clients at a time, and no write begins in an epoch of its key that is past the
remote write. -/
def Timely (hash : Nat → Nat) (s : LockTable) (a : Action) : Prop :=
  AtMost255 s.clients ∧ ∀ c k v, a = .invoke c .write k v → ¬InHandover hash s k

/-- What holds in every timely run. -/
structure HandingOver (hash : Nat → Nat) (s : LockTable) (h : List Event) : Prop where
  wellSided : ∀ c o, s.clients c = some o → o.WellSided
  epoch : ∀ i σ, Epoch ((s.nodes i).queue σ) (opsOn hash s i σ)
  late : ∀ k, InHandover hash s k → ∀ c o, s.clients c = some o → o.side = .write → o.key = k → WrittenSince c k h
  handed : ∀ c o, s.clients c = some o → o.side = .write → o.handover = true → WrittenSince c o.key h
  history : HandoversOverlap h

theorem ClientStep.writtenSince (hs : ClientStep hash s c o s' es) {d : Nat} (hw : WrittenSince d k h) :
    WrittenSince d k (es ++ h) := by
  rw [hs.events]
  cases (o.step (s.nodes (hash o.key)) (s.remote o.key)).2 with
  | goto p => exact hw
  | write p => exact .inr hw
  | ret => exact hw

theorem HandoversOverlap.cons {e : Event} (hh : HandoversOverlap h)
    (he : ∀ c o, e = .ret c o → o.side = .write → o.handover = true → WrittenSince c o.key h) :
    HandoversOverlap (e :: h) := by
  intro c o h₁ hs
  rcases List.suffix_cons_iff.1 hs with heq | hs
  · obtain ⟨rfl, rfl⟩ := List.cons.inj heq
    exact he c o rfl
  · exact hh c o h₁ hs

/-- An epoch gets past the remote write of its winner by this remote write. -/
theorem HandingOver.inHandover (hi : HandingOver hash s h) (hs : ClientStep hash s c o s' es)
    (hk : InHandover hash s' k) : InHandover hash s k ∨ ∃ v, es = [.write c k v] := by
  obtain ⟨hu, hlate⟩ := hk
  have hepoch := hi.epoch (hash k) .write
  rcases hs.isUnique hu with hu | ⟨hpc, hw, rfl, hnone, hc⟩
  swap
  · -- a key that has just been installed is not handed over
    exfalso
    rcases hlate with hho | ⟨d, p, hd, hp⟩
    · have hstep := Op.step_handover o (s.nodes (hash o.key)) (s.remote o.key)
      rw [hw, ← hs.node] at hstep
      rcases hstep with he | ⟨hpc', -⟩ | ⟨t, u, hpc'⟩
      · exact hepoch.handover (he ▸ hho) hnone
      · cases hpc.symm.trans hpc'
      · cases hpc.symm.trans hpc'
    · obtain ⟨hd, hkey, hside⟩ := opsOn_eq_some.1 hd
      rcases hs.clients_cases hd with ⟨rfl, -⟩ | ⟨-, hd⟩
      · cases hd.symm.trans hc
        cases hp
      · have := hepoch.owner d p (opsOn_eq_some.2 ⟨hd, hkey, hside⟩) (Op.owns_of_releasing hp)
        cases hnone.symm.trans this
  rcases hlate with hho | ⟨d, p, hd, hp⟩
  · refine .inl ⟨hu, ?_⟩
    by_cases hq : hash o.key = hash k ∧ o.side = .write
    · have hstep := Op.step_handover o (s.nodes (hash o.key)) (s.remote o.key)
      rw [hq.2, ← hs.node, hq.1] at hstep
      rcases hstep with he | ⟨-, he⟩ | ⟨t, u, hpc⟩
      · exact .inl (he ▸ hho)
      · cases hho.symm.trans he
      · exact .inr ⟨c, o, opsOn_eq_some.2 ⟨hs.client, hq⟩, by simp [Op.releasing, hpc]⟩
    · obtain ⟨w, hw⟩ := hs.queue_of_ne hq
      rw [hw] at hho
      exact .inl hho
  · obtain ⟨hd, hkey, hside⟩ := opsOn_eq_some.1 hd
    rcases hs.clients_cases hd with ⟨rfl, hn⟩ | ⟨-, hd⟩
    swap
    · exact .inl ⟨hu, .inr ⟨d, p, opsOn_eq_some.2 ⟨hd, hkey, hside⟩, hp⟩⟩
    obtain ⟨hsame, hkeys⟩ := Op.step_same _ _ _ hn
    rw [hkeys] at hkey
    rw [hsame] at hside
    have hon := opsOn_eq_some.2 ⟨hs.client, hkey, hside⟩
    rcases Op.step_releasing _ _ _ (hi.wellSided _ _ hs.client) hside hn hp with hr | ⟨-, hho⟩ | ⟨hpc, hout⟩
    · exact .inl ⟨hu, .inr ⟨d, o, hon, hr⟩⟩
    · rw [hkey, hside] at hho
      exact .inl ⟨hu, .inl hho⟩
    · -- the winner of the epoch writes
      have howns : o.owns = true := by
        rcases Op.step_owns _ _ _ hn (Op.owns_of_releasing hp) with ⟨ho, -⟩ | ⟨hpc', -⟩
        · exact ho
        · cases hpc.symm.trans hpc'
      obtain rfl : o.key = k := Option.some.inj ((hepoch.owner d o hon howns).symm.trans hu)
      exact .inr ⟨o.value, by rw [hs.events, hout]; rfl⟩

theorem HandingOver.step (hi : HandingOver hash s h) (ht : ∀ i σ, Tickets ((s.nodes i).queue σ) (opsOn hash s i σ))
    (hs : ClientStep hash s c o s' es) : HandingOver hash s' (es ++ h) := by
  refine ⟨hs.wellSided hi.wellSided, epoch_step hs hi.epoch ht, fun k hk d p hd hp hpk => ?_, fun d p hd hp hho => ?_, ?_⟩
  · rcases hi.inHandover hs hk with hk | ⟨v, rfl⟩
    · refine hs.writtenSince ?_
      rcases hs.clients_cases hd with ⟨rfl, hn⟩ | ⟨-, hd⟩
      · obtain ⟨hsame, hkeys⟩ := Op.step_same _ _ _ hn
        exact hi.late k hk d o hs.client (hsame.symm.trans hp) (hkeys.symm.trans hpk)
      · exact hi.late k hk d p hd hp hpk
    · exact .inl rfl
  · refine hs.writtenSince ?_
    rcases hs.clients_cases hd with ⟨rfl, hn⟩ | ⟨-, hd⟩
    · obtain ⟨hsame, hkeys⟩ := Op.step_same _ _ _ hn
      have hw := hsame.symm.trans hp
      rw [hkeys]
      rcases Op.step_acquireRet _ _ _ hn hho with ho | ⟨hpc, hq⟩
      · exact hi.handed d o hs.client hw ho
      · -- the loaded flag was set, in the epoch of the own key
        rw [hw] at hq
        have hu := (hi.epoch _ _).owner d o (opsOn_eq_some.2 ⟨hs.client, rfl, hw⟩) (by simp [Op.owns, Op.holds, hpc])
        exact hi.late o.key ⟨hu, .inl hq⟩ d o hs.client hw rfl
    · exact hi.handed d p hd hp hho
  · rw [hs.events]
    cases (o.step (s.nodes (hash o.key)) (s.remote o.key)).2 with
    | goto p => exact hi.history
    | write p => exact hi.history.cons fun _ _ he => by cases he
    | ret =>
      refine hi.history.cons fun d p he hp hho => ?_
      cases he
      exact hi.handed c o hs.client hp hho

theorem HandingOver.invoke {side : Side} (hi : HandingOver hash s h)
    (hg : ∀ c' k' v', Action.invoke c side k v = .invoke c' .write k' v' → ¬InHandover hash s k')
    (hn : s'.nodes = s.nodes)
    (hcl : s'.clients = Function.update s.clients c (some ⟨side, k, v, false, (false, false), .cas⟩)) :
    HandingOver hash s' (.invoke c side k v :: h) := by
  have hin : ∀ {k'}, InHandover hash s' k' → InHandover hash s k' := by
    rintro k' ⟨hu, hlate⟩
    rw [IsUnique, hn] at hu
    rw [hn] at hlate
    refine ⟨hu, hlate.imp id ?_⟩
    rintro ⟨d, p, hd, hp⟩
    obtain ⟨hd, hrest⟩ := opsOn_eq_some.1 hd
    rcases clients_invoke hcl hd with ⟨rfl, -⟩ | ⟨-, hd⟩
    · cases hp
    · exact ⟨d, p, opsOn_eq_some.2 ⟨hd, hrest⟩, hp⟩
  refine ⟨wellSided_invoke hi.wellSided hcl, epoch_invoke hi.epoch hn hcl, fun k' hk d p hd hp hpk => ?_,
    fun d p hd hp hho => ?_, hi.history.cons fun _ _ he => by cases he⟩
  · rcases clients_invoke hcl hd with ⟨rfl, -⟩ | ⟨hdc, hd⟩
    · subst hp hpk
      exact absurd (hin hk) (hg _ _ _ rfl)
    · exact ⟨Ne.symm hdc, hi.late k' (hin hk) d p hd hp hpk⟩
  · rcases clients_invoke hcl hd with ⟨rfl, -⟩ | ⟨hdc, hd⟩
    · cases hho
    · exact ⟨Ne.symm hdc, hi.handed d p hd hp hho⟩

/-- **Handover** loses, in every timely run, no write: an operation that returns by handover overlaps a remote write of
its key. -/
theorem handover_overlaps (hash : Nat → Nat) (init : Nat → Bool × Nat × Nat) (remote : Nat → Nat) {s : LockTable}
    {h : List Event} (hrun : (machine hash init remote).Run (Timely hash) s h) : HandoversOverlap h := by
  refine (hrun.invariant (I := HandingOver hash) ⟨?_, ?_, ?_, ?_, ?_⟩ ?_).history
  · intro c o hc
    cases hc
  · exact fun i σ => .init rfl fun c => rfl
  · intro k hk c o hc
    cases hc
  · intro c o hc
    cases hc
  · intro c o h₁ hs
    cases List.suffix_nil.1 hs
  · intro s h a s' es hr hi hg hstep
    rcases step_cases hstep with ⟨c, side, k, v, rfl, -, hn, hcl, rfl⟩ | ⟨c, o, rfl, hs⟩ | ⟨k, v, rfl, hn, hcl, rfl⟩
    · exact hi.invoke hg.2 hn hcl
    · exact hi.step (tickets (fun _ _ hg => hg.1) hr) hs
    · obtain ⟨h1, h2, h3, h4, h5⟩ := hi
      have hops : opsOn hash s' = opsOn hash s := by
        funext i σ c
        rw [opsOn, hcl]
        rfl
      unfold InHandover IsUnique at h3
      refine ⟨?_, ?_, ?_, ?_, h5⟩
      · rwa [hcl]
      · rwa [hn, hops]
      · unfold InHandover IsUnique
        rwa [hn, hops, hcl]
      · rwa [hcl]

/-- The check of the guard for two clients on one lock node: an operation begins in no epoch. -/
def timelyCheck (s : LockTable) (a : Action) : Bool :=
  a.below 2 && match a with
  | .invoke _ _ _ _ => ((s.nodes 0).queue .write).uniqueKey = none
  | _ => true

theorem timely_of_check {a : Action} (hb : Below 2 s) (hg : timelyCheck s a = true) : Timely (fun _ => 0) s a := by
  refine ⟨hb.atMost255 (by decide), ?_⟩
  rintro c k v rfl ⟨hu, -⟩
  have hg := of_decide_eq_true (Bool.and_eq_true_iff.1 hg).2
  cases hg.symm.trans hu

/-- The return by handover of the client that has joined. -/
theorem handover_overlaps_joined : ∃ s h₁ o, single.Run (Timely fun _ => 0) s (.ret 1 o :: h₁) ∧
    o.handover = true ∧ WrittenSince 1 1 h₁ := by
  have hexec : (single.exec timelyCheck single.init []
      (joined ++ List.replicate 10 (.step 0) ++ List.replicate 12 (.step 1))).map (·.2) =
      some [.ret 1 ⟨.write, 1, 20, false, (true, false), .leave⟩,
        .ret 0 ⟨.write, 1, 20, false, (false, false), .leave⟩, .write 0 1 20, .invoke 1 .write 1 20,
        .invoke 0 .write 1 10] := by decide +kernel
  obtain ⟨⟨s, h⟩, he, rfl⟩ := Option.map_eq_some_iff.1 hexec
  have hrun : single.Run (Timely fun _ => 0) s _ := Machine.Run.of_exec (I := Below 2) timely_of_check
    (fun hb hg hs => hb.step (Bool.and_eq_true_iff.1 hg).1 hs) (fun c _ => rfl) .init he
  exact ⟨s, _, _, hrun, rfl, handover_overlaps _ _ _ hrun 1 _ _ List.suffix_rfl rfl rfl⟩

/-- The client 1 joins the epoch after the client 0 has written and before it releases. -/
def lateJoin : List Action :=
  .invoke 0 .write 1 10 :: List.replicate 11 (.step 0) ++ .invoke 1 .write 1 20 :: List.replicate 3 (.step 1) ++
    List.replicate 10 (.step 0) ++ List.replicate 12 (.step 1)

/-- A write that joins the epoch late is dropped behind a write that took effect before it began. -/
theorem not_handover_overlaps : ¬∀ hash init remote s h,
    (machine hash init remote).Run (fun s _ => AtMost255 s.clients) s h → HandoversOverlap h := by
  intro hall
  have hexec : (single.exec (fun _ a => a.below 2) single.init [] lateJoin).map (·.2) =
      some [.ret 1 ⟨.write, 1, 20, false, (true, false), .leave⟩,
        .ret 0 ⟨.write, 1, 10, false, (false, false), .leave⟩, .invoke 1 .write 1 20, .write 0 1 10,
        .invoke 0 .write 1 10] := by decide +kernel
  obtain ⟨⟨s, h⟩, he, rfl⟩ := Option.map_eq_some_iff.1 hexec
  have hrun : single.Run (fun s _ => AtMost255 s.clients) s _ := Machine.Run.of_exec (I := Below 2)
    (fun hb _ => hb.atMost255 (by decide)) (fun hb hg hs => hb.step hg hs) (fun c _ => rfl) .init he
  have := hall _ _ _ s _ hrun 1 _ _ List.suffix_rfl rfl rfl
  simp [WrittenSince] at this

end LockTable
end Chime

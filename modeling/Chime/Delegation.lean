import Chime.Handover

/-!
# Delegation of reads

A search that returns by handover takes the result that the winner of its epoch left in the lock node (`Op.Sharing`).
In a run where a search of a key begins past the remote read of the key's epoch only while the result handed over is
still the state of the key (`JoinsInTime`), such a result was the state of the key at some moment since the search began
(`delegated_fresh`).
-/

namespace Chime

/-! ## Steps of a search -/

namespace Op

/-- The search is past its remote read, or its wait for a handover, and has not yet stored the handover flag. -/
def pastRead (o : Op) : Bool :=
  match o.pc with
  | .share | .storeRes | .storeRetValue | .loadRes | .loadRetValue => true
  | _ => o.releasing

/-- The search has the result that it returns. -/
def gotResult (o : Op) : Bool :=
  match o.pc with
  | .testHandover | .clearUnique | .finish | .leave => true
  | _ => o.releasing

/-- What a search and the lock node it holds have in common. -/
def Sharing (n : LocalLockNode) (o : Op) : Prop :=
  match o.pc with
  | .remoteRead => o.acquireRet.2 = false → (n.queue .read).handover = false ∧ o.acquireRet.1 = false
  | .share => (n.queue .read).handover = o.acquireRet.1
  | .storeRes => (n.queue .read).handover = false ∧ o.acquireRet.1 = false
  | .storeRetValue => (n.queue .read).handover = false ∧ o.acquireRet.1 = false ∧ n.res = o.res
  | .loadRes => (n.queue .read).handover = true ∧ o.acquireRet.1 = true
  | .loadRetValue => (n.queue .read).handover = true ∧ o.acquireRet.1 = true ∧ n.res = o.res
  | .relTicket | .relCurrent _ | .relHandover _ _ | .relStart _ _ | .relOwnWindow _ _ | .relOtherWindow _ _
  | .storeHandover _ _ => (n.queue .read).handover = o.acquireRet.1 ∧ n.res = o.res ∧ n.retValue = o.value
  | _ => True

variable {o p : Op} {n n' : LocalLockNode} {r : Nat}

theorem Sharing.congr (h : o.Sharing n) (hh : (n'.queue .read).handover = (n.queue .read).handover)
    (hr : n'.res = n.res) (hv : n'.retValue = n.retValue) : o.Sharing n' := by
  unfold Sharing
  rw [hh, hr, hv]
  exact h

theorem sharing_of_not_holds (h : o.holds = false) : o.Sharing n := by
  obtain ⟨side, key, value, res, ret, pc⟩ := o
  cases pc with
  | remoteRead =>
    intro hret
    simp only [holds, show ret.2 = false from hret] at h
    cases h
  | _ => trivial

theorem sharing_of_acquiring (h : o.acquiring = true) : o.Sharing n := by
  obtain ⟨side, key, value, res, ret, pc⟩ := o
  cases pc <;> trivial

theorem owns_of_pastRead (h : o.pastRead = true) : o.owns = true := by
  obtain ⟨side, key, value, res, ret, pc⟩ := o
  cases pc <;> first | rfl | cases h

theorem not_acquiring_of_pastRead (h : o.pastRead = true) : o.acquiring = false := by
  obtain ⟨side, key, value, res, ret, pc⟩ := o
  cases pc <;> first | rfl | cases h

theorem not_acquiring_of_gotResult (h : o.gotResult = true) : o.acquiring = false := by
  obtain ⟨side, key, value, res, ret, pc⟩ := o
  cases pc <;> first | rfl | cases h

theorem conflict_sharing : o.conflict.Sharing n := sharing_of_not_holds <| by
  have h := o.conflict_queued
  cases hh : o.conflict.holds with
  | false => rfl
  | true => rw [queued_of_holds hh] at h; cases h

/-- **A step** of a search keeps what it has in common with its lock node. -/
theorem step_sharing (hw : o.WellSided) (hs : o.side = .read) (hsh : o.Sharing n) (h : (o.step n r).2.next = some p) :
    p.Sharing (o.step n r).1 := by
  by_cases ha : o.acquiring = true
  · rcases step_acquire _ _ _ ha h with ⟨-, hacq⟩ | rfl | ⟨hpc, rfl⟩
    · exact sharing_of_acquiring hacq
    · exact conflict_sharing
    · rw [hs]
      cases hho : (n.queue .read).handover with
      | false => simp [body, handover, Sharing, hs, hpc, step, acquireLocalLock, hho]
      | true => simp [body, handover, Sharing, hs, hpc, step, acquireLocalLock, hho]
  obtain ⟨side, key, value, res, ret, pc⟩ := o
  obtain rfl := hs
  cases pc with
  | remoteRead =>
    cases h
    cases hc : ret.2 with
    | false =>
      obtain ⟨hho, hret⟩ := hsh hc
      simp only [step, access, afterAccess, hc]
      exact hho.trans hret.symm
    | true =>
      simp only [step, access, afterAccess, hc]
      trivial
  | remoteWrite | loadUnique | loadBuffer => cases hw _ rfl
  | share =>
    simp only [step, releaseLocalLock] at h ⊢
    split at h <;> cases h
    · rename_i hho
      exact ⟨hho, hsh.symm.trans hho⟩
    · rename_i hho
      have hho := Bool.eq_false_of_not_eq_true hho
      exact ⟨hho, hsh.symm.trans hho⟩
  | storeRes => cases h; exact ⟨hsh.1, hsh.2, rfl⟩
  | storeRetValue => cases h; exact ⟨hsh.1.trans hsh.2.1.symm, hsh.2.2, rfl⟩
  | loadRes => cases h; exact ⟨hsh.1, hsh.2, rfl⟩
  | loadRetValue => cases h; exact ⟨hsh.1.trans hsh.2.1.symm, hsh.2.2, rfl⟩
  | relHandover t u =>
    simp only [step, releaseLocalLock] at h
    split at h <;> cases h <;> exact hsh
  | relStart t u =>
    simp only [step, releaseLocalLock] at h ⊢
    split at h <;> cases h
    · rwa [if_pos ‹_›]
    · rwa [if_neg ‹_›]
  | relOwnWindow t u =>
    cases h
    exact Sharing.congr (n := n) hsh (by simp [step, releaseLocalLock]) rfl rfl
  | relOtherWindow t u =>
    cases h
    exact Sharing.congr (n := n) hsh (by simp [step, releaseLocalLock, Side.other]) rfl rfl
  | testHandover =>
    simp only [step, releaseLocalLock] at h
    split at h <;> cases h <;> trivial
  | relTicket | relCurrent => cases h; exact hsh
  | leave => cases h
  | _ => first | exact absurd rfl ha | (cases h; trivial)

/-- The result in the lock node is stored in two steps. -/
theorem step_fields (h1 : o.pc ≠ .storeRes) (h2 : o.pc ≠ .storeRetValue) :
    (o.step n r).1.res = n.res ∧ (o.step n r).1.retValue = n.retValue := by
  obtain ⟨side, key, value, res, ret, pc⟩ := o
  cases pc with
  | storeRes => exact absurd rfl h1
  | storeRetValue => exact absurd rfl h2
  | cas =>
    simp only [step, acquireLocalLock]
    split
    · exact ⟨rfl, rfl⟩
    · split <;> exact ⟨rfl, rfl⟩
  | relStart =>
    simp only [step, releaseLocalLock]
    split <;> exact ⟨rfl, rfl⟩
  | finish =>
    simp only [step, releaseLocalLock, LocalLockNode.closeWindow]
    split
    · split <;> exact ⟨rfl, rfl⟩
    · exact ⟨rfl, rfl⟩
  | _ => exact ⟨rfl, rfl⟩

/-- Only a search that holds the lock changes the handover flag of the reads, or the result in the lock node. -/
theorem step_result (hw : o.WellSided) :
    (((o.step n r).1.queue .read).handover = (n.queue .read).handover ∧ (o.step n r).1.res = n.res ∧
      (o.step n r).1.retValue = n.retValue) ∨ (o.side = .read ∧ o.holds = true) := by
  cases hs : o.side with
  | write =>
    have hother := o.step_other n r
    rw [hs] at hother
    obtain ⟨w, hq⟩ := hother
    refine .inl ⟨by rw [show Side.read = Side.write.other from rfl, hq], step_fields ?_ ?_⟩ <;>
      exact fun hpc => nomatch hs.symm.trans (hw .read (by rw [hpc]; rfl))
  | read =>
    cases hh : o.holds with
    | true => exact .inr ⟨rfl, rfl⟩
    | false =>
      obtain ⟨side, key, value, res, ret, pc⟩ := o
      obtain rfl := hs
      refine .inl ?_
      cases pc with
      | cas =>
        simp only [step, acquireLocalLock]
        split
        · exact ⟨by simp, rfl, rfl⟩
        · split <;> exact ⟨rfl, rfl, rfl⟩
      | takeTicket => exact ⟨by simp [step, acquireLocalLock], rfl, rfl⟩
      | _ => first | exact ⟨rfl, rfl, rfl⟩ | cases hh

/-- The handover flag is set after the winner has stored its result. -/
theorem step_handed (hs : o.side = .read) (hsh : o.Sharing n)
    (hho : ((o.step n r).1.queue .read).handover = true) :
    (o.step n r).1.res = n.res ∧ (o.step n r).1.retValue = n.retValue ∧ ((n.queue .read).handover = true ∨
      (o.pastRead = true ∧ o.acquireRet.1 = false ∧ n.res = o.res ∧ n.retValue = o.value)) := by
  have hstep := o.step_handover n r
  rw [hs] at hstep
  rcases hstep with he | ⟨-, he⟩ | ⟨t, u, hpc⟩
  · have hset := he.symm.trans hho
    have hfields := step_fields (o := o) (n := n) (r := r) (fun hpc => ?_) fun hpc => ?_
    · exact ⟨hfields.1, hfields.2, .inl hset⟩
    · rw [Sharing, hpc] at hsh
      cases hset.symm.trans hsh.1
    · rw [Sharing, hpc] at hsh
      cases hset.symm.trans hsh.1
  · cases he.symm.trans hho
  · obtain ⟨side, key, value, res, ret, pc⟩ := o
    obtain rfl : pc = .storeHandover t u := hpc
    refine ⟨rfl, rfl, ?_⟩
    cases ha : ret.1 with
    | true => exact .inl (hsh.1.trans ha)
    | false => exact .inr ⟨rfl, rfl, hsh.2⟩

/-- A winner comes past its remote read by this read, and keeps its result. -/
theorem step_pastRead (hw : o.WellSided) (hs : o.side = .read) (hsh : o.Sharing n) (h : (o.step n r).2.next = some p)
    (hp : p.pastRead = true) (ha : p.acquireRet.1 = false) :
    (o.pastRead = true ∧ o.acquireRet.1 = false ∧ p.res = o.res ∧ p.value = o.value) ∨
      (o.pc = .remoteRead ∧ p.res = decide (r ≠ kValueNull) ∧ p.value = r) := by
  by_cases hacq : o.acquiring = true
  · rcases step_acquire _ _ _ hacq h with ⟨-, hacq⟩ | rfl | ⟨-, rfl⟩
    · cases hacq.symm.trans (not_acquiring_of_pastRead hp)
    · cases (conflict_owns o).symm.trans (owns_of_pastRead hp)
    · -- without handover the search goes on to its remote read
      cases hho : (n.queue .read).handover <;> simp [body, handover, pastRead, releasing, hs, hho] at hp ha
  obtain ⟨side, key, value, res, ret, pc⟩ := o
  obtain rfl := hs
  cases pc with
  | remoteRead =>
    refine .inr ⟨rfl, ?_⟩
    cases h
    unfold afterAccess
    split <;> exact ⟨rfl, rfl⟩
  | remoteWrite | loadUnique | loadBuffer => cases hw _ rfl
  | share | relHandover =>
    simp only [step, releaseLocalLock] at h
    split at h <;> cases h <;> exact .inl ⟨rfl, ha, rfl, rfl⟩
  | relStart t u =>
    simp only [step, releaseLocalLock] at h
    split at h <;> cases h <;> exact .inl ⟨rfl, ha, rfl, rfl⟩
  | loadRes => cases hsh.2.symm.trans (by cases h; exact ha)
  | loadRetValue => cases hsh.2.1.symm.trans (by cases h; exact ha)
  | testHandover =>
    simp only [step, releaseLocalLock] at h
    split at h <;> cases h <;> cases hp
  | storeRes | storeRetValue | relTicket | relCurrent | relOwnWindow | relOtherWindow =>
    cases h
    exact .inl ⟨rfl, ha, rfl, rfl⟩
  | leave => cases h
  | _ => first | exact absurd rfl hacq | (cases h; cases hp)

/-- A search that returns by handover gets its result from the lock node, and keeps it. -/
theorem step_gotResult (hw : o.WellSided) (hs : o.side = .read) (hsh : o.Sharing n)
    (h : (o.step n r).2.next = some p) (hp : p.gotResult = true) (hho : p.handover = true) :
    (o.gotResult = true ∧ p.res = o.res ∧ p.value = o.value) ∨
      (o.pc = .loadRetValue ∧ (n.queue .read).handover = true ∧ p.res = n.res ∧ p.value = n.retValue) := by
  have hret := step_acquireRet _ _ _ h hho
  by_cases ha : o.acquiring = true
  · rcases step_acquire _ _ _ ha h with ⟨-, hacq⟩ | rfl | ⟨-, rfl⟩
    · cases hacq.symm.trans (not_acquiring_of_gotResult hp)
    · simp [conflict, body, handover, gotResult, releasing, hs] at hp
    · cases hho : (n.queue .read).handover <;> simp [body, handover, gotResult, releasing, hs, hho] at hp
  obtain ⟨side, key, value, res, ⟨ho, co⟩, pc⟩ := o
  obtain rfl := hs
  cases pc with
  | remoteRead =>
    obtain ⟨rfl, rfl⟩ : ho = true ∧ co = false := by simpa [handover] using hret
    cases (hsh rfl).2
  | remoteWrite | loadUnique | loadBuffer => cases hw _ rfl
  | share | relHandover | testHandover =>
    simp only [step, releaseLocalLock] at h
    split at h <;> cases h <;> first | exact .inl ⟨rfl, rfl, rfl⟩ | cases hp
  | relStart t u =>
    simp only [step, releaseLocalLock] at h
    split at h <;> cases h <;> exact .inl ⟨rfl, rfl, rfl⟩
  | storeRes | loadRes => cases h; cases hp
  | storeRetValue =>
    obtain ⟨rfl, rfl⟩ : ho = true ∧ co = false := by simpa [handover] using hret
    cases hsh.2.1
  | loadRetValue => cases h; exact .inr ⟨rfl, hsh.1, hsh.2.2.symm, rfl⟩
  | relTicket | relCurrent | relOwnWindow | relOtherWindow | storeHandover | clearUnique | finish =>
    cases h
    exact .inl ⟨rfl, rfl, rfl⟩
  | leave => cases h
  | _ => exact absurd rfl ha

end Op

/-! ## Moments of a search -/

namespace LockTable

variable {hash : Nat → Nat} {s s' : LockTable} {es es₀ : List Event} {t : List (LockTable × List Event)}
  {k v w c d : Nat} {r : Bool} {o p : Op}

/-- The result of a search of the key in the remote memory of the state. -/
def Holds (s : LockTable) (k : Nat) (r : Bool) (v : Nat) : Prop := s.remote k = v ∧ r = decide (v ≠ kValueNull)

instance (s : LockTable) (k : Nat) (r : Bool) (v : Nat) : Decidable (Holds s k r v) :=
  inferInstanceAs (Decidable (_ ∧ _))

/-- The event begins an operation of client `c`. -/
def Event.begins (c : Nat) : Event → Bool
  | .invoke c' _ _ _ => c' = c
  | _ => false

/-- At some moment since the last invocation of client `c` the result was the state of the key. -/
def Seen (c k : Nat) (r : Bool) (v : Nat) : List (LockTable × List Event) → Prop
  | [] => False
  | (s, es) :: t => Holds s k r v ∨ (es.any (Event.begins c) = false ∧ Seen c k r v t)

instance Seen.decide (c k : Nat) (r : Bool) (v : Nat) : ∀ t, Decidable (Seen c k r v t)
  | [] => inferInstanceAs (Decidable False)
  | (s, es) :: t =>
    have := Seen.decide c k r v t
    inferInstanceAs (Decidable (Holds s k r v ∨ (es.any (Event.begins c) = false ∧ Seen c k r v t)))

theorem ClientStep.seen (hs : ClientStep hash s c o s' es) (h : Seen d k r v t) : Seen d k r v ((s', es) :: t) := by
  refine .inr ⟨?_, h⟩
  rw [hs.events]
  cases (o.step (s.nodes (hash o.key)) (s.remote o.key)).2 <;> rfl

/-- The result that a search joining the key's epoch now may get without a remote read that is still to come: the one in
the lock node while the handover flag is set, or the winner's once it has read. -/
def Delivers (hash : Nat → Nat) (s : LockTable) (k : Nat) (r : Bool) (v : Nat) : Prop :=
  ((s.nodes (hash k)).queue .read).uniqueKey = some k ∧
    ((((s.nodes (hash k)).queue .read).handover = true ∧ (s.nodes (hash k)).res = r ∧ (s.nodes (hash k)).retValue = v) ∨
      ∃ c o, opsOn hash s (hash k) .read c = some o ∧ o.pastRead = true ∧ o.acquireRet.1 = false ∧ o.res = r ∧
        o.value = v)

/-- The guard of delegation: at most 255 clients at a time, and a search begins in an epoch of its key that is past the
remote read only while the result of that epoch is still the state of the key. -/
def JoinsInTime (hash : Nat → Nat) (s : LockTable) (a : Action) : Prop :=
  AtMost255 s.clients ∧ ∀ c k v, a = .invoke c .read k v → ∀ r w, Delivers hash s k r w → Holds s k r w

/-- What holds in every such run. -/
structure Delegating (hash : Nat → Nat) (s : LockTable) (t : List (LockTable × List Event)) : Prop where
  wellSided : ∀ c o, s.clients c = some o → o.WellSided
  epoch : ∀ i σ, Epoch ((s.nodes i).queue σ) (opsOn hash s i σ)
  sharing : ∀ c o, s.clients c = some o → o.side = .read → o.Sharing (s.nodes (hash o.key))
  late : ∀ k r v, Delivers hash s k r v → ∀ c o, s.clients c = some o → o.side = .read → o.key = k → Seen c k r v t
  got : ∀ c o, s.clients c = some o → o.side = .read → o.handover = true → o.gotResult = true →
    Seen c o.key o.res o.value t

/-! ## The steps -/

/-- The handover flag and the result of a lock node change by a step of the search that holds it. -/
theorem Delegating.node_cases (hi : Delegating hash s t) (hs : ClientStep hash s c o s' es) (i : Nat) :
    (((s'.nodes i).queue .read).handover = ((s.nodes i).queue .read).handover ∧ (s'.nodes i).res = (s.nodes i).res ∧
      (s'.nodes i).retValue = (s.nodes i).retValue) ∨ (i = hash o.key ∧ o.side = .read ∧ o.holds = true) := by
  by_cases hk : i = hash o.key
  · subst hk
    rw [hs.node]
    exact (Op.step_result (hi.wellSided _ _ hs.client)).imp id fun h => ⟨rfl, h⟩
  · rw [hs.node_of_ne hk]
    exact .inl ⟨rfl, rfl, rfl⟩

/-- A step that leaves a unique key of reads behind has found it, or installs it. -/
theorem ClientStep.isUnique_read (hs : ClientStep hash s c o s' es)
    (hu : ((s'.nodes (hash k)).queue .read).uniqueKey = some k) :
    ((s.nodes (hash k)).queue .read).uniqueKey = some k ∨
      (o.pc = .cas ∧ hash o.key = hash k ∧ o.side = .read ∧ ((s.nodes (hash k)).queue .read).uniqueKey = none ∧
        s'.clients c = some (o.at' .takeTicket)) := by
  by_cases hq : hash o.key = hash k ∧ o.side = .read
  · obtain ⟨hk, hr⟩ := hq
    rw [← hk, hs.node] at hu
    have hstep := Op.step_unique o (s.nodes (hash o.key)) (s.remote o.key)
    rw [hr] at hstep
    rcases hstep with he | ⟨hpc, hnone, -, hnext⟩ | ⟨-, hnone⟩
    · exact .inl (by rw [← hk, ← he, hu])
    · exact .inr ⟨hpc, hk, hr, hk ▸ hnone, by rw [hs.clients, Function.update_self, hnext]⟩
    · cases hnone.symm.trans hu
  · obtain ⟨w, hw⟩ := hs.queue_of_ne hq
    rw [hw] at hu
    exact .inl hu

/-- **A result to be handed over** comes from the remote read of the winner. -/
theorem Delegating.delivers (hi : Delegating hash s t) (hs : ClientStep hash s c o s' es)
    (hd : Delivers hash s' k r v) : Delivers hash s k r v ∨ Holds s k r v := by
  obtain ⟨hu, hlate⟩ := hd
  have hepoch := hi.epoch (hash k) .read
  rcases hs.isUnique_read hu with hu | ⟨hpc, hk, hside, hnone, hc⟩
  swap
  · -- a key that has just been installed has no result
    exfalso
    have hnode := hi.node_cases hs (hash k)
    have hholds : o.holds = false := by simp [Op.holds, hpc]
    rcases hlate with ⟨hho, -⟩ | ⟨d, p, hd, hp, -⟩
    · rcases hnode with ⟨hsame, -⟩ | ⟨-, -, hh⟩
      · exact hepoch.handover (hsame ▸ hho) hnone
      · cases hholds.symm.trans hh
    · obtain ⟨hd, hkey, hside⟩ := opsOn_eq_some.1 hd
      rcases hs.clients_cases hd with ⟨rfl, -⟩ | ⟨-, hd⟩
      · cases hd.symm.trans hc
        cases hp
      · have := hepoch.owner d p (opsOn_eq_some.2 ⟨hd, hkey, hside⟩) (Op.owns_of_pastRead hp)
        cases hnone.symm.trans this
  rcases hlate with ⟨hho, rfl, rfl⟩ | ⟨d, p, hd, hp, ha, rfl, rfl⟩
  · -- the flag is set: by now, or by the winner after it has stored its result
    rcases hi.node_cases hs (hash k) with ⟨hsame, hres, hval⟩ | ⟨hk, hside, -⟩
    · exact .inl ⟨hu, .inl ⟨hsame ▸ hho, hres.symm, hval.symm⟩⟩
    · rw [hk, hs.node] at hho ⊢
      obtain ⟨hres, hval, hset | ⟨hr, ha, hor, hov⟩⟩ := Op.step_handed hside (hi.sharing _ _ hs.client hside) hho
      · exact .inl ⟨hu, .inl ⟨hk ▸ hset, hk ▸ hres.symm, hk ▸ hval.symm⟩⟩
      · exact .inl ⟨hu, .inr ⟨c, o, opsOn_eq_some.2 ⟨hs.client, hk.symm, hside⟩, hr, ha, hor.symm.trans hres.symm,
          hov.symm.trans hval.symm⟩⟩
  · obtain ⟨hd, hkey, hside⟩ := opsOn_eq_some.1 hd
    rcases hs.clients_cases hd with ⟨rfl, hn⟩ | ⟨-, hd⟩
    swap
    · exact .inl ⟨hu, .inr ⟨d, p, opsOn_eq_some.2 ⟨hd, hkey, hside⟩, hp, ha, rfl, rfl⟩⟩
    obtain ⟨hsame, hkeys⟩ := Op.step_same _ _ _ hn
    rw [hkeys] at hkey
    rw [hsame] at hside
    have hon : opsOn hash s (hash k) .read d = some o := opsOn_eq_some.2 ⟨hs.client, hkey, hside⟩
    rcases Op.step_pastRead (hi.wellSided _ _ hs.client) hside (hi.sharing _ _ hs.client hside) hn hp ha with
      ⟨hr, hao, hres, hval⟩ | ⟨hpc, hres, hval⟩
    · exact .inl ⟨hu, .inr ⟨d, o, hon, hr, hao, hres.symm, hval.symm⟩⟩
    · -- the winner reads
      have howns : o.owns = true := by
        rcases Op.step_owns _ _ _ hn (Op.owns_of_pastRead hp) with ⟨ho, -⟩ | ⟨hpc', -⟩
        · exact ho
        · cases hpc.symm.trans hpc'
      obtain rfl : o.key = k := Option.some.inj ((hepoch.owner d o hon howns).symm.trans hu)
      exact .inr ⟨hval.symm, by rw [hres, hval]⟩

/-- **A step** of a client. -/
theorem Delegating.step (hi : Delegating hash s ((s, es₀) :: t))
    (ht : ∀ i σ, Tickets ((s.nodes i).queue σ) (opsOn hash s i σ)) (hs : ClientStep hash s c o s' es) :
    Delegating hash s' ((s', es) :: (s, es₀) :: t) := by
  refine ⟨hs.wellSided hi.wellSided, epoch_step hs hi.epoch ht, fun d p hd hp => ?_, fun k r v hk d p hd hp hpk => ?_,
    fun d p hd hp hho hgot => ?_⟩
  · rcases hs.clients_cases hd with ⟨rfl, hn⟩ | ⟨hdc, hd⟩
    · obtain ⟨hsame, hkeys⟩ := Op.step_same _ _ _ hn
      rw [hkeys, hs.node]
      have hside := hsame.symm.trans hp
      exact Op.step_sharing (hi.wellSided _ _ hs.client) hside (hi.sharing d o hs.client hside) hn
    · rcases hi.node_cases hs (hash p.key) with ⟨hho, hres, hval⟩ | ⟨hk, hside, hholds⟩
      · exact (hi.sharing d p hd hp).congr hho hres hval
      · -- the lock is another client's
        refine Op.sharing_of_not_holds ?_
        cases hph : p.holds with
        | false => rfl
        | true =>
          exact absurd ((ht (hash o.key) .read).unique (opsOn_eq_some.2 ⟨hd, hk, hp⟩)
            (opsOn_eq_some.2 ⟨hs.client, rfl, hside⟩) hph hholds) hdc
  · refine hs.seen ?_
    rcases hi.delivers hs hk with hk | hnow
    · rcases hs.clients_cases hd with ⟨rfl, hn⟩ | ⟨-, hd⟩
      · obtain ⟨hsame, hkeys⟩ := Op.step_same _ _ _ hn
        exact hi.late k r v hk d o hs.client (hsame.symm.trans hp) (hkeys.symm.trans hpk)
      · exact hi.late k r v hk d p hd hp hpk
    · exact .inl hnow
  · refine hs.seen ?_
    rcases hs.clients_cases hd with ⟨rfl, hn⟩ | ⟨-, hd⟩
    · obtain ⟨hsame, hkeys⟩ := Op.step_same _ _ _ hn
      have hside := hsame.symm.trans hp
      rw [hkeys]
      rcases Op.step_gotResult (hi.wellSided _ _ hs.client) hside (hi.sharing d o hs.client hside) hn hgot hho with
        ⟨hog, hres, hval⟩ | ⟨hpc, hset, hres, hval⟩
      · rw [hres, hval]
        refine hi.got d o hs.client hside ?_ hog
        rcases Op.step_acquireRet _ _ _ hn hho with ho | ⟨hpc, -⟩
        · exact ho
        · simp [Op.gotResult, Op.releasing, hpc] at hog
      · -- the search takes the result of its epoch
        have hu := (hi.epoch _ _).owner d o (opsOn_eq_some.2 ⟨hs.client, rfl, hside⟩) (by simp [Op.owns, Op.holds, hpc])
        rw [hres, hval]
        exact hi.late o.key _ _ ⟨hu, .inl ⟨hset, rfl, rfl⟩⟩ d o hs.client hside rfl
    · exact hi.got d p hd hp hho hgot

/-- A client begins an operation. -/
theorem Delegating.invoke {side : Side} (hi : Delegating hash s ((s, es₀) :: t))
    (hg : ∀ c' k' v', Action.invoke c side k v = .invoke c' .read k' v' → ∀ r w, Delivers hash s k' r w →
      Holds s k' r w) (hn : s'.nodes = s.nodes) (hrem : s'.remote = s.remote)
    (hcl : s'.clients = Function.update s.clients c (some ⟨side, k, v, false, (false, false), .cas⟩)) :
    Delegating hash s' ((s', [.invoke c side k v]) :: (s, es₀) :: t) := by
  have hseen : ∀ {d k' r w}, d ≠ c → Seen d k' r w ((s, es₀) :: t) →
      Seen d k' r w ((s', [.invoke c side k v]) :: (s, es₀) :: t) := fun hdc h =>
    .inr ⟨by simp [Event.begins, Ne.symm hdc], h⟩
  have hin : ∀ {k' r w}, Delivers hash s' k' r w → Delivers hash s k' r w := by
    rintro k' r w ⟨hu, hlate⟩
    rw [hn] at hu hlate
    refine ⟨hu, hlate.imp id ?_⟩
    rintro ⟨d, p, hd, hp, hrest⟩
    obtain ⟨hd, hq⟩ := opsOn_eq_some.1 hd
    rcases clients_invoke hcl hd with ⟨rfl, -⟩ | ⟨-, hd⟩
    · cases hp
    · exact ⟨d, p, opsOn_eq_some.2 ⟨hd, hq⟩, hp, hrest⟩
  refine ⟨wellSided_invoke hi.wellSided hcl, epoch_invoke hi.epoch hn hcl, fun d p hd hp => ?_,
    fun k' r w hk d p hd hp hpk => ?_, fun d p hd hp hho hgot => ?_⟩
  · rcases clients_invoke hcl hd with ⟨rfl, -⟩ | ⟨-, hd⟩
    · trivial
    · rw [hn]
      exact hi.sharing d p hd hp
  · rcases clients_invoke hcl hd with ⟨rfl, -⟩ | ⟨hdc, hd⟩
    · subst hp hpk
      obtain ⟨hw, hr⟩ := hg _ _ _ rfl r w (hin hk)
      exact .inl ⟨by rw [hrem, hw], hr⟩
    · exact hseen hdc (hi.late k' r w (hin hk) d p hd hp hpk)
  · rcases clients_invoke hcl hd with ⟨rfl, -⟩ | ⟨hdc, hd⟩
    · cases hgot
    · exact hseen hdc (hi.got d p hd hp hho hgot)

theorem remote_invoke {init : Nat → Bool × Nat × Nat} {remote : Nat → Nat} {side : Side}
    (h : (machine hash init remote).step s (.invoke c side k v) = some (s', es)) :
    s'.remote = s.remote := by
  simp only [machine, LockTable.step] at h
  split at h
  · obtain ⟨rfl, -⟩ := Prod.mk.inj (Option.some.inj h)
    rfl
  · cases h

/-- Another compute node writes. -/
theorem Delegating.remote (hi : Delegating hash s ((s, es₀) :: t)) (hn : s'.nodes = s.nodes)
    (hcl : s'.clients = s.clients) : Delegating hash s' ((s', []) :: (s, es₀) :: t) := by
  have hops : opsOn hash s' = opsOn hash s := by
    funext i σ c
    rw [opsOn, hcl]
    rfl
  obtain ⟨h1, h2, h3, h4, h5⟩ := hi
  refine ⟨hcl ▸ h1, fun i σ => ?_, fun d p hd hp => ?_, fun k r v hk d p hd hp hpk => .inr ⟨rfl, ?_⟩,
    fun d p hd hp hho hgot => .inr ⟨rfl, h5 d p (hcl ▸ hd) hp hho hgot⟩⟩
  · rw [hn, hops]
    exact h2 i σ
  · rw [hn]
    exact h3 d p (hcl ▸ hd) hp
  · unfold Delivers at hk
    rw [hn, hops] at hk
    exact h4 k r v hk d p (hcl ▸ hd) hp hpk

/-! ## Runs -/

/-- **In every run** whose searches join in time. -/
theorem delegating {init : Nat → Bool × Nat × Nat} {remote : Nat → Nat}
    (htr : (machine hash init remote).Trace (JoinsInTime hash) ((s, es) :: t)) : Delegating hash s ((s, es) :: t) := by
  refine htr.invariant (I := Delegating hash) ⟨fun c o hc => ?_, fun i σ => .init rfl fun c => rfl, fun c o hc => ?_,
    fun k r v hk c o hc => ?_, fun c o hc => ?_⟩ ?_
  · cases hc
  · cases hc
  · cases hc
  · cases hc
  · intro s h a s' es es' t hrun hi hg hstep
    rcases step_cases hstep with ⟨c, side, k, v, rfl, -, hn, hcl, rfl⟩ | ⟨c, o, rfl, hs⟩ | ⟨k, v, rfl, hn, hcl, rfl⟩
    · exact hi.invoke hg.2 hn (remote_invoke hstep) hcl
    · exact hi.step (tickets (fun _ _ hg => hg.1) hrun) hs
    · exact hi.remote hn hcl

/-- The operation that returns in a step. -/
theorem ClientStep.returned (hs : ClientStep hash s c o s' es) (hret : .ret d p ∈ es) :
    d = c ∧ p = o ∧ o.pc = .leave := by
  rw [hs.events] at hret
  cases hst : (o.step (s.nodes (hash o.key)) (s.remote o.key)).2 with
  | goto q => rw [hst] at hret; cases hret
  | write q => simp [hst, LockTable.events] at hret
  | ret =>
    simp only [hst, LockTable.events, List.mem_singleton, Event.ret.injEq] at hret
    exact ⟨hret.1, hret.2, Op.step_ret _ _ _ hst⟩

/-- **Delegated reads are fresh**: what a search that returns by handover returns was the state of its key at some
moment since it began. -/
theorem delegated_fresh (hash : Nat → Nat) (init : Nat → Bool × Nat × Nat) (remote : Nat → Nat)
    (htr : (machine hash init remote).Trace (JoinsInTime hash) ((s, es) :: t)) (c : Nat) (o : Op) (hret : .ret c o ∈ es)
    (hside : o.side = .read) (hho : o.handover = true) : Seen c o.key o.res o.value t := by
  cases htr with
  | init => cases hret
  | step a htr hg he =>
    rcases step_cases he with ⟨d, side, k, v, -, -, -, -, rfl⟩ | ⟨d, p, -, hs⟩ | ⟨k, v, -, -, -, rfl⟩
    · simp at hret
    · obtain ⟨rfl, rfl, hpc⟩ := hs.returned hret
      exact (delegating htr).got c o hs.client hside hho (by simp [Op.gotResult, hpc])
    · cases hret

/-- The check of the guard for two clients on one lock node: a search begins where nothing is delivered. -/
def joinsCheck (s : LockTable) (a : Action) : Bool :=
  a.below 2 && match a with
  | .invoke _ _ _ _ => !((s.nodes 0).queue .read).handover &&
      (List.range 2).all fun d => (s.clients d).all fun p => !p.pastRead
  | _ => true

theorem joinsInTime_of_check {a : Action} (hb : Below 2 s) (hg : joinsCheck s a = true) :
    JoinsInTime (fun _ => 0) s a := by
  refine ⟨hb.atMost255 (by decide), ?_⟩
  rintro c k v rfl r w ⟨-, hd⟩
  obtain ⟨hho, hall⟩ := Bool.and_eq_true_iff.1 (Bool.and_eq_true_iff.1 hg).2
  rcases hd with ⟨hset, -⟩ | ⟨d, p, hd, hp, -⟩
  · rw [hset] at hho
    cases hho
  · obtain ⟨hd, -⟩ := opsOn_eq_some.1 hd
    have hlt : d < 2 := by
      by_contra hge
      rw [hb d (by omega)] at hd
      cases hd
    have := List.all_eq_true.1 hall d (List.mem_range.2 hlt)
    rw [hd, Option.all_some, hp] at this
    cases this

/-- The events of the last step of a trace, and whether the result was the state of the key 1 since client 1 began. -/
def lastSeen (r : Bool) (v : Nat) : List (LockTable × List Event) → Option (List Event × Bool)
  | [] => none
  | (_, es) :: t => some (es, decide (Seen 1 1 r v t))

theorem lastSeen_eq {tr : List (LockTable × List Event)} {b : Bool} (h : lastSeen r v tr = some (es, b)) :
    ∃ s t, tr = (s, es) :: t ∧ (b = true ↔ Seen 1 1 r v t) := by
  cases tr with
  | nil => cases h
  | cons x t =>
    obtain ⟨rfl, rfl⟩ := Prod.mk.inj (Option.some.inj h)
    exact ⟨x.1, t, rfl, decide_eq_true_iff⟩

/-- The client 1 joins the epoch before the client 0 reads; after that the key is written. -/
def joinedSearch : List Action :=
  .invoke 0 .read 1 0 :: List.replicate 7 (.step 0) ++ .invoke 1 .read 1 0 :: List.replicate 2 (.step 1) ++
    List.replicate 13 (.step 0) ++ .remote 1 5 :: List.replicate 15 (.step 1)

/-- The return by handover of the search that has joined. -/
theorem delegated_fresh_joined : ∃ s es t o, single.Trace (JoinsInTime fun _ => 0) ((s, es) :: t) ∧ .ret 1 o ∈ es ∧
    o.handover = true ∧ Seen 1 1 o.res o.value t := by
  have hexec : (single.trace joinsCheck single.init [] [] joinedSearch).bind (lastSeen false 0) =
      some ([.ret 1 ⟨.read, 1, 0, false, (true, false), .leave⟩], true) := by decide +kernel
  obtain ⟨tr, he, hl⟩ := Option.bind_eq_some_iff.1 hexec
  obtain ⟨s, t, rfl, -⟩ := lastSeen_eq hl
  have htr : single.Trace (JoinsInTime fun _ => 0) _ := Machine.Trace.of_exec (I := Below 2) joinsInTime_of_check
    (fun hb hg hs => hb.step (Bool.and_eq_true_iff.1 hg).1 hs) (fun c _ => rfl) .init he
  exact ⟨s, _, t, _, htr, List.mem_singleton_self _, rfl,
    delegated_fresh _ _ _ htr 1 _ (List.mem_singleton_self _) rfl rfl⟩

/-- The client 1 joins the epoch after the client 0 has read and the key has been written. -/
def lateSearch : List Action :=
  .invoke 0 .read 1 0 :: List.replicate 8 (.step 0) ++ .remote 1 5 :: .invoke 1 .read 1 0 :: List.replicate 2 (.step 1) ++
    List.replicate 12 (.step 0) ++ List.replicate 15 (.step 1)

/-- A search that joins an epoch late returns what the key held before it began. -/
theorem not_delegated_fresh : ¬∀ hash init remote s es t,
    (machine hash init remote).Trace (fun s _ => AtMost255 s.clients) ((s, es) :: t) → ∀ c o, .ret c o ∈ es →
      o.side = .read → o.handover = true → Seen c o.key o.res o.value t := by
  intro hall
  have hexec : (single.trace (fun _ a => a.below 2) single.init [] [] lateSearch).bind (lastSeen false 0) =
      some ([.ret 1 ⟨.read, 1, 0, false, (true, false), .leave⟩], false) := by decide +kernel
  obtain ⟨tr, he, hl⟩ := Option.bind_eq_some_iff.1 hexec
  obtain ⟨s, t, rfl, hseen⟩ := lastSeen_eq hl
  have htr : single.Trace (fun s _ => AtMost255 s.clients) _ := Machine.Trace.of_exec (I := Below 2)
    (fun hb _ => hb.atMost255 (by decide)) (fun hb hg hs => hb.step hg hs) (fun c _ => rfl) .init he
  have := hseen.2 (hall _ _ _ s _ t htr 1 _ (List.mem_singleton_self _) rfl rfl)
  cases this

end LockTable
end Chime

import Chime.Lib.Machine
import Mathlib.Data.UInt
import Mathlib.Logic.Function.Basic
import Mathlib.Tactic.Common

/-!
# The sum over the cluster (`DSM::sum`, `DSMKeeper::sum`)

In the call with counter `n`, every node sets its value in memcached under the key of `n` and its own number, and node
0 reads the values under the keys of all nodes. The numbers stand in the key one after the other, so that calls of
different nodes with different counters may have the same key. The sums are right in every run in which such calls do
not get in each other's way (`InTime`), and these are all runs of a cluster of at most eleven nodes.
-/

namespace Chime

/-- The key of a node in `DSMKeeper::sum`, in the call of `DSM::sum` with this counter. -/
def sumKey (count nodeId : Nat) : String := "sum-" ++ ("sum-" ++ toString count) ++ toString nodeId

namespace ClusterSum

/-- The state of memcached and of the nodes. -/
structure State where
  memcached : String → Option UInt64
  /-- how many calls each node has finished -/
  count : Nat → Nat
  /-- node 0 in the loop of a call: the next node to read, and the sum so far -/
  loop : Option (Nat × UInt64)

/-- The steps of a call: `memSet`, which ends the call of another node than node 0; the next `memGet` of node 0, and its
return. -/
inductive Action
  | set (nodeId : Nat)
  | get
  | ret
  deriving DecidableEq, Repr

inductive Event
  /-- the call with this counter returns on node 0 -/
  | ret (count : Nat) (sum : UInt64)
  deriving DecidableEq, Repr

/-- `value count nodeId` is what the node passes to its call. -/
def machine (serverNR : Nat) (value : Nat → Nat → UInt64) : Machine State Action Event where
  init := ⟨fun _ => none, fun _ => 0, none⟩
  step s
    | .set i =>
      if i < serverNR ∧ (i = 0 → s.loop = none) then
        let memcached := Function.update s.memcached (sumKey (s.count i) i) (some (value (s.count i) i))
        if i = 0 then some ({ s with memcached, loop := some (0, 0) }, [])
        else some ({ s with memcached, count := Function.update s.count i (s.count i + 1) }, [])
      else none
    | .get =>
      match s.loop with
      | none => none
      | some (i, ret) =>
        if i < serverNR then
          (s.memcached (sumKey (s.count 0) i)).map fun v => ({ s with loop := some (i + 1, ret + v) }, [])
        else none
    | .ret =>
      match s.loop with
      | none => none
      | some (i, ret) =>
        if i = serverNR then
          some ({ s with loop := none, count := Function.update s.count 0 (s.count 0 + 1) }, [.ret (s.count 0) ret])
        else none

/-- The sum of what the first `n` nodes pass to their calls. -/
def total (value : Nat → Nat → UInt64) (count n : Nat) : UInt64 := ((List.range n).map (value count)).sum

/-- The node has set its value in the call with this counter. -/
def IsSet (s : State) (count nodeId : Nat) : Prop :=
  count < s.count nodeId ∨ (nodeId = 0 ∧ count = s.count 0 ∧ s.loop.isSome = true)

/-- Node 0 has read the value of the node in the call with this counter. -/
def IsRead (s : State) (count nodeId : Nat) : Prop :=
  count < s.count 0 ∨ (count = s.count 0 ∧ ∃ p ∈ s.loop, nodeId < p.1)

instance (s : State) (n i : Nat) : Decidable (IsSet s n i) := inferInstanceAs (Decidable (_ ∨ _))

instance (s : State) (n i : Nat) : Decidable (IsRead s n i) := inferInstanceAs (Decidable (_ ∨ _))

/-- A set finds the values of earlier calls with its key read, and a read under a key of an earlier call finds the value
of its own call set. -/
def InTime (serverNR : Nat) (s : State) : Action → Prop
  | .set j => ∀ m < s.count j, ∀ i < serverNR, sumKey m i = sumKey (s.count j) j → IsRead s m i
  | .get =>
    ∀ p ∈ s.loop, (∃ m < s.count 0, ∃ i < serverNR, sumKey m i = sumKey (s.count 0) p.1) → IsSet s (s.count 0) p.1
  | .ret => True

instance (serverNR : Nat) (s : State) (a : Action) : Decidable (InTime serverNR s a) := by
  unfold InTime
  split <;> infer_instance

/-! ## The keys -/

/-- Keys are equal if their numbers are, written one after the other. -/
theorem sumKey_inj {m i n j : Nat} (h : sumKey m i = sumKey n j) :
    Nat.toDigits 10 m ++ Nat.toDigits 10 i = Nat.toDigits 10 n ++ Nat.toDigits 10 j := by
  have hl := congrArg String.toList h
  have hm : (toString m).toList = Nat.toDigits 10 m := Nat.toList_repr
  have hi : (toString i).toList = Nat.toDigits 10 i := Nat.toList_repr
  have hn : (toString n).toList = Nat.toDigits 10 n := Nat.toList_repr
  have hj : (toString j).toList = Nat.toDigits 10 j := Nat.toList_repr
  simp only [sumKey, String.toList_append, hm, hi, hn, hj, List.append_assoc, List.append_cancel_left_eq] at hl
  exact hl

theorem toDigits_inj {m n : Nat} (h : Nat.toDigits 10 m = Nat.toDigits 10 n) : m = n := by
  have := congrArg (fun l => Nat.ofDigitChars 10 l 0) h
  simpa only [Nat.ofDigitChars_ten_toDigits] using this

/-- Calls with one counter have different keys. -/
theorem sumKey_inj_right {n i j : Nat} (h : sumKey n i = sumKey n j) : i = j :=
  toDigits_inj (List.append_cancel_left (sumKey_inj h))

/-- The number that a key spells. -/
theorem ofDigitChars_key (m : Nat) {i : Nat} (hi : i ≤ 10) :
    Nat.ofDigitChars 10 (Nat.toDigits 10 m ++ Nat.toDigits 10 i) 0 = if i = 10 then 100 * m + 10 else 10 * m + i := by
  rw [Nat.ofDigitChars_append, Nat.ofDigitChars_ten_toDigits, Nat.ofDigitChars_eq_ofDigitChars_zero,
    Nat.ofDigitChars_ten_toDigits]
  split
  · rename_i h
    subst h
    rfl
  · rw [Nat.toDigits_of_lt_base (by omega)]
    rfl

/-- With at most eleven nodes, only a call of node 0 has the key of an earlier call. -/
theorem eq_zero_of_sumKey {m i n j : Nat} (hi : i ≤ 10) (hj : j ≤ 10) (hmn : m < n) (h : sumKey m i = sumKey n j) :
    j = 0 := by
  have hval := congrArg (fun l => Nat.ofDigitChars 10 l 0) (sumKey_inj h)
  simp only [ofDigitChars_key m hi, ofDigitChars_key n hj] at hval
  split at hval <;> split at hval <;> omega

/-! ## The steps -/

/-- What holds between the steps. -/
structure Inv (serverNR : Nat) (value : Nat → Nat → UInt64) (s : State) : Prop where
  /-- what is read has been set -/
  set_of_read : ∀ n i, i < serverNR → IsRead s n i → IsSet s n i
  sum : ∀ p ∈ s.loop, p.1 ≤ serverNR ∧ p.2 = total value (s.count 0) p.1
  /-- a value that is not read yet is in its place -/
  stored : ∀ n i, i < serverNR → IsSet s n i → ¬IsRead s n i → s.memcached (sumKey n i) = some (value n i)
  /-- earlier calls with the key of a value have been read -/
  earlier : ∀ n i m j, i < serverNR → j < serverNR → IsSet s n i → m < n → sumKey m j = sumKey n i → IsRead s m j
  /-- nobody else sets values -/
  known : ∀ k v, s.memcached k = some v → ∃ n i, i < serverNR ∧ IsSet s n i ∧ sumKey n i = k

variable {serverNR : Nat} {value : Nat → Nat → UInt64} {s s' : State} {es : List Event}

theorem total_succ (n i : Nat) : total value n (i + 1) = total value n i + value n i := by
  simp [total, List.range_succ]

/-- What a set does. -/
theorem step_set {i : Nat} (h : (machine serverNR value).step s (.set i) = some (s', es)) :
    i < serverNR ∧ ¬IsSet s (s.count i) i ∧
      s'.memcached = Function.update s.memcached (sumKey (s.count i) i) (some (value (s.count i) i)) ∧
      s'.count 0 = s.count 0 ∧ (∀ n j, IsSet s' n j ↔ IsSet s n j ∨ (n = s.count i ∧ j = i)) ∧
      (∀ n j, IsRead s' n j ↔ IsRead s n j) ∧ (∀ p ∈ s'.loop, p ∈ s.loop ∨ p = (0, 0)) ∧ es = [] := by
  simp only [machine] at h
  split at h
  swap
  · cases h
  rename_i hi
  obtain ⟨hi, hidle⟩ := hi
  split at h
  · rename_i h0
    obtain ⟨rfl, rfl⟩ := Prod.mk.inj (Option.some.inj h)
    subst h0
    have hloop := hidle rfl
    refine ⟨hi, ?_, rfl, rfl, fun n j => ?_, fun n j => ?_, ?_, rfl⟩
    · simp [IsSet, hloop]
    · simp only [IsSet, hloop, Option.isSome_some, Option.isSome_none, Bool.false_eq_true, and_false, or_false,
        and_true]
      exact or_congr_right and_comm
    · simp [IsRead, hloop]
    · simp
  · rename_i h0
    obtain ⟨rfl, rfl⟩ := Prod.mk.inj (Option.some.inj h)
    have hcount : Function.update s.count i (s.count i + 1) 0 = s.count 0 := Function.update_of_ne (Ne.symm h0) _ _
    refine ⟨hi, ?_, rfl, hcount, fun n j => ?_, fun n j => ?_, fun p hp => .inl hp, rfl⟩
    · simp [IsSet, h0]
    · simp only [IsSet, hcount]
      by_cases hj : j = i
      · subst hj
        simp only [Function.update_self, h0, false_and, or_false, and_true]
        omega
      · simp only [Function.update_of_ne hj, hj, and_false, or_false]
    · simp only [IsRead, hcount]

theorem step_get (h : (machine serverNR value).step s .get = some (s', es)) :
    ∃ i ret v, s.loop = some (i, ret) ∧ i < serverNR ∧ s.memcached (sumKey (s.count 0) i) = some v ∧
      s' = { s with loop := some (i + 1, ret + v) } ∧ es = [] := by
  simp only [machine] at h
  split at h
  · cases h
  rename_i i ret hloop
  split at h
  · rename_i hi
    obtain ⟨v, hv, he⟩ := Option.map_eq_some_iff.1 h
    obtain ⟨rfl, rfl⟩ := Prod.mk.inj he
    exact ⟨i, ret, v, hloop, hi, hv, rfl, rfl⟩
  · cases h

theorem step_ret (h : (machine serverNR value).step s .ret = some (s', es)) :
    ∃ ret, s.loop = some (serverNR, ret) ∧
      s' = { s with loop := none, count := Function.update s.count 0 (s.count 0 + 1) } ∧
        es = [.ret (s.count 0) ret] := by
  simp only [machine] at h
  split at h
  · cases h
  rename_i i ret hloop
  split at h
  · rename_i hi
    obtain ⟨rfl, rfl⟩ := Prod.mk.inj (Option.some.inj h)
    exact ⟨ret, hi ▸ hloop, rfl, rfl⟩
  · cases h

/-- A set in time leaves the values that are still to be read in their places. -/
theorem Inv.set (hinv : Inv serverNR value s) {i : Nat} (hg : InTime serverNR s (.set i))
    (h : (machine serverNR value).step s (.set i) = some (s', es)) : Inv serverNR value s' := by
  obtain ⟨hi, hnew, hmem, hcount, hset, hread, hloop, -⟩ := step_set h
  constructor
  · intro n j hj hr
    exact (hset n j).2 (.inl (hinv.set_of_read n j hj ((hread n j).1 hr)))
  · intro p hp
    rw [hcount]
    rcases hloop p hp with hp | rfl
    · exact hinv.sum p hp
    · exact ⟨Nat.zero_le _, rfl⟩
  · intro n j hj hs hr
    rw [hread] at hr
    rw [hmem]
    rcases (hset n j).1 hs with hs | ⟨rfl, rfl⟩
    · rw [Function.update_of_ne, hinv.stored n j hj hs hr]
      intro he
      rcases Nat.lt_trichotomy n (s.count i) with hlt | heq | hlt
      · exact hr (hg n hlt j hj he)
      · rw [heq] at he hs
        rw [sumKey_inj_right he] at hs
        exact hnew hs
      · exact hnew (hinv.set_of_read _ _ hi (hinv.earlier n j _ i hj hi hs hlt he.symm))
    · exact Function.update_self _ _ _
  · intro n j m j' hj hj' hs hlt he
    rw [hread]
    rcases (hset n j).1 hs with hs | ⟨rfl, rfl⟩
    · exact hinv.earlier n j m j' hj hj' hs hlt he
    · exact hg m hlt j' hj' he
  · intro k v hv
    rw [hmem] at hv
    by_cases hk : k = sumKey (s.count i) i
    · exact ⟨_, i, hi, (hset _ i).2 (.inr ⟨rfl, rfl⟩), hk.symm⟩
    · rw [Function.update_of_ne hk] at hv
      obtain ⟨n, j, hj, hs, he⟩ := hinv.known k v hv
      exact ⟨n, j, hj, (hset n j).2 (.inl hs), he⟩

/-- A read in time reads the value of its own call. -/
theorem Inv.read (hinv : Inv serverNR value s) (hg : InTime serverNR s .get) {i : Nat} {ret v : UInt64}
    (hloop : s.loop = some (i, ret)) (hi : i < serverNR) (hv : s.memcached (sumKey (s.count 0) i) = some v) :
    IsSet s (s.count 0) i ∧ v = value (s.count 0) i := by
  have hnot : ¬IsRead s (s.count 0) i := by simp [IsRead, hloop]
  have hset : IsSet s (s.count 0) i := by
    obtain ⟨m, j, hj, hs, he⟩ := hinv.known _ v hv
    rcases Nat.lt_trichotomy m (s.count 0) with hlt | rfl | hlt
    · exact hg _ hloop ⟨m, hlt, j, hj, he⟩
    · rwa [sumKey_inj_right he] at hs
    · exact absurd (hinv.earlier m j _ i hj hi hs hlt he.symm) hnot
  exact ⟨hset, Option.some.inj (hv.symm.trans (hinv.stored _ i hi hset hnot))⟩

theorem Inv.get (hinv : Inv serverNR value s) (hg : InTime serverNR s .get)
    (h : (machine serverNR value).step s .get = some (s', es)) : Inv serverNR value s' := by
  obtain ⟨i, ret, v, hloop, hi, hv, rfl, -⟩ := step_get h
  obtain ⟨hset, rfl⟩ := hinv.read hg hloop hi hv
  have hset' : ∀ n j, IsSet { s with loop := some (i + 1, ret + value (s.count 0) i) } n j ↔ IsSet s n j := by
    intro n j
    simp [IsSet, hloop]
  have hread : ∀ n j, IsRead { s with loop := some (i + 1, ret + value (s.count 0) i) } n j ↔
      IsRead s n j ∨ (n = s.count 0 ∧ j = i) := by
    intro n j
    simp only [IsRead, hloop, Option.mem_def, Option.some.injEq, exists_eq_left']
    omega
  constructor
  · intro n j hj hr
    rw [hset']
    rcases (hread n j).1 hr with hr | ⟨rfl, rfl⟩
    · exact hinv.set_of_read n j hj hr
    · exact hset
  · rintro p hp
    obtain rfl := Option.some.inj hp
    exact ⟨hi, by rw [total_succ, ← (hinv.sum _ hloop).2]⟩
  · intro n j hj hs hr
    rw [hread, not_or] at hr
    exact hinv.stored n j hj ((hset' n j).1 hs) hr.1
  · intro n j m j' hj hj' hs hlt he
    exact (hread m j').2 (.inl (hinv.earlier n j m j' hj hj' ((hset' n j).1 hs) hlt he))
  · intro k w hw
    obtain ⟨n, j, hj, hs, he⟩ := hinv.known k w hw
    exact ⟨n, j, hj, (hset' n j).2 hs, he⟩

theorem Inv.ret (hinv : Inv serverNR value s) (h : (machine serverNR value).step s .ret = some (s', es)) :
    Inv serverNR value s' ∧ es = [.ret (s.count 0) (total value (s.count 0) serverNR)] := by
  obtain ⟨ret, hloop, rfl, rfl⟩ := step_ret h
  have hset : ∀ n j, IsSet { s with loop := none, count := Function.update s.count 0 (s.count 0 + 1) } n j ↔
      IsSet s n j := by
    intro n j
    by_cases hj : j = 0
    · subst hj
      simp [IsSet, hloop]
      omega
    · simp [IsSet, hj]
  have hread : ∀ n j, j < serverNR →
      (IsRead { s with loop := none, count := Function.update s.count 0 (s.count 0 + 1) } n j ↔ IsRead s n j) := by
    intro n j hj
    simp [IsRead, hloop, hj]
    omega
  have hsum : ret = total value (s.count 0) serverNR := (hinv.sum _ hloop).2
  refine ⟨⟨?_, ?_, ?_, ?_, ?_⟩, by rw [hsum]⟩
  · intro n j hj hr
    exact (hset n j).2 (hinv.set_of_read n j hj ((hread n j hj).1 hr))
  · intro p hp
    cases hp
  · intro n j hj hs hr
    exact hinv.stored n j hj ((hset n j).1 hs) (mt (hread n j hj).2 hr)
  · intro n j m j' hj hj' hs hlt he
    exact (hread m j' hj').2 (hinv.earlier n j m j' hj hj' ((hset n j).1 hs) hlt he)
  · intro k w hw
    obtain ⟨n, j, hj, hs, he⟩ := hinv.known k w hw
    exact ⟨n, j, hj, (hset n j).2 hs, he⟩

/-- **A step in time** keeps the invariant, and a return brings the sum. -/
theorem Inv.step (hinv : Inv serverNR value s) {a : Action} (hg : InTime serverNR s a)
    (h : (machine serverNR value).step s a = some (s', es)) :
    Inv serverNR value s' ∧ ∀ n sum, .ret n sum ∈ es → sum = total value n serverNR := by
  cases a with
  | set i =>
    refine ⟨hinv.set hg h, fun n sum he => ?_⟩
    rw [(step_set h).2.2.2.2.2.2.2] at he
    cases he
  | get =>
    refine ⟨hinv.get hg h, fun n sum he => ?_⟩
    obtain ⟨-, -, -, -, -, -, -, rfl⟩ := step_get h
    cases he
  | ret =>
    obtain ⟨hinv', rfl⟩ := hinv.ret h
    refine ⟨hinv', fun n sum he => ?_⟩
    obtain ⟨rfl, rfl⟩ := Event.ret.inj (List.mem_singleton.1 he)
    rfl

/-- A cluster of at most eleven nodes does every step in time. -/
theorem inTime_of_le (hN : serverNR ≤ 11) {a : Action}
    (h : (machine serverNR value).step s a = some (s', es)) : InTime serverNR s a := by
  cases a with
  | set j =>
    intro m hm i hi he
    have hj := (step_set h).1
    obtain rfl := eq_zero_of_sumKey (by omega) (by omega) hm he
    exact .inl hm
  | get =>
    obtain ⟨j, ret, -, hloop, hj, -⟩ := step_get h
    rintro p hp ⟨m, hm, i, hi, he⟩
    obtain rfl := Option.some.inj (hloop.symm.trans hp)
    have h0 : j = 0 := eq_zero_of_sumKey (by omega) (by omega) hm he
    exact .inr ⟨h0, rfl, by rw [hloop]; rfl⟩
  | ret => trivial

/-- **The cluster sum.** In a run of a cluster of at most eleven nodes, and in every other one whose sets and reads are
in time, the call with counter `n` returns on node 0 the sum of what the nodes pass to their calls with counter `n`. -/
theorem cluster_sum {h : List Event}
    (hrun : (machine serverNR value).Run (fun s a => serverNR ≤ 11 ∨ InTime serverNR s a) s h) {n : Nat} {sum : UInt64}
    (hret : .ret n sum ∈ h) : sum = total value n serverNR := by
  have hinv : Inv serverNR value s ∧ ∀ n sum, .ret n sum ∈ h → sum = total value n serverNR := by
    refine hrun.invariant (I := fun s h => Inv serverNR value s ∧ ∀ n sum, .ret n sum ∈ h →
      sum = total value n serverNR)
      ⟨⟨?_, ?_, ?_, ?_, ?_⟩, ?_⟩ ?_
    · intro n i _ hr
      simp [machine, IsRead] at hr
    · intro p hp
      cases hp
    · intro n i _ hs
      simp [machine, IsSet] at hs
    · intro n i m j _ _ hs
      simp [machine, IsSet] at hs
    · intro k v hv
      cases hv
    · intro n sum he
      cases he
    · intro s h a s' es _ hI hg hstep
      have hg : InTime serverNR s a := hg.elim (fun hN => inTime_of_le hN hstep) id
      obtain ⟨hinv', hes⟩ := hI.1.step hg hstep
      refine ⟨hinv', fun n sum he => ?_⟩
      rcases List.mem_append.1 he with he | he
      · exact hes n sum he
      · exact hI.2 n sum he
  exact hinv.2 n sum hret

/-- The call with counter `n` of a cluster in which node 0 comes last. -/
def callOf (serverNR : Nat) : List Action :=
  (List.range serverNR).reverse.map .set ++ List.replicate serverNR .get ++ [.ret]

/-- Twelve nodes, each of which passes the counter of its call: in time as long as no node runs ahead. -/
theorem cluster_sum_twelve :
    ∃ s h, (machine 12 fun n _ => UInt64.ofNat n).Run (fun s a => 12 ≤ 11 ∨ InTime 12 s a) s h ∧
    .ret 1 12 ∈ h ∧ 12 = total (fun n _ => UInt64.ofNat n) 1 12 := by
  have hexec : ((machine 12 fun n _ => UInt64.ofNat n).exec (fun s a => decide (12 ≤ 11 ∨ InTime 12 s a))
      (machine 12 fun n _ => UInt64.ofNat n).init [] (callOf 12 ++ callOf 12)).map (·.2) = some [.ret 1 12,
        .ret 0 0] := by
    decide +kernel
  obtain ⟨⟨s, h⟩, he, rfl⟩ := Option.map_eq_some_iff.1 hexec
  have hrun := Machine.Run.of_exec (I := fun _ => True) (fun _ hg => of_decide_eq_true hg)
    (fun _ _ _ => trivial) trivial
    .init he
  have hret : Event.ret 1 12 ∈ [Event.ret 1 12, .ret 0 0] := List.mem_cons_self
  exact ⟨s, _, hrun, hret, cluster_sum hrun hret⟩

/-- After the first call, node 1 runs ahead to its call with counter 11, before node 11 makes its call with counter
1. -/
def runsAhead : List Action :=
  callOf 12 ++ (List.range 11).map .set ++ List.replicate 10 (.set 1) ++ List.replicate 12 .get ++ [.ret]

/-- Under the key `sum-sum-111`, node 0 then reads the value of the call with counter 11 of node 1, where it wants the
one of the call with counter 1 of node 11. -/
theorem cluster_sum_ahead : ∃ s h sum, (machine 12 fun n _ => UInt64.ofNat n).Run (fun _ _ => True) s h ∧
    .ret 1 sum ∈ h ∧ sum ≠ total (fun n _ => UInt64.ofNat n) 1 12 := by
  have hexec : ((machine 12 fun n _ => UInt64.ofNat n).exec (fun _ _ => true)
      (machine 12 fun n _ => UInt64.ofNat n).init [] runsAhead).map (·.2) = some [.ret 1 22, .ret 0 0] := by
    decide +kernel
  obtain ⟨⟨s, h⟩, he, rfl⟩ := Option.map_eq_some_iff.1 hexec
  have hrun := Machine.Run.of_exec (I := fun _ => True) (fun _ _ => trivial) (fun _ _ _ => trivial) trivial .init he
  exact ⟨s, _, 22, hrun, List.mem_cons_self, by decide +kernel⟩

end ClusterSum

end Chime

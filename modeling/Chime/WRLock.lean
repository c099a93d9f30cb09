import Chime.Lib.Holders
import Chime.Lib.Machine

/-!
# The lock of readers and writers (`WRLock`)

One word of 16 bits is 1 while a writer has the lock, and twice the number of the readers otherwise. Each of its
operations loads the word, and tries to replace it by one compare-and-swap. However the threads' steps interleave, a
writer excludes all others, exactly if there are at most `2 ^ 15` threads: one more could make the count of the readers
come round to 0 (`wrlock_excludes`).
-/

namespace Chime
namespace WRLock

def unlocked : BitVec 16 := 0

def locked : BitVec 16 := 1

/-- Where a thread stands; with `once`, it gives up where the others try again. -/
inductive Pc
  | idle
  /-- `v = l.load()` of a reader -/
  | rLoad (once : Bool)
  /-- `compare_exchange_strong(v, v + 2)` -/
  | rCas (once : Bool) (v : BitVec 16)
  | reading
  /-- `v = l.load()` of `rUnlock` -/
  | rUnlockLoad
  /-- `compare_exchange_strong(v, v - 2)` -/
  | rUnlockCas (v : BitVec 16)
  | wLoad (once : Bool)
  /-- `compare_exchange_strong(UNLOCKED, LOCKED)` -/
  | wCas (once : Bool)
  | writing
  deriving DecidableEq, Repr

/-- The thread is among the readers. -/
def Pc.reads : Pc → Bool
  | reading | rUnlockLoad | rUnlockCas _ => true
  | _ => false

def Pc.writes : Pc → Bool
  | writing => true
  | _ => false

structure State where
  l : BitVec 16
  pcs : Nat → Pc

inductive Action
  /-- `rLock`, or `try_rLock` -/
  | read (p : Nat) (once : Bool)
  /-- `wLock`, or `try_wLock` -/
  | write (p : Nat) (once : Bool)
  | rUnlock (p : Nat)
  | wUnlock (p : Nat)
  /-- the next step of an operation -/
  | step (p : Nat)
  deriving DecidableEq, Repr

def State.goto (s : State) (p : Nat) (pc : Pc) : State := { s with pcs := Function.update s.pcs p pc }

/-- The next step of the operation of thread `p`. -/
def advance (s : State) (p : Nat) : Pc → Option State
  | .rLoad once =>
    if s.l = locked then some (s.goto p (if once then .idle else .rLoad once)) else some (s.goto p (.rCas once s.l))
  | .rCas once v =>
    if s.l = v then some ({ s with l := v + 2 }.goto p .reading)
    -- another reader: `try_rLock` tries again as well
    else some (s.goto p (.rLoad once))
  | .rUnlockLoad => some (s.goto p (.rUnlockCas s.l))
  | .rUnlockCas v => if s.l = v then some ({ s with l := v - 2 }.goto p .idle) else some (s.goto p .rUnlockLoad)
  | .wLoad once =>
    if s.l = unlocked then some (s.goto p (.wCas once)) else some (s.goto p (if once then .idle else .wLoad once))
  | .wCas once =>
    if s.l = unlocked then some ({ s with l := locked }.goto p .writing)
    else some (s.goto p (if once then .idle else .wLoad once))
  | .idle | .reading | .writing => none

variable (clientNR : Nat)

def step (s : State) : Action → Option (State × List Empty)
  | .read p once => if p < clientNR ∧ s.pcs p = .idle then some (s.goto p (.rLoad once), []) else none
  | .write p once => if p < clientNR ∧ s.pcs p = .idle then some (s.goto p (.wLoad once), []) else none
  | .rUnlock p => if s.pcs p = .reading then some (s.goto p .rUnlockLoad, []) else none
  | .wUnlock p => if s.pcs p = .writing then some ({ s with l := unlocked }.goto p .idle, []) else none
  | .step p => (advance s p (s.pcs p)).map fun s' => (s', [])

def machine : Machine State Action Empty := ⟨⟨unlocked, fun _ => .idle⟩, step clientNR⟩

/-- A writer is alone. -/
def State.Exclusive (s : State) : Prop :=
  ∀ p q, s.pcs p = .writing → p ≠ q → s.pcs q ≠ .writing ∧ (s.pcs q).reads = false

def State.readers (s : State) : Nat := census clientNR Pc.reads s.pcs

def State.writers (s : State) : Nat := census clientNR Pc.writes s.pcs

/-- What holds between the steps. -/
structure Inv (s : State) : Prop where
  lt : ∀ p, s.pcs p ≠ .idle → p < clientNR
  /-- a reader tries to replace a word without a writer -/
  cas : ∀ p once v, s.pcs p = .rCas once v → v ≠ locked
  word : (s.writers clientNR = 0 ∧ s.l = BitVec.ofNat 16 (2 * s.readers clientNR)) ∨
    (s.writers clientNR = 1 ∧ s.readers clientNR = 0 ∧ s.l = locked)

variable {clientNR} {s s' : State} {p : Nat} {pc : Pc} {es : List Empty}

/-! ## The word -/

theorem ofNat_ne_locked (n : Nat) : BitVec.ofNat 16 (2 * n) ≠ locked := by
  intro he
  have hmod : 2 * n % 2 ^ 16 = 1 := congrArg BitVec.toNat he
  omega

/-- The count of fewer than `2 ^ 15` readers is 0 only if there are none. -/
theorem eq_zero_of_unlocked {n : Nat} (hn : n < 2 ^ 15) (he : BitVec.ofNat 16 (2 * n) = unlocked) : n = 0 := by
  have hmod : 2 * n % 2 ^ 16 = 0 := congrArg BitVec.toNat he
  omega

theorem ofNat_succ (n : Nat) : BitVec.ofNat 16 (2 * n) + 2 = BitVec.ofNat 16 (2 * (n + 1)) := by
  rw [Nat.mul_add_one, BitVec.ofNat_add]
  rfl

theorem ofNat_pred (n : Nat) : BitVec.ofNat 16 (2 * (n + 1)) - 2 = BitVec.ofNat 16 (2 * n) := by
  rw [← ofNat_succ, BitVec.add_sub_cancel]

/-! ## The steps -/

/-- The counts after a step of thread `p`. -/
theorem readers_goto (hp : p < clientNR) (pc : Pc) :
    (s.goto p pc).readers clientNR + (s.pcs p).reads.toNat = s.readers clientNR + pc.reads.toNat := census_update hp

theorem writers_goto (hp : p < clientNR) (pc : Pc) :
    (s.goto p pc).writers clientNR + (s.pcs p).writes.toNat = s.writers clientNR + pc.writes.toNat := census_update hp

/-- A step of thread `p`, with a new word. -/
theorem Inv.goto (hI : Inv clientNR s) (hp : p < clientNR) (hcas : ∀ once v, pc = .rCas once v → v ≠ locked)
    {l : BitVec 16} (hword : ((s.goto p pc).writers clientNR = 0 ∧
        l = BitVec.ofNat 16 (2 * (s.goto p pc).readers clientNR)) ∨
      ((s.goto p pc).writers clientNR = 1 ∧ (s.goto p pc).readers clientNR = 0 ∧ l = locked)) :
    Inv clientNR ({ s with l }.goto p pc) := by
  refine ⟨fun q hq => ?_, fun q once v hq => ?_, hword⟩
  · rcases eq_or_ne q p with rfl | hne
    · exact hp
    · exact hI.lt q (by simpa [State.goto, hne] using hq)
  · rcases eq_or_ne q p with rfl | hne
    · exact hcas once v (by simpa [State.goto] using hq)
    · exact hI.cas q once v (by simpa [State.goto, hne] using hq)

/-- A step that leaves the word alone, and the thread what it is. -/
theorem Inv.quiet (hI : Inv clientNR s) (hp : p < clientNR) (hr : pc.reads = (s.pcs p).reads)
    (hw : pc.writes = (s.pcs p).writes) (hcas : ∀ once v, pc = .rCas once v → v ≠ locked) :
    Inv clientNR (s.goto p pc) := by
  have hR := readers_goto (s := s) hp pc
  have hW := writers_goto (s := s) hp pc
  rw [hr, Nat.add_right_cancel_iff] at hR
  rw [hw, Nat.add_right_cancel_iff] at hW
  exact hI.goto hp hcas (l := s.l) (by rw [hR, hW]; exact hI.word)

/-- The flags of a thread that gives up or tries again. -/
theorem flags_ite (once : Bool) (pc : Pc) (hr : pc.reads = false) (hw : pc.writes = false) :
    (if once then Pc.idle else pc).reads = false ∧ (if once then Pc.idle else pc).writes = false := by
  cases once
  · exact ⟨hr, hw⟩
  · exact ⟨rfl, rfl⟩

theorem Inv.advance (hclients : clientNR ≤ 2 ^ 15) (hI : Inv clientNR s) (he : advance s p (s.pcs p) = some s') :
    Inv clientNR s' := by
  have hlt : s.pcs p ≠ .idle → p < clientNR := hI.lt p
  have hquiet {pc : Pc} := @Inv.quiet clientNR s p pc hI
  cases hpc : s.pcs p with
  | idle | reading | writing =>
    rw [hpc] at he
    cases he
  | rLoad once =>
    rw [hpc] at he hlt hquiet
    rw [WRLock.advance] at he
    split at he <;> cases he
    · obtain ⟨hr, hw⟩ := flags_ite once (.rLoad once) rfl rfl
      exact hquiet (hlt nofun) hr hw (by cases once <;> nofun)
    · rename_i hl
      exact hquiet (hlt nofun) rfl rfl fun _ _ he => by cases he; exact hl
  | rCas once v =>
    rw [hpc] at he hlt hquiet
    rw [WRLock.advance] at he
    split at he <;> cases he
    · -- one more reader
      rename_i hl
      have hR := readers_goto (s := s) (hlt nofun) .reading
      have hW := writers_goto (s := s) (hlt nofun) .reading
      rw [hpc] at hR hW
      simp only [Pc.reads, Pc.writes, Bool.toNat_true, Bool.toNat_false, Nat.add_zero] at hR hW
      rcases hI.word with ⟨h0, hword⟩ | ⟨-, -, hword⟩
      · refine hI.goto (hlt nofun) (by nofun) (.inl ⟨by omega, ?_⟩)
        rw [hR, ← ofNat_succ, ← hword, hl]
      · exact absurd (hl.symm.trans hword) (hI.cas p once v hpc)
    · exact hquiet (hlt nofun) rfl rfl (by nofun)
  | rUnlockLoad =>
    rw [hpc] at he hlt hquiet
    cases he
    exact hquiet (hlt nofun) rfl rfl (by nofun)
  | rUnlockCas v =>
    rw [hpc] at he hlt hquiet
    rw [WRLock.advance] at he
    split at he <;> cases he
    · -- one reader less
      rename_i hl
      have hR := readers_goto (s := s) (hlt nofun) .idle
      have hW := writers_goto (s := s) (hlt nofun) .idle
      rw [hpc] at hR hW
      simp only [Pc.reads, Pc.writes, Bool.toNat_true, Bool.toNat_false, Nat.add_zero] at hR hW
      rcases hI.word with ⟨h0, hword⟩ | ⟨-, h0, -⟩
      · refine hI.goto (hlt nofun) (by nofun) (.inl ⟨by omega, ?_⟩)
        rw [← hl, hword, ← hR, ofNat_pred]
      · omega
    · exact hquiet (hlt nofun) rfl rfl (by nofun)
  | wLoad once =>
    rw [hpc] at he hlt hquiet
    rw [WRLock.advance] at he
    split at he <;> cases he
    · exact hquiet (hlt nofun) rfl rfl (by nofun)
    · obtain ⟨hr, hw⟩ := flags_ite once (.wLoad once) rfl rfl
      exact hquiet (hlt nofun) hr hw (by cases once <;> nofun)
  | wCas once =>
    rw [hpc] at he hlt hquiet
    rw [WRLock.advance] at he
    split at he <;> cases he
    · -- the writer is not among the readers, so that there are too few for the count to be 0
      rename_i hl
      have hone := readers_goto (s := s) (hlt nofun) .reading
      have hle : (s.goto p .reading).readers clientNR ≤ clientNR := census_le
      have hR := readers_goto (s := s) (hlt nofun) .writing
      have hW := writers_goto (s := s) (hlt nofun) .writing
      rw [hpc] at hone hR hW
      simp only [Pc.reads, Pc.writes, Bool.toNat_true, Bool.toNat_false, Nat.add_zero] at hone hR hW
      rcases hI.word with ⟨h0, hword⟩ | ⟨-, -, hword⟩
      · have hnone := eq_zero_of_unlocked (by omega) (hword.symm.trans hl)
        exact hI.goto (hlt nofun) (by nofun) (.inr ⟨by omega, by omega, rfl⟩)
      · exact absurd (hl.symm.trans hword) (by decide)
    · obtain ⟨hr, hw⟩ := flags_ite once (.wLoad once) rfl rfl
      exact hquiet (hlt nofun) hr hw (by cases once <;> nofun)

theorem Inv.step (hclients : clientNR ≤ 2 ^ 15) (hI : Inv clientNR s) {a : Action}
    (he : step clientNR s a = some (s', es)) : Inv clientNR s' := by
  cases a with
  | read p once =>
    simp only [WRLock.step] at he
    split at he <;> cases he
    rename_i hp
    exact hI.quiet hp.1 (by rw [hp.2]; rfl) (by rw [hp.2]; rfl) (by nofun)
  | write p once =>
    simp only [WRLock.step] at he
    split at he <;> cases he
    rename_i hp
    exact hI.quiet hp.1 (by rw [hp.2]; rfl) (by rw [hp.2]; rfl) (by nofun)
  | rUnlock p =>
    simp only [WRLock.step] at he
    split at he <;> cases he
    rename_i hpc
    exact hI.quiet (hI.lt p (by rw [hpc]; nofun)) (by rw [hpc]; rfl) (by rw [hpc]; rfl) (by nofun)
  | wUnlock p =>
    simp only [WRLock.step] at he
    split at he <;> cases he
    rename_i hpc
    have hp := hI.lt p (by rw [hpc]; nofun)
    have hR := readers_goto (s := s) hp .idle
    have hW := writers_goto (s := s) hp .idle
    rw [hpc] at hR hW
    simp only [Pc.reads, Pc.writes, Bool.toNat_true, Bool.toNat_false, Nat.add_zero] at hR hW
    rcases hI.word with ⟨h0, -⟩ | ⟨h1, h0, -⟩
    · omega
    · have hR0 : (s.goto p .idle).readers clientNR = 0 := by omega
      exact hI.goto hp (by nofun) (.inl ⟨by omega, by rw [hR0]; rfl⟩)
  | step p =>
    obtain ⟨s₁, hs₁, heq⟩ := Option.map_eq_some_iff.1 he
    cases heq
    exact hI.advance hclients hs₁

theorem Inv.excludes (hI : Inv clientNR s) : s.Exclusive := by
  intro p q hwriting hne
  have hp := hI.lt p (by rw [hwriting]; exact Pc.noConfusion)
  have hW := writers_goto (s := s) hp .idle
  rw [hwriting] at hW
  simp only [Pc.writes, Bool.toNat_true, Bool.toNat_false, Nat.add_zero] at hW
  rcases hI.word with ⟨h0, -⟩ | ⟨h1, h0, -⟩
  · omega
  refine ⟨fun hq => ?_, ?_⟩
  · have hlt := hI.lt q (by rw [hq]; exact Pc.noConfusion)
    have hpos : 0 < (s.goto p .idle).writers clientNR :=
      census_pos hlt (by simp [State.goto, hne.symm, hq, Pc.writes])
    omega
  · by_contra hreads
    rw [Bool.not_eq_false] at hreads
    have hlt := hI.lt q (by intro hidle; rw [hidle] at hreads; cases hreads)
    have hpos : 0 < s.readers clientNR := census_pos hlt hreads
    omega

/-! ## Too many threads -/

/-- The first `k` threads are readers. -/
def crowd (k : Nat) : State := ⟨BitVec.ofNat 16 (2 * k), fun q => if q < k then .reading else .idle⟩

theorem crowd_succ (k : Nat) : { crowd k with l := (crowd k).l + 2 }.goto k .reading = crowd (k + 1) := by
  have hpcs : Function.update (crowd k).pcs k .reading = (crowd (k + 1)).pcs := by
    funext q
    rcases eq_or_ne q k with rfl | hne
    · simp [crowd]
    · have hiff : q < k + 1 ↔ q < k := by omega
      simp only [crowd, Function.update_of_ne hne, hiff]
  simp only [State.goto, hpcs]
  simp only [crowd, ofNat_succ]

/-- A thread without a lock takes it for reading. -/
theorem crowd_run {k : Nat} (hk : k ≤ clientNR) : (machine clientNR).Run (fun _ _ => True) (crowd k) [] := by
  induction k with
  | zero => exact .init
  | succ k ih =>
    have hidle : (crowd k).pcs k = .idle := by simp [crowd]
    have hl : (crowd k).l ≠ locked := ofNat_ne_locked k
    have hread : (machine clientNR).step (crowd k) (.read k false) = some ((crowd k).goto k (.rLoad false), []) := by
      simp only [machine, step, hidle, Nat.lt_of_succ_le hk, and_self, if_true]
    have hload : (machine clientNR).step ((crowd k).goto k (.rLoad false)) (.step k) =
        some ((crowd k).goto k (.rCas false (crowd k).l), []) := by
      simp [machine, step, advance, State.goto, hl]
    have hcas : (machine clientNR).step ((crowd k).goto k (.rCas false (crowd k).l)) (.step k) =
        some ({ crowd k with l := (crowd k).l + 2 }.goto k .reading, []) := by
      simp [machine, step, advance, State.goto]
    rw [crowd_succ] at hcas
    have h1 := (ih (Nat.le_of_succ_le hk)).step (.read k false) trivial hread
    have h2 := h1.step (.step k) trivial hload
    exact h2.step (.step k) trivial hcas

/-- When `2 ^ 15` threads read, one more can write. -/
theorem exists_intruder (hclients : 2 ^ 15 < clientNR) :
    ∃ s, (machine clientNR).Run (fun _ _ => True) s [] ∧ ¬s.Exclusive := by
  have hrun := crowd_run hclients.le
  generalize hn : 2 ^ 15 = n at hclients hrun
  have hidle : (crowd n).pcs n = .idle := by simp [crowd]
  have hl : (crowd n).l = unlocked := by
    subst hn
    rfl
  have hwrite : (machine clientNR).step (crowd n) (.write n false) = some ((crowd n).goto n (.wLoad false), []) := by
    simp only [machine, step, hidle, hclients, and_self, if_true]
  have hload : (machine clientNR).step ((crowd n).goto n (.wLoad false)) (.step n) =
      some ((crowd n).goto n (.wCas false), []) := by
    simp [machine, step, advance, State.goto, hl]
  have hcas : (machine clientNR).step ((crowd n).goto n (.wCas false)) (.step n) =
      some ({ crowd n with l := locked }.goto n .writing, []) := by
    simp [machine, step, advance, State.goto, hl]
  have h1 := hrun.step (.write n false) trivial hwrite
  have h2 := h1.step (.step n) trivial hload
  refine ⟨_, h2.step (.step n) trivial hcas, fun hex => ?_⟩
  have hpos : 0 < n := by omega
  have hreads := (hex n 0 (by simp [State.goto]) hpos.ne').2
  have hzero : ({ crowd n with l := locked }.goto n .writing).pcs 0 = .reading := by
    simp [State.goto, crowd, hpos, hpos.ne]
  rw [hzero] at hreads
  cases hreads

/-- **Exclusion**: in every run a writer is alone, exactly if there are at most `2 ^ 15` threads. -/
theorem wrlock_excludes :
    (∀ s h, (machine clientNR).Run (fun _ _ => True) s h → s.Exclusive) ↔ clientNR ≤ 2 ^ 15 := by
  constructor
  · intro hall
    by_contra hclients
    obtain ⟨s, hrun, hnot⟩ := exists_intruder (not_le.1 hclients)
    exact hnot (hall s [] hrun)
  · intro hclients s h hrun
    have hinit : Inv clientNR (machine clientNR).init :=
      ⟨fun _ hne => absurd rfl hne, fun _ _ _ hpc => (by cases hpc), .inl ⟨census_eq_zero fun _ _ => rfl, by
        rw [State.readers, census_eq_zero fun _ _ => rfl]
        rfl⟩⟩
    have hI := hrun.invariant (I := fun s _ => Inv clientNR s) hinit fun _ hI _ he => hI.step hclients he
    exact hI.excludes

end WRLock
end Chime

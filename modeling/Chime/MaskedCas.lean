import Chime.Lib.Machine
import Mathlib.Data.UInt

/-!
# The emulated masked compare-and-swap (`CxlTransport.cpp`)

`cas_mask_internal` loads the word, compares it and swaps it by a compare-and-swap, and begins again when another
thread was faster. The machine interleaves one call with whatever other threads do to the word; the word before the
call is an argument, and the history tells how it was changed. `Emulates` is the contract of the verb: an atomic masked
swap, or a mismatch. A call that gives up after the last retry may leave a result that matches, and nothing else goes
wrong (`masked_cas_emulates`).
-/

namespace Chime

/-- The bound of the retry loop. -/
def retryLimit : Nat := 1000000

/-- The arguments of `cas_mask_internal`. -/
structure MaskedCas where
  equal : UInt64
  val : UInt64
  compareMask : UInt64
  swapMask : UInt64
  deriving DecidableEq, Repr

/-- Where a call stands. -/
inductive MaskedCasPc
  /-- at the head of the loop, or behind it -/
  | load (retry : Nat)
  | swap (retry : Nat) (current : UInt64)
  | returned (ok : Bool) (result : UInt64)
  deriving DecidableEq, Repr

structure MaskedCasState where
  word : UInt64
  pc : MaskedCasPc
  deriving DecidableEq, Repr

/-- A step of the call, or an atomic operation of another thread. -/
inductive MaskedCasStep
  | call
  | other (word : UInt64)
  deriving DecidableEq, Repr

/-- A change of the word. -/
inductive WordEvent
  | call (old new : UInt64)
  | other (new : UInt64)
  deriving DecidableEq, Repr

namespace MaskedCas

variable (A : MaskedCas)

/-- The masked bits match. -/
def Matches (word : UInt64) : Prop := word &&& A.compareMask = A.equal &&& A.compareMask

instance (word : UInt64) : Decidable (A.Matches word) := inferInstanceAs (Decidable (_ = _))

/-- "keep non-masked bits, swap masked bits" -/
def swapped (current : UInt64) : UInt64 := (current &&& ~~~A.swapMask) ||| (A.val &&& A.swapMask)

/-- A step of `cas_mask_internal`. -/
def callStep (s : MaskedCasState) : Option (MaskedCasState × List WordEvent) :=
  match s.pc with
  | .load retry =>
    if retry < retryLimit then
      if A.Matches s.word then some ({ s with pc := .swap retry s.word }, [])
      else some ({ s with pc := .returned false s.word }, [])
    else some ({ s with pc := .returned false s.word }, [])
  | .swap retry current =>
    if s.word = current then
      some (⟨A.swapped current, .returned true current⟩, [.call s.word (A.swapped current)])
    else some ({ s with pc := .load (retry + 1) }, [])
  | .returned _ _ => none

def step (s : MaskedCasState) : MaskedCasStep → Option (MaskedCasState × List WordEvent)
  | .call => A.callStep s
  | .other word => some ({ s with word }, [.other word])

/-- A call on a word. -/
def machine (word : UInt64) : Machine MaskedCasState MaskedCasStep WordEvent := ⟨⟨word, .load 0⟩, A.step⟩

/-! ## The contract of the verb -/

/-- The word after these changes, the newest first. -/
def wordAfter (word : UInt64) : List WordEvent → UInt64
  | [] => word
  | .call _ new :: _ => new
  | .other new :: _ => new

/-- The call has not changed the word. -/
def Unchanged (h : List WordEvent) : Prop := ∀ old new, .call old new ∉ h

/-- One instant of the history: the word was `result` and matched, and the call swapped the masked bits; the call has
changed the word at no other instant. -/
def SwappedOnce (word : UInt64) (h : List WordEvent) (result : UInt64) : Prop :=
  ∃ h₁ h₂, h = h₂ ++ .call result (A.swapped result) :: h₁ ∧ wordAfter word h₁ = result ∧ A.Matches result ∧
    Unchanged h₁ ∧ Unchanged h₂

/-- `result` is a value that the word had. -/
def WasWord (word : UInt64) (h : List WordEvent) (result : UInt64) : Prop :=
  ∃ h₁ h₂, h = h₂ ++ h₁ ∧ wordAfter word h₁ = result

/-- What the verb promises: a call that returned true has swapped the word once, a call that returned false has left it
alone and has a result that does not match. -/
def Emulates (word : UInt64) (s : MaskedCasState) (h : List WordEvent) : Prop :=
  match s.pc with
  | .returned true result => A.SwappedOnce word h result
  | .returned false result => Unchanged h ∧ WasWord word h result ∧ ¬A.Matches result
  | _ => Unchanged h

/-- The step is not the one that gives up, after the last retry, on a word that matches. -/
def NotExhausted (s : MaskedCasState) (a : MaskedCasStep) : Prop :=
  ∀ retry, a = .call → s.pc = .load retry → retryLimit ≤ retry → ¬A.Matches s.word

variable {A} {word : UInt64} {s s' : MaskedCasState} {h es : List WordEvent} {a : MaskedCasStep}

theorem unchanged_nil : Unchanged [] := fun _ _ hmem => by cases hmem

theorem Unchanged.other (hu : Unchanged h) (new : UInt64) : Unchanged (.other new :: h) := by
  intro old new' hmem
  rcases List.mem_cons.1 hmem with heq | hmem
  · cases heq
  · exact hu old new' hmem

theorem wasWord_self (word : UInt64) (h : List WordEvent) : WasWord word h (wordAfter word h) := ⟨h, [], rfl, rfl⟩

theorem WasWord.cons {result : UInt64} (hw : WasWord word h result) (e : WordEvent) : WasWord word (e :: h) result := by
  obtain ⟨h₁, h₂, rfl, hr⟩ := hw
  exact ⟨h₁, e :: h₂, rfl, hr⟩

theorem SwappedOnce.other {result : UInt64} (hs : A.SwappedOnce word h result) (new : UInt64) :
    A.SwappedOnce word (.other new :: h) result := by
  obtain ⟨h₁, h₂, rfl, hw, hm, hu₁, hu₂⟩ := hs
  exact ⟨h₁, .other new :: h₂, rfl, hw, hm, hu₁, hu₂.other new⟩

variable (A) in
/-- The invariant of a call: the history leads to the word, and a word that is to be swapped has matched. -/
structure CallOk (word : UInt64) (s : MaskedCasState) (h : List WordEvent) : Prop where
  current : s.word = wordAfter word h
  emulates : A.Emulates word s h
  loaded : ∀ retry current, s.pc = .swap retry current → A.Matches current

/-- What another thread does. -/
theorem Emulates.other (he : A.Emulates word s h) (new : UInt64) :
    A.Emulates word { s with word := new } (.other new :: h) := by
  unfold Emulates at he ⊢
  simp only
  split at he
  · exact SwappedOnce.other he new
  · exact ⟨he.1.other new, he.2.1.cons _, he.2.2⟩
  · exact Unchanged.other he new

/-- What a step of the call does. -/
theorem callStep_cases (hstep : A.callStep s = some (s', es)) :
    (∃ retry, s.pc = .load retry ∧ retry < retryLimit ∧ A.Matches s.word ∧ s' = { s with pc := .swap retry s.word } ∧
      es = []) ∨
    (∃ retry, s.pc = .load retry ∧ (retry < retryLimit → ¬A.Matches s.word) ∧
      s' = { s with pc := .returned false s.word } ∧ es = []) ∨
    (∃ retry, s.pc = .swap retry s.word ∧ s' = ⟨A.swapped s.word, .returned true s.word⟩ ∧
      es = [.call s.word (A.swapped s.word)]) ∨
    (∃ retry current, s.pc = .swap retry current ∧ s' = { s with pc := .load (retry + 1) } ∧ es = []) := by
  unfold callStep at hstep
  split at hstep
  · rename_i retry hpc
    split at hstep
    · rename_i hlt
      split at hstep
      · rename_i hm
        cases hstep
        exact .inl ⟨retry, hpc, hlt, hm, rfl, rfl⟩
      · rename_i hm
        cases hstep
        exact .inr (.inl ⟨retry, hpc, fun _ => hm, rfl, rfl⟩)
    · rename_i hge
      cases hstep
      exact .inr (.inl ⟨retry, hpc, fun hlt => absurd hlt hge, rfl, rfl⟩)
  · rename_i retry current hpc
    split at hstep
    · rename_i heq
      subst heq
      cases hstep
      exact .inr (.inr (.inl ⟨retry, hpc, rfl, rfl⟩))
    · cases hstep
      exact .inr (.inr (.inr ⟨retry, current, hpc, rfl, rfl⟩))
  · cases hstep

/-- A call that has returned takes no step. -/
theorem not_returned (hstep : A.callStep s = some (s', es)) (ok : Bool) (result : UInt64) :
    s.pc ≠ .returned ok result := by
  intro hret
  rw [callStep, hret] at hstep
  cases hstep

/-- Before it returns, a call has not changed the word. -/
theorem Emulates.unchanged (he : A.Emulates word s h) (hpc : ∀ ok result, s.pc ≠ .returned ok result) :
    Unchanged h := by
  unfold Emulates at he
  split at he
  · rename_i hret
    exact absurd hret (hpc _ _)
  · rename_i hret
    exact absurd hret (hpc _ _)
  · exact he

theorem notExhausted_of_swap {retry : Nat} {current : UInt64} (hpc : s.pc = .swap retry current) :
    A.NotExhausted s a := by
  intro r _ hr
  rw [hpc] at hr
  cases hr

/-- **A step** keeps the contract exactly if it does not give up on a word that matches. -/
theorem CallOk.step (hok : A.CallOk word s h) (hstep : A.step s a = some (s', es)) :
    (A.NotExhausted s a ∧ A.CallOk word s' (es ++ h)) ∨ (¬A.NotExhausted s a ∧ ¬A.Emulates word s' (es ++ h)) := by
  have hcur := hok.current
  cases a with
  | other new =>
    cases hstep
    exact .inl ⟨fun _ ha => (MaskedCasStep.noConfusion ha), rfl, hok.emulates.other new, hok.loaded⟩
  | call =>
    have hun := hok.emulates.unchanged (not_returned hstep)
    obtain ⟨retry, hpc, hlt, hm, rfl, rfl⟩ | ⟨retry, hpc, hno, rfl, rfl⟩ | ⟨retry, hpc, rfl, rfl⟩ |
      ⟨retry, current, hpc, rfl, rfl⟩ := callStep_cases hstep
    · refine .inl ⟨fun r _ hr hle => ?_, hcur, hun, fun r current hr => ?_⟩
      · rw [hpc] at hr
        cases hr
        exact absurd hlt (not_lt.2 hle)
      · cases hr
        exact hm
    · -- the result was loaded: it is a value of the word
      have hwas : WasWord word h s.word := by
        rw [hcur]
        exact wasWord_self word h
      by_cases hm : A.Matches s.word
      · have hge : retryLimit ≤ retry := not_lt.1 fun hlt => hno hlt hm
        exact .inr ⟨fun hnot => hnot retry rfl hpc hge hm, fun he => he.2.2 hm⟩
      · exact .inl ⟨fun _ _ _ _ => hm, hcur, ⟨hun, hwas, hm⟩, fun r current hr => by cases hr⟩
    · have hm := hok.loaded retry s.word hpc
      refine .inl ⟨notExhausted_of_swap hpc, rfl, ?_, fun r current hr => by cases hr⟩
      exact ⟨h, [], rfl, hcur.symm, hm, hun, unchanged_nil⟩
    · exact .inl ⟨notExhausted_of_swap hpc, hcur, hun, fun r current hr => by cases hr⟩

theorem callOk_init (A : MaskedCas) (word : UInt64) : A.CallOk word (A.machine word).init [] where
  current := rfl
  emulates := unchanged_nil
  loaded := fun _ _ h => by cases h

/-- **The emulated masked compare-and-swap.** In every run in which the call does not give up, after the last retry, on
a word that matches, it keeps the contract of the verb; a further step keeps it exactly if it is not such a step. -/
theorem masked_cas_emulates (hrun : (A.machine word).Run A.NotExhausted s h) :
    A.Emulates word s h ∧ ∀ a s' es, A.step s a = some (s', es) →
      (A.Emulates word s' (es ++ h) ↔ A.NotExhausted s a) :=
  hrun.exact_guard (callOk_init A word) CallOk.emulates CallOk.step

/-- The acquisition of a node's lock. -/
def acquireLock : MaskedCas := ⟨0, 0xffffffffffffffff, 0x8000000000000000, 0xffffffffffffffff⟩

/-- Another thread changes the word between the load and the swap; the second round succeeds. -/
theorem masked_cas_emulates_lock : ∃ s h, (acquireLock.machine 6).Run acquireLock.NotExhausted s h ∧
    s.pc = .returned true 7 ∧ acquireLock.Emulates 6 s h := by
  have hexec : ∃ s h, (acquireLock.machine 6).exec (fun s _ => s.pc = .load 0 ∨ s.pc = .load 1 ∨ s.pc = .swap 0 6 ∨
      s.pc = .swap 1 7) (acquireLock.machine 6).init [] [.call, .other 7, .call, .call, .call] = some (s, h) ∧
      s.pc = .returned true 7 := by
    refine ⟨_, _, rfl, rfl⟩
  obtain ⟨s, h, hexec, hpc⟩ := hexec
  have hrun : (acquireLock.machine 6).Run acquireLock.NotExhausted s h := by
    refine Machine.Run.of_exec (I := fun _ => True) (fun {s a} _ hg retry _ hretry hle => ?_)
      (fun _ _ _ => trivial) trivial
      .init hexec
    rw [decide_eq_true_eq, hretry] at hg
    rcases hg with hg | hg | hg | hg <;> cases hg <;> exact absurd hle (by decide)
  exact ⟨s, h, hrun, hpc, (masked_cas_emulates hrun).1⟩

/-! ## Giving up -/

/-- The acquisition of the lowest bit. -/
def lockLowest : MaskedCas := ⟨0, 1, 1, 1⟩

/-- A round that fails: after the load, another thread changes the second bit. -/
theorem failed_round {w w' : UInt64} {n : Nat} (hn : n < retryLimit) (hm : lockLowest.Matches w) (hne : w' ≠ w)
    (hrun : (lockLowest.machine 0).Run (fun _ _ => True) ⟨w, .load n⟩ h) :
    ∃ h', (lockLowest.machine 0).Run (fun _ _ => True) ⟨w', .load (n + 1)⟩ h' := by
  have hload : (lockLowest.machine 0).step ⟨w, .load n⟩ .call = some (⟨w, .swap n w⟩, []) := by
    simp only [machine, step, callStep, if_pos hn, if_pos hm]
  have hswap : (lockLowest.machine 0).step ⟨w', .swap n w⟩ .call = some (⟨w', .load (n + 1)⟩, []) := by
    simp only [machine, step, callStep, if_neg hne]
  have h₁ := hrun.step .call trivial hload
  have hother : (lockLowest.machine 0).step ⟨w, .swap n w⟩ (.other w') = some (⟨w', .swap n w⟩, [.other w']) := rfl
  exact ⟨_, (h₁.step (.other w') trivial hother).step .call trivial hswap⟩

/-- Every round can fail. -/
theorem reach_load (n : Nat) (hn : n ≤ retryLimit) :
    ∃ w h, (w = 0 ∨ w = 2) ∧ (lockLowest.machine 0).Run (fun _ _ => True) ⟨w, .load n⟩ h := by
  induction n with
  | zero => exact ⟨0, [], .inl rfl, .init⟩
  | succ n ih =>
    obtain ⟨w, h, rfl | rfl, hrun⟩ := ih (Nat.le_of_succ_le hn)
    · obtain ⟨h', hrun'⟩ := failed_round hn (by decide) (show (2 : UInt64) ≠ 0 by decide) hrun
      exact ⟨2, h', .inr rfl, hrun'⟩
    · obtain ⟨h', hrun'⟩ := failed_round hn (by decide) (show (0 : UInt64) ≠ 2 by decide) hrun
      exact ⟨0, h', .inl rfl, hrun'⟩

/-- **A call gives up**: it returns false with a result that matches. -/
theorem not_masked_cas_emulates : ∃ s h w, (lockLowest.machine 0).Run (fun _ _ => True) s h ∧
    s.pc = .returned false w ∧ lockLowest.Matches w ∧ ¬lockLowest.Emulates 0 s h := by
  obtain ⟨w, h, hw, hrun⟩ := reach_load retryLimit le_rfl
  have hm : lockLowest.Matches w := by
    rcases hw with rfl | rfl <;> decide
  have hfinal : (lockLowest.machine 0).step ⟨w, .load retryLimit⟩ .call = some (⟨w, .returned false w⟩, []) := by
    simp only [machine, step, callStep, lt_irrefl, if_false]
  exact ⟨_, _, w, hrun.step .call trivial hfinal, rfl, hm, fun he => he.2.2 hm⟩

end MaskedCas

end Chime

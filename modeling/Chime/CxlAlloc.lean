import Chime.Allocation
import Chime.Lib.Machine

/-!
# The bump allocation of the emulated pool (`CxlTransport.cpp`)

`CxlTransport::alloc` loads the allocation offset, rounds it up and advances it by a weak compare-and-swap, which may
fail for no reason. The machine interleaves the loads and the swaps of any number of threads; the history has the
blocks that were returned, and the requests that got null with the offset they had observed (`bump_allocation`).
-/

namespace Chime

/-- `define::kRootPointerStoreOffest`. -/
def kRootPointerStoreOffest : Nat := kChunkSize / 2

/-- The size of a pool, whose offsets fit a `GlobalAddress`. -/
structure CxlPool where
  poolSize : Nat
  poolSize_lt : poolSize < 2 ^ 48

/-- Where a thread stands in `alloc`. -/
inductive BumpPc
  | idle
  /-- at the head of the loop -/
  | load (size alignBit : Nat)
  /-- before the compare-and-swap, with `offset`, `aligned` and `next` -/
  | swap (size alignBit offset aligned next : Nat)
  deriving DecidableEq, Repr

structure BumpState where
  allocOffset : Nat
  pc : Nat → BumpPc

/-- The steps of a thread; a swap may fail spuriously. -/
inductive BumpStep
  | call (thread size alignBit : Nat)
  | load (thread : Nat)
  | swap (thread : Nat) (spurious : Bool)
  deriving DecidableEq, Repr

/-- What `alloc` returns. -/
inductive BumpEvent
  | block (b : Block) (alignBit : Nat)
  /-- null, with the offset that was loaded -/
  | null (size alignBit offset : Nat)
  deriving DecidableEq, Repr

namespace CxlPool

variable (P : CxlPool)

/-- The constructor. -/
def init : BumpState := ⟨kChunkSize, fun _ => .idle⟩

/-- `(offset + align - 1) & ~(align - 1)`, in 64 bits. -/
def aligned (offset alignBit : Nat) : Nat := (offset + 2 ^ alignBit - 1) % 2 ^ 64 / 2 ^ alignBit * 2 ^ alignBit

/-- `alloc`, up to its next step. -/
def step (s : BumpState) : BumpStep → Option (BumpState × List BumpEvent)
  | .call t size alignBit =>
    match s.pc t with
    | .idle => some ({ s with pc := Function.update s.pc t (.load size alignBit) }, [])
    | _ => none
  | .load t =>
    match s.pc t with
    | .load size alignBit =>
      let offset := s.allocOffset
      let aligned := aligned offset alignBit
      let next := (aligned + size) % 2 ^ 64
      if next > P.poolSize then
        some ({ s with pc := Function.update s.pc t .idle }, [.null size alignBit offset])
      else some ({ s with pc := Function.update s.pc t (.swap size alignBit offset aligned next) }, [])
    | _ => none
  | .swap t spurious =>
    match s.pc t with
    | .swap size alignBit offset aligned next =>
      if s.allocOffset = offset ∧ ¬spurious then
        some (⟨next, Function.update s.pc t .idle⟩, [.block ⟨DsmAddress.setOffset ⟨0, 0⟩ aligned, size⟩ alignBit])
      else some ({ s with pc := Function.update s.pc t (.load size alignBit) }, [])
    | _ => none

/-- The threads of the process. -/
def machine : Machine BumpState BumpStep BumpEvent := ⟨init, P.step⟩

/-- The sums of a request do not overflow. -/
def NoOverflow (s : BumpState) : BumpStep → Prop
  | .load t => ∀ size alignBit, s.pc t = .load size alignBit →
      s.allocOffset + 2 ^ alignBit ≤ 2 ^ 64 ∧ roundUp s.allocOffset alignBit + size < 2 ^ 64
  | _ => True

/-! ## What is returned -/

/-- The bytes from the first chunk to the end of the pool. -/
def Inside (b : Block) : Prop := kChunkSize ≤ b.addr.offset ∧ b.addr.offset + b.size ≤ P.poolSize

/-- A result is right: a block is aligned and inside of the pool, and null was returned for a request that did not fit
above the offset. -/
def Right : BumpEvent → Prop
  | .block b alignBit => 2 ^ alignBit ∣ b.addr.offset ∧ P.Inside b
  | .null size alignBit offset => P.poolSize < roundUp offset alignBit + size

/-- The blocks that were returned, the last one first. -/
def blocks (h : List BumpEvent) : List Block :=
  h.filterMap fun e =>
    match e with
    | .block b _ => some b
    | .null _ _ _ => none

/-- A thread has computed what it is about to swap. -/
def PcOk : BumpPc → Prop
  | .swap size alignBit offset aligned next =>
    aligned = roundUp offset alignBit ∧ next = aligned + size ∧ next ≤ P.poolSize
  | _ => True

/-- The invariant: the offset is above every block. -/
structure BumpOk (s : BumpState) (h : List BumpEvent) : Prop where
  low : kChunkSize ≤ s.allocOffset
  pc : ∀ t, P.PcOk (s.pc t)
  right : ∀ e ∈ h, P.Right e
  below : ∀ b ∈ blocks h, b.addr.offset + b.size ≤ s.allocOffset
  apart : (blocks h).Pairwise fun b b' => b'.addr.offset + b'.size ≤ b.addr.offset

variable {P} {s s' : BumpState} {h es : List BumpEvent} {a : BumpStep}

theorem aligned_eq {offset alignBit : Nat} (h : offset + 2 ^ alignBit ≤ 2 ^ 64) :
    aligned offset alignBit = roundUp offset alignBit := by
  unfold aligned roundUp
  have hpos : 0 < 2 ^ alignBit := Nat.two_pow_pos alignBit
  rw [Nat.mod_eq_of_lt (by omega)]

theorem PcOk.update {pc : Nat → BumpPc} (hpc : ∀ t, P.PcOk (pc t)) (t : Nat) {x : BumpPc} (hx : P.PcOk x) (t' : Nat) :
    P.PcOk (Function.update pc t x t') := by
  by_cases ht : t' = t
  · subst ht
    rwa [Function.update_self]
  · rw [Function.update_of_ne ht]
    exact hpc t'

/-- A thread goes on, and nothing is returned. -/
theorem BumpOk.goto (hok : P.BumpOk s h) (t : Nat) {x : BumpPc} (hx : P.PcOk x) :
    P.BumpOk { s with pc := Function.update s.pc t x } h :=
  { hok with pc := PcOk.update hok.pc t hx }

/-- Null is returned. -/
theorem BumpOk.null (hok : P.BumpOk s h) (t : Nat) {size alignBit offset : Nat}
    (hnull : P.poolSize < roundUp offset alignBit + size) :
    P.BumpOk { s with pc := Function.update s.pc t .idle } (.null size alignBit offset :: h) where
  low := hok.low
  pc := PcOk.update hok.pc t trivial
  right e he := by
    rcases List.mem_cons.1 he with rfl | he
    · exact hnull
    · exact hok.right e he
  below := hok.below
  apart := hok.apart

/-- **A block is returned**: it begins above the offset, and the offset goes to its end. -/
theorem BumpOk.block (hok : P.BumpOk s h) (t : Nat) {size alignBit aligned next : Nat}
    (hx : P.PcOk (.swap size alignBit s.allocOffset aligned next)) :
    P.BumpOk ⟨next, Function.update s.pc t .idle⟩
      (.block ⟨DsmAddress.setOffset ⟨0, 0⟩ aligned, size⟩ alignBit :: h) := by
  obtain ⟨rfl, rfl, hle⟩ := hx
  have hlow := hok.low
  have hpool := P.poolSize_lt
  have hge : s.allocOffset ≤ roundUp s.allocOffset alignBit := le_roundUp
  have hoff : (DsmAddress.setOffset ⟨0, 0⟩ (roundUp s.allocOffset alignBit)).offset = roundUp s.allocOffset alignBit :=
    DsmAddress.setOffset_offset (by omega)
  have hblocks : blocks (.block ⟨DsmAddress.setOffset ⟨0, 0⟩ (roundUp s.allocOffset alignBit), size⟩ alignBit :: h) =
      ⟨DsmAddress.setOffset ⟨0, 0⟩ (roundUp s.allocOffset alignBit), size⟩ :: blocks h := rfl
  refine ⟨?_, PcOk.update hok.pc t trivial, ?_, ?_, ?_⟩
  · show kChunkSize ≤ roundUp s.allocOffset alignBit + size
    omega
  · intro e he
    rcases List.mem_cons.1 he with rfl | he
    · refine ⟨?_, ?_, ?_⟩
      · show 2 ^ alignBit ∣ (DsmAddress.setOffset ⟨0, 0⟩ _).offset
        rw [hoff]
        exact dvd_roundUp
      · show kChunkSize ≤ (DsmAddress.setOffset ⟨0, 0⟩ _).offset
        omega
      · show (DsmAddress.setOffset ⟨0, 0⟩ _).offset + size ≤ P.poolSize
        omega
    · exact hok.right e he
  · rw [hblocks]
    intro b hb
    rcases List.mem_cons.1 hb with rfl | hb
    · simp only [hoff, le_refl]
    · have := hok.below b hb
      simp only
      omega
  · rw [hblocks]
    refine List.pairwise_cons.2 ⟨fun b hb => ?_, hok.apart⟩
    have := hok.below b hb
    simp only [hoff]
    omega

/-- **A step** keeps the invariant. -/
theorem BumpOk.step (hok : P.BumpOk s h) (hno : NoOverflow s a) (hstep : P.step s a = some (s', es)) :
    P.BumpOk s' (es ++ h) := by
  cases a with
  | call t size alignBit =>
    simp only [CxlPool.step] at hstep
    split at hstep
    · cases hstep
      exact hok.goto t trivial
    · cases hstep
  | load t =>
    simp only [CxlPool.step] at hstep
    split at hstep
    · rename_i size alignBit hpc
      obtain ⟨halign, hsum⟩ := hno size alignBit hpc
      rw [aligned_eq halign, Nat.mod_eq_of_lt hsum] at hstep
      split at hstep
      · rename_i hfull
        cases hstep
        exact hok.null t hfull
      · rename_i hfits
        cases hstep
        exact hok.goto t ⟨rfl, rfl, not_lt.1 hfits⟩
    · cases hstep
  | swap t spurious =>
    simp only [CxlPool.step] at hstep
    split at hstep
    · rename_i size alignBit offset aligned next hpc
      have hx : P.PcOk (.swap size alignBit offset aligned next) := hpc ▸ hok.pc t
      split at hstep
      · rename_i hswap
        cases hstep
        obtain ⟨rfl, -⟩ := hswap
        exact hok.block t hx
      · cases hstep
        exact hok.goto t trivial
    · cases hstep

theorem bumpOk_init (P : CxlPool) : P.BumpOk init [] where
  low := le_rfl
  pc _ := trivial
  right _ he := by cases he
  below _ hb := by cases hb
  apart := .nil

/-- The slot of the root pointer. -/
def rootPointerSlot : Set DsmAddress :=
  {x | x.nodeID = 0 ∧ kRootPointerStoreOffest ≤ x.offset ∧ x.offset < kRootPointerStoreOffest + 8}

theorem Inside.disjoint_rootPointerSlot {b : Block} (hb : P.Inside b) : Disjoint b.bytes rootPointerSlot := by
  refine Set.disjoint_left.2 fun x hx hroot => ?_
  have h₁ := hb.1
  have h₂ := hx.2.1
  have h₃ := hroot.2.2
  simp only [kRootPointerStoreOffest, kChunkSize_eq] at h₁ h₃
  omega

/-- Null comes with the offset of the step. -/
theorem offset_of_null (hstep : P.step s a = some (s', es)) {size alignBit offset : Nat}
    (hn : .null size alignBit offset ∈ es) : offset = s.allocOffset := by
  cases a with
  | call t size alignBit =>
    simp only [CxlPool.step] at hstep
    split at hstep
    · cases hstep
      cases hn
    · cases hstep
  | load t =>
    simp only [CxlPool.step] at hstep
    split at hstep
    · split at hstep
      · cases hstep
        cases List.mem_singleton.1 hn
        rfl
      · cases hstep
        cases hn
    · cases hstep
  | swap t spurious =>
    simp only [CxlPool.step] at hstep
    split at hstep
    · split at hstep
      · cases hstep
        cases List.mem_singleton.1 hn
      · cases hstep
        cases hn
    · cases hstep

/-- **Bump allocation.** In every run without overflows, every block that was returned is not null, is aligned, lies
between the first chunk and the end of the pool and off the slot of the root pointer, any two blocks are disjoint, and
null was returned only for requests that did not fit above the offset that was observed, the one of that step. -/
theorem bump_allocation (hrun : P.machine.Run NoOverflow s h) :
    (∀ b alignBit, .block b alignBit ∈ h → b.addr ≠ .null ∧ 2 ^ alignBit ∣ b.addr.offset ∧ P.Inside b ∧
      Disjoint b.bytes rootPointerSlot) ∧
    (blocks h).Pairwise (fun b b' => Disjoint b.bytes b'.bytes) ∧
    (∀ size alignBit offset, .null size alignBit offset ∈ h → P.poolSize < roundUp offset alignBit + size) ∧
    ∀ a s' es, P.step s a = some (s', es) → ∀ size alignBit offset, .null size alignBit offset ∈ es →
      offset = s.allocOffset := by
  have hok : P.BumpOk s h :=
    hrun.invariant (I := fun s h => P.BumpOk s h) (bumpOk_init P) fun _ hok hno hstep => hok.step hno hstep
  refine ⟨fun b alignBit hb => ?_, hok.apart.imp ?_, fun size alignBit offset hn => hok.right _ hn, ?_⟩
  · obtain ⟨hdvd, hin⟩ := hok.right _ hb
    refine ⟨?_, hdvd, hin, hin.disjoint_rootPointerSlot⟩
    intro hnull
    have := hin.1
    rw [hnull, kChunkSize_eq] at this
    simp [DsmAddress.null] at this
  · intro b b' hbb
    refine Set.disjoint_left.2 fun x hx hx' => ?_
    have := hx.2.1
    have := hx'.2.2
    omega
  · exact fun a s' es hstep size alignBit offset hn => offset_of_null hstep hn

/-- A pool of two chunks. -/
def twoChunks : CxlPool := ⟨2 * kChunkSize, by decide⟩

/-- Two threads, of which the second one loads the offset before the first one swaps, and has to begin again; a third
request does not fit. -/
def twoThreads : List BumpStep :=
  [.call 1 100 6, .call 2 64 6, .load 1, .load 2, .swap 1 false, .swap 2 false, .load 2, .swap 2 true, .load 2,
    .swap 2 false,
    .call 1 kChunkSize 6, .load 1]

/-- `NoOverflow`, computed. -/
def sumsFit (s : BumpState) : BumpStep → Bool
  | .load t =>
    match s.pc t with
    | .load size alignBit => s.allocOffset + 2 ^ alignBit ≤ 2 ^ 64 ∧ roundUp s.allocOffset alignBit + size < 2 ^ 64
    | _ => true
  | _ => true

theorem noOverflow_of_sumsFit (h : sumsFit s a = true) : NoOverflow s a := by
  cases a with
  | load t =>
    intro size alignBit hpc
    simpa [sumsFit, hpc] using h
  | call t size alignBit => trivial
  | swap t spurious => trivial

/-- The blocks of the two threads. -/
theorem bump_allocation_two : ∃ s h, twoChunks.machine.Run NoOverflow s h ∧
    h = [.null kChunkSize 6 (kChunkSize + 192), .block ⟨⟨0, kChunkSize + 128⟩, 64⟩ 6, .block ⟨⟨0, kChunkSize⟩, 100⟩ 6] ∧
    (blocks h).Pairwise (fun b b' => Disjoint b.bytes b'.bytes) := by
  have hexec : ∃ s h, twoChunks.machine.exec sumsFit init [] twoThreads = some (s, h) ∧
      h = [.null kChunkSize 6 (kChunkSize + 192), .block ⟨⟨0, kChunkSize + 128⟩, 64⟩ 6,
        .block ⟨⟨0, kChunkSize⟩, 100⟩ 6] := by
    refine ⟨_, _, rfl, by decide +kernel⟩
  obtain ⟨s, h, hexec, hh⟩ := hexec
  have hrun : twoChunks.machine.Run NoOverflow s h :=
    Machine.Run.of_exec (I := fun _ => True) (fun _ hg => noOverflow_of_sumsFit hg)
      (fun _ _ _ => trivial) trivial .init hexec
  exact ⟨s, h, hrun, hh, (bump_allocation hrun).2.1⟩

end CxlPool

end Chime

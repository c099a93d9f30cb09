import Chime.Lib.FieldAdd
import Chime.Transport

/-!
# The boundary fetch-and-add of the two backends (`Operation.cpp`, `DSM.cpp`, `CxlTransport.cpp`)

`DSM` takes the boundary argument for the position of a bit, over which the masked atomic lets no carry; the word
before the addition comes back. `CxlTransport` adds the whole words and takes the argument for a mask of the word that
comes back. `faa_boundary_agree` says for which words and arguments both have the same effect.
-/

namespace Chime

open Memory

/-! ## `DSM` -/

/-- A posted `IBV_EXP_WR_EXT_MASKED_ATOMIC_FETCH_AND_ADD`. -/
structure MaskedFetchAdd where
  source : Nat
  remoteAddr : Nat
  rkey : RKey
  addVal : UInt64
  fieldBoundary : UInt64
  deriving DecidableEq, Repr

/-- The masked atomic adds in the fields that end at the boundary bits, and leaves the old word in the source buffer. -/
def MaskedFetchAdd.execute (wr : MaskedFetchAdd) (s : RdmaState) : RdmaState :=
  let m := s.remote wr.rkey
  let old := word m wr.remoteAddr
  let sum := FieldAdd.fieldAdd wr.fieldBoundary.toBitVec old.toBitVec wr.addVal.toBitVec
  ⟨Function.update s.remote wr.rkey (setWord m wr.remoteAddr ⟨sum⟩), setWord s.buffer wr.source old⟩

/-- `rdmaFetchAndAddBoundary`; `1ull << boundary` is defined for a boundary below 64. -/
def rdmaFetchAndAddBoundary (source dest : Nat) (add : UInt64) (remoteRKey : RKey) (boundary : Nat) :
    RdmaState → RdmaState :=
  MaskedFetchAdd.execute ⟨source, dest, remoteRKey, add, 1 <<< UInt64.ofNat boundary⟩

namespace Dsm

variable (remoteInfo : Nat → RemoteConnection) (gaddr : Nat) (addVal : UInt64) (rdmaBuffer mask : Nat)

/-- The addresses of the pool and of the on-chip memory of a node. -/
def poolAddr : Nat := (remoteInfo (packedNodeID gaddr)).dsmBase + packedOffset gaddr

def lockAddr : Nat := (remoteInfo (packedNodeID gaddr)).lockBase + packedOffset gaddr

/-- `faa_boundary_sync`. -/
def faaBoundarySync : RdmaState → RdmaState :=
  rdmaFetchAndAddBoundary rdmaBuffer (poolAddr remoteInfo gaddr) addVal ⟨packedNodeID gaddr, false⟩ mask

/-- `faa_dm_boundary_sync`. -/
def faaDmBoundarySync : RdmaState → RdmaState :=
  rdmaFetchAndAddBoundary rdmaBuffer (lockAddr remoteInfo gaddr) addVal ⟨packedNodeID gaddr, true⟩ mask

end Dsm

/-! ## `CxlTransport` -/

namespace CxlTransport

variable (gaddr : Nat) (addVal : UInt64) (rdmaBuffer mask : Nat) (s : CxlState)

/-- `faa_boundary_sync(gaddr, add_val, rdma_buffer, mask)`: the result goes to the buffer. -/
def faaBoundaryToBuffer (baseAddr : Nat) : CxlState :=
  let (s, result) := faaBoundarySync baseAddr gaddr s addVal (.ofNat mask)
  { s with buffer := setWord s.buffer rdmaBuffer result }

/-- `faa_dm_boundary_sync`: the same, on the lock region. -/
def faaDmBoundaryToBuffer (lockAddr : Nat) : CxlState := faaBoundaryToBuffer gaddr addVal rdmaBuffer mask s lockAddr

end CxlTransport

/-! ## Agreement -/

/-- The same word in memory, and the same result in the buffer. -/
def FaaAgree (s : RdmaState) (rkey : RKey) (addr : Nat) (t : CxlState) (cxlAddr rdmaBuffer : Nat) : Prop :=
  word (s.remote rkey) addr = word t.memory cxlAddr ∧ word s.buffer rdmaBuffer = word t.buffer rdmaBuffer

/-- There is no carry over the boundary bit, and the word has no bit besides those of the number `mask`. -/
def FaaAgreesWhen (old addVal : UInt64) (mask : Nat) : Prop :=
  (mask = 63 ∨ old.toNat % 2 ^ (mask + 1) + addVal.toNat % 2 ^ (mask + 1) < 2 ^ (mask + 1)) ∧ old &&& .ofNat mask = old

instance (old addVal : UInt64) (mask : Nat) : Decidable (FaaAgreesWhen old addVal mask) :=
  inferInstanceAs (Decidable (_ ∧ _))

variable {source dest mask baseAddr gaddr : Nat} {addVal old : UInt64} {rkey : RKey} {s : RdmaState} {t : CxlState}

theorem toBitVec_one_shiftLeft (h : mask < 64) :
    (1 <<< UInt64.ofNat mask : UInt64).toBitVec = BitVec.twoPow 64 mask := by
  rw [UInt64.toBitVec_shiftLeft]
  apply BitVec.eq_of_toNat_eq
  simp [BitVec.toNat_twoPow, Nat.mod_eq_of_lt h, Nat.shiftLeft_eq]

/-- **The masked atomic** adds the words if there is no carry over the boundary. -/
theorem word_rdmaFetchAndAddBoundary (h : mask < 64) (hold : word (s.remote rkey) dest = old) :
    word ((rdmaFetchAndAddBoundary source dest addVal rkey mask s).remote rkey) dest = old + addVal ↔
      mask = 63 ∨ old.toNat % 2 ^ (mask + 1) + addVal.toNat % 2 ^ (mask + 1) < 2 ^ (mask + 1) := by
  subst hold
  simp only [rdmaFetchAndAddBoundary, MaskedFetchAdd.execute, Function.update_self, word_setWord]
  rw [← UInt64.toBitVec_inj, toBitVec_one_shiftLeft h, UInt64.toBitVec_add, FieldAdd.fieldAdd_twoPow_eq_add_iff]
  simp only [BitVec.carry, Bool.toNat_false, Nat.add_zero, decide_eq_false_iff_not, UInt64.toNat_toBitVec]
  omega

/-- The original word comes back. -/
theorem buffer_rdmaFetchAndAddBoundary (hold : word (s.remote rkey) dest = old) :
    word (rdmaFetchAndAddBoundary source dest addVal rkey mask s).buffer source = old := by
  subst hold
  simp only [rdmaFetchAndAddBoundary, MaskedFetchAdd.execute, word_setWord]

/-- **One region**: the backends agree on it exactly if there is no carry over the boundary and no bit is masked
away. -/
theorem faaAgree_iff (h : mask < 64) (hold : word (s.remote rkey) dest = old)
    (hcxl : word t.memory (CxlTransport.resolve baseAddr gaddr) = old) :
    FaaAgree (rdmaFetchAndAddBoundary source dest addVal rkey mask s) rkey dest
      (CxlTransport.faaBoundaryToBuffer gaddr addVal source mask t baseAddr)
      (CxlTransport.resolve baseAddr gaddr) source ↔
      FaaAgreesWhen old addVal mask := by
  unfold FaaAgree FaaAgreesWhen
  rw [buffer_rdmaFetchAndAddBoundary hold]
  simp only [CxlTransport.faaBoundaryToBuffer, CxlTransport.faaBoundarySync, word_setWord, hcxl]
  rw [word_rdmaFetchAndAddBoundary h hold, eq_comm (a := old)]

/-- **Boundary fetch-and-add.** Over equal words, the two backends leave the same word and the same result, in the pool
and in the lock region, exactly if the addition has no carry over the boundary bit and the word has no bit besides
those of the boundary argument. -/
theorem faa_boundary_agree (remoteInfo : Nat → Dsm.RemoteConnection) (baseAddr lockAddr gaddr rdmaBuffer : Nat)
    (addVal pool lock : UInt64) (mask : Nat) (hmask : mask < 64) (s : RdmaState) (t : CxlState)
    (hpool : word (s.remote ⟨packedNodeID gaddr, false⟩) (Dsm.poolAddr remoteInfo gaddr) = pool)
    (hpool' : word t.memory (CxlTransport.resolve baseAddr gaddr) = pool)
    (hlock : word (s.remote ⟨packedNodeID gaddr, true⟩) (Dsm.lockAddr remoteInfo gaddr) = lock)
    (hlock' : word t.memory (CxlTransport.resolve lockAddr gaddr) = lock) :
    (FaaAgree (Dsm.faaBoundarySync remoteInfo gaddr addVal rdmaBuffer mask s) ⟨packedNodeID gaddr, false⟩
        (Dsm.poolAddr remoteInfo gaddr) (CxlTransport.faaBoundaryToBuffer gaddr addVal rdmaBuffer mask t baseAddr)
        (CxlTransport.resolve baseAddr gaddr) rdmaBuffer ↔ FaaAgreesWhen pool addVal mask) ∧
      (FaaAgree (Dsm.faaDmBoundarySync remoteInfo gaddr addVal rdmaBuffer mask s) ⟨packedNodeID gaddr, true⟩
        (Dsm.lockAddr remoteInfo gaddr) (CxlTransport.faaDmBoundaryToBuffer gaddr addVal rdmaBuffer mask t lockAddr)
        (CxlTransport.resolve lockAddr gaddr) rdmaBuffer ↔ FaaAgreesWhen lock addVal mask) :=
  ⟨faaAgree_iff hmask hpool hpool', faaAgree_iff hmask hlock hlock'⟩

/-! ## A word of the pool -/

/-- The cluster of one node with this word in its pool and in its on-chip memory. -/
def oneWord (w : UInt64) : RdmaState := ⟨fun _ => setWord (fun _ => 0) 0 w, fun _ => 0⟩

/-- The emulated pool with this word, and the lock region after it. -/
def oneWordCxl (w : UInt64) : CxlState := ⟨setWord (setWord (fun _ => 0) 0 w) 64 w, fun _ => 0⟩

/-- An addition to a word of few bits, with the default argument. -/
theorem faa_boundary_agree_small :
    FaaAgree (Dsm.faaBoundarySync (fun _ => ⟨0, 0⟩) 0 3 0 63 (oneWord 5)) ⟨0, false⟩ 0
      (CxlTransport.faaBoundaryToBuffer 0 3 0 63 (oneWordCxl 5) 0) 0 0 :=
  (faa_boundary_agree (fun _ => ⟨0, 0⟩) 0 64 0 0 3 5 5 63 (by decide) (oneWord 5) (oneWordCxl 5) (by decide) (by decide)
    (by decide) (by decide)).1.2 (by decide)

/-- **The results differ** with the default argument, as soon as the word has a bit beyond the first six; with a smaller
boundary, a carry makes the words in memory differ as well. -/
theorem not_faa_boundary_agree :
    (word (Dsm.faaBoundarySync (fun _ => ⟨0, 0⟩) 0 1 0 63 (oneWord 64)).buffer 0 = 64 ∧
      word (CxlTransport.faaBoundaryToBuffer 0 1 0 63 (oneWordCxl 64) 0).buffer 0 = 0) ∧
    word ((Dsm.faaDmBoundarySync (fun _ => ⟨0, 0⟩) 0 1 0 5 (oneWord 63)).remote ⟨0, true⟩) 0 = 0 ∧
      word (CxlTransport.faaDmBoundaryToBuffer 0 1 0 5 (oneWordCxl 63) 64).memory 64 = 64 := by
  decide +kernel

end Chime

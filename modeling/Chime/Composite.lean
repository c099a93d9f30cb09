import Chime.Transport

/-!
# The composite operations of the two backends agree

A backend's composite operation is two accesses to the pool of a node (`Access`), on the pool from its base on and the
local memory (`PoolView`). `agree_iff` says for which regions and contents the operation of `CxlDSM` has the effects
and the result of the operation of `DSM`: always for `write_cas` and `cas_write`; for the others `AgreesWhen` is the
exact condition.
-/

namespace Chime

open Memory

/-! ## Accesses -/

/-- The pool, by offsets, and the local memory. -/
structure PoolView where
  pool : Nat → UInt8
  buffer : Nat → UInt8

/-- An access to the pool at an offset. -/
inductive Access
  | read (source size offset : Nat)
  | write (source size offset : Nat)
  | cas (source offset : Nat) (equal val : UInt64)
  | faa (source offset : Nat) (addVal : UInt64)

def Access.run (v : PoolView) : Access → PoolView
  | read source size offset => { v with buffer := copy v.buffer source v.pool offset size }
  | write source size offset => { v with pool := copy v.pool offset v.buffer source size }
  | cas source offset equal val =>
    ⟨compareSwap v.pool offset equal val, setWord v.buffer source (word v.pool offset)⟩
  | faa source offset addVal =>
    ⟨setWord v.pool offset (word v.pool offset + addVal), setWord v.buffer source (word v.pool offset)⟩

/-- The pool of a node in the RDMA cluster. -/
def RdmaState.view (s : RdmaState) (remoteInfo : Nat → Dsm.RemoteConnection) (node : Nat) : PoolView :=
  ⟨Memory.view (s.remote ⟨node, false⟩) (remoteInfo node).dsmBase, s.buffer⟩

theorem RdmaState.view_buffer {s : RdmaState} {remoteInfo : Nat → Dsm.RemoteConnection} {node : Nat} :
    (s.view remoteInfo node).buffer = s.buffer := rfl

/-- The pool at `base_addr_`. -/
def CxlState.view (s : CxlState) (baseAddr : Nat) : PoolView := ⟨Memory.view s.memory baseAddr, s.buffer⟩

/-- The access that a verb makes to the pool of a node. -/
def Opcode.access (source length offset : Nat) : Opcode → Access
  | read => .read source length offset
  | write => .write source length offset
  | cmpAndSwp compare swap => .cas source offset compare swap
  | fetchAndAdd add => .faa source offset add

section Dsm

variable {remoteInfo : Nat → Dsm.RemoteConnection} {node : Nat} {s : RdmaState} {wr : WorkRequest} {off : Nat}

/-- **A verb** on the pool of a node. -/
theorem view_execute (hkey : wr.rkey = ⟨node, false⟩) (haddr : wr.remoteAddr = (remoteInfo node).dsmBase + off) :
    (wr.execute s).view remoteInfo node = (wr.opcode.access wr.source wr.length off).run (s.view remoteInfo node) := by
  obtain ⟨opcode, source, length, remoteAddr, rkey⟩ := wr
  obtain rfl := hkey
  obtain rfl := haddr
  cases opcode with
  | read => simp [WorkRequest.execute, Opcode.access, Access.run, RdmaState.view]
  | write => simp [WorkRequest.execute, Opcode.access, Access.run, RdmaState.view, view_copy]
  | cmpAndSwp compare swap =>
    simp [WorkRequest.execute, Opcode.access, Access.run, RdmaState.view, view_compareSwap]
  | fetchAndAdd add => simp [WorkRequest.execute, Opcode.access, Access.run, RdmaState.view, view_setWord]

/-- Two verbs that are posted together. -/
theorem view_ibvPostSend (wr wr' : WorkRequest) {off off' : Nat} (hkey : wr.rkey = ⟨node, false⟩)
    (haddr : wr.remoteAddr = (remoteInfo node).dsmBase + off) (hkey' : wr'.rkey = ⟨node, false⟩)
    (haddr' : wr'.remoteAddr = (remoteInfo node).dsmBase + off') :
    (ibvPostSend [wr, wr'] s).view remoteInfo node = (wr'.opcode.access wr'.source wr'.length off').run
      ((wr.opcode.access wr.source wr.length off).run (s.view remoteInfo node)) := by
  rw [ibvPostSend, List.foldl_cons, List.foldl_cons, List.foldl_nil, view_execute hkey' haddr', view_execute hkey haddr]

theorem fillKeysDest_pool (remoteInfo : Nat → Dsm.RemoteConnection) {ror : RdmaOpRegion} (h : ror.isOnChip = false) :
    (Dsm.fillKeysDest remoteInfo ror).remoteRKey = ⟨packedNodeID ror.dest, false⟩ ∧
      (Dsm.fillKeysDest remoteInfo ror).dest = (remoteInfo (packedNodeID ror.dest)).dsmBase + packedOffset ror.dest ∧
      (Dsm.fillKeysDest remoteInfo ror).source = ror.source ∧ (Dsm.fillKeysDest remoteInfo ror).size = ror.size := by
  simp [Dsm.fillKeysDest, h]

end Dsm

section Cxl

open CxlTransport

variable {baseAddr gaddr buffer size : Nat} {s : CxlState} {ror : RdmaOpRegion} {equal val addVal : UInt64}

theorem view_readSync : (readSync baseAddr gaddr s buffer size).view baseAddr =
    (Access.read buffer size (packedOffset gaddr)).run (s.view baseAddr) := by
  simp [readSync, resolve, CxlState.view, Access.run]

theorem view_writeSync : (writeSync baseAddr gaddr s buffer size).view baseAddr =
    (Access.write buffer size (packedOffset gaddr)).run (s.view baseAddr) := by
  simp [writeSync, resolve, CxlState.view, Access.run, view_copy]

theorem word_pool : word (s.view baseAddr).pool (packedOffset gaddr) = word s.memory (resolve baseAddr gaddr) :=
  word_view

theorem casSync_ok : (casSync baseAddr gaddr s equal val).2.2 =
    decide (word (s.view baseAddr).pool (packedOffset gaddr) = equal) := by
  rw [word_pool]
  simp only [casSync]

/-- The compare-and-swap, with the result put into the source buffer. -/
theorem view_casSync : (CxlDsm.putResult ror (casSync baseAddr gaddr s equal val).2.1
    (casSync baseAddr gaddr s equal val).1).view baseAddr =
    (Access.cas ror.source (packedOffset gaddr) equal val).run (s.view baseAddr) := by
  simp [casSync, CxlDsm.putResult, resolve, CxlState.view, Access.run, view_compareSwap]

/-- The fetch-and-add, with the masked result put into the source buffer. -/
theorem view_faaBoundarySync : (CxlDsm.putResult ror (faaBoundarySync baseAddr gaddr s addVal 63).2
    (faaBoundarySync baseAddr gaddr s addVal 63).1).view baseAddr =
    ⟨((Access.faa ror.source (packedOffset gaddr) addVal).run (s.view baseAddr)).pool,
      setWord s.buffer ror.source (word (s.view baseAddr).pool (packedOffset gaddr) &&& 63)⟩ := by
  simp [faaBoundarySync, resolve, CxlState.view, Access.run, CxlDsm.putResult, view_setWord]

end Cxl

/-! ## Agreement -/

/-- The composite operations; the first region is the one of the first access. -/
inductive Composite
  | writeCas
  | casRead
  | readCas
  | casWrite
  | writeFaa
  deriving DecidableEq, Repr

namespace Composite

variable (op : Composite) (remoteInfo : Nat → Dsm.RemoteConnection) (baseAddr : Nat) (r₁ r₂ : RdmaOpRegion)
  (equal val addVal : UInt64)

/-- The operation of `DSM`. -/
def dsm (s : RdmaState) : RdmaState × Option Bool :=
  match op with
  | writeCas => Dsm.writeCasSync remoteInfo r₁ r₂ equal val s
  | casRead => Dsm.casReadSync remoteInfo r₁ r₂ equal val s
  | readCas => Dsm.readCasSync remoteInfo r₁ r₂ equal val s
  | casWrite => Dsm.casWriteSync remoteInfo r₁ r₂ equal val s
  | writeFaa => Dsm.writeFaaSync remoteInfo r₁ r₂ addVal s

/-- The operation of `CxlDSM`. -/
def cxl (s : CxlState) : CxlState × Option Bool :=
  match op with
  | writeCas => CxlDsm.writeCasSync baseAddr r₁ r₂ equal val s
  | casRead => CxlDsm.casReadSync baseAddr r₁ r₂ equal val s
  | readCas => CxlDsm.readCasSync baseAddr r₁ r₂ equal val s
  | casWrite => CxlDsm.casWriteSync baseAddr r₁ r₂ equal val s
  | writeFaa => CxlDsm.writeFaaSync baseAddr r₁ r₂ addVal s

/-- The two backends leave the same pool and the same buffers, and return the same. -/
def Agree (s : RdmaState) (t : CxlState) : Prop :=
  (op.dsm remoteInfo r₁ r₂ equal val addVal s).1.view remoteInfo (packedNodeID r₁.dest) =
      (op.cxl baseAddr r₁ r₂ equal val addVal t).1.view baseAddr ∧
    (op.dsm remoteInfo r₁ r₂ equal val addVal s).2 = (op.cxl baseAddr r₁ r₂ equal val addVal t).2

/-- Byte `i` at the first region's source after the old word and then the bytes of the second region are put into the
local memory: a byte that is read, if one lands there, and else one of the old word. -/
def overlaid (v : PoolView) (i : Nat) : UInt8 :=
  if r₂.source ≤ r₁.source + i ∧ r₁.source + i < r₂.source + r₂.size then
    compareSwap v.pool (packedOffset r₁.dest) equal val (packedOffset r₂.dest + (r₁.source + i - r₂.source))
  else v.pool (packedOffset r₁.dest + i)

/-- When the two backends agree. -/
def AgreesWhen (v : PoolView) : Prop :=
  match op with
  | writeCas | casWrite => True
  -- the bytes read that land on the result do not change the outcome of the comparison
  | casRead => (∀ i < 8, overlaid r₁ r₂ equal val v i = .ofNat (equal.toNat / 256 ^ i)) ↔
      word v.pool (packedOffset r₁.dest) = equal
  -- the two regions have the same place, or the same content that is not swapped
  | readCas => packedOffset r₁.dest = packedOffset r₂.dest ∨
      word v.pool (packedOffset r₁.dest) = word v.pool (packedOffset r₂.dest) ∧
      (word v.pool (packedOffset r₂.dest) = equal → val = equal) ∧
      ∀ i < r₁.size, ¬(r₂.source ≤ r₁.source + i ∧ r₁.source + i < r₂.source + 8) →
        v.pool (packedOffset r₁.dest + i) = v.pool (packedOffset r₂.dest + i)
  -- the old value fits into the mask
  | writeFaa => word (copy v.pool (packedOffset r₁.dest) v.buffer r₁.source r₁.size) (packedOffset r₂.dest) < 64

/-- A read elsewhere than at the result does not change the comparison. -/
theorem agreesWhen_casRead {v : PoolView} (h : r₁.source + 8 ≤ r₂.source ∨ r₂.source + r₂.size ≤ r₁.source) :
    casRead.AgreesWhen r₁ r₂ equal val v := by
  rw [AgreesWhen, word_eq_iff_bytes]
  refine forall₂_congr fun i hi => ?_
  rw [overlaid, if_neg (by omega)]

/-- The word that is compared. -/
theorem word_overlaid {v : PoolView} : word ((Access.read r₂.source r₂.size (packedOffset r₂.dest)).run
      ((Access.cas r₁.source (packedOffset r₁.dest) equal val).run v)).buffer r₁.source = equal ↔
    ∀ i < 8, overlaid r₁ r₂ equal val v i = .ofNat (equal.toNat / 256 ^ i) := by
  rw [word_eq_iff_bytes]
  refine forall₂_congr fun i hi => ?_
  simp only [Access.run, overlaid]
  split
  · rename_i hin
    rw [copy_apply hin]
  · rename_i hout
    rw [copy_of_not hout, setWord_apply (by omega), Nat.add_sub_cancel_left, word_byte hi]

variable {op remoteInfo baseAddr r₁ r₂ equal val addVal} {s : RdmaState} {t : CxlState} {v : PoolView}

theorem eq_and_63_iff {w : UInt64} : w = w &&& 63 ↔ w < 64 := by
  rw [← UInt64.toNat_inj, UInt64.toNat_and, UInt64.lt_iff_toNat_lt]
  have h : w.toNat &&& 63 = w.toNat % 64 := Nat.and_two_pow_sub_one_eq_mod _ 6
  have h63 : (63 : UInt64).toNat = 63 := rfl
  have h64 : (64 : UInt64).toNat = 64 := rfl
  rw [h63, h64, h]
  omega

/-- A read and a compare-and-swap that have each other's place do the same as those that have their own. -/
theorem swapped_iff {source source' n R C : Nat} :
    (Access.cas source' R equal val).run ((Access.read source n C).run v) =
        (Access.cas source' C equal val).run ((Access.read source n R).run v) ↔
      R = C ∨ word v.pool R = word v.pool C ∧ (word v.pool C = equal → val = equal) ∧
        ∀ i < n, ¬(source' ≤ source + i ∧ source + i < source' + 8) → v.pool (R + i) = v.pool (C + i) := by
  simp only [Access.run, PoolView.mk.injEq]
  constructor
  · rintro ⟨hpool, hbuf⟩
    refine or_iff_not_imp_left.2 fun hne => ?_
    have hword : word v.pool R = word v.pool C := by
      rw [← word_setWord (m := copy v.buffer source v.pool C n) (a := source') (w := word v.pool R), hbuf, word_setWord]
    refine ⟨hword, fun heq => ?_, fun i hi hout => ?_⟩
    · rw [compareSwap_of_eq (hword.trans heq), compareSwap_of_eq heq] at hpool
      exact (setWord_inj (hword.trans heq) heq hpool).resolve_left hne
    · have hx := congrFun hbuf (source + i)
      rw [setWord_of_not hout, setWord_of_not hout, copy_apply (by omega), copy_apply (by omega),
        Nat.add_sub_cancel_left] at hx
      exact hx.symm
  · rintro (rfl | ⟨hword, hval, hbytes⟩)
    · exact ⟨rfl, rfl⟩
    · refine ⟨?_, funext fun x => ?_⟩
      · by_cases heq : word v.pool C = equal
        · obtain rfl := hval heq
          rw [compareSwap_of_eq heq, compareSwap_of_eq (hword.trans heq), ← heq, setWord_word, ← hword, setWord_word]
        · rw [compareSwap_of_ne heq, compareSwap_of_ne fun he => heq (hword.symm.trans he)]
      · by_cases hin : source' ≤ x ∧ x < source' + 8
        · rw [setWord_apply hin, setWord_apply hin, hword]
        · rw [setWord_of_not hin, setWord_of_not hin]
          by_cases hx : source ≤ x ∧ x < source + n
          · rw [copy_apply hx, copy_apply hx]
            exact (hbytes (x - source) (by omega) (by rwa [Nat.add_sub_cancel' hx.1])).symm
          · rw [copy_of_not hx, copy_of_not hx]

/-! ### The operations of `DSM`, by accesses -/

section

variable (h₁ : r₁.isOnChip = false) (h₂ : r₂.isOnChip = false) (hnode : packedNodeID r₁.dest = packedNodeID r₂.dest)

include h₁ h₂ hnode

/-- Two verbs that are posted for the two regions, each with its own address. -/
theorem view_post (remoteInfo : Nat → Dsm.RemoteConnection) (s : RdmaState) (o₁ o₂ : Opcode) (n₁ n₂ : Nat) :
    (ibvPostSend [⟨o₁, r₁.source, n₁, (Dsm.fillKeysDest remoteInfo r₁).dest, (Dsm.fillKeysDest remoteInfo r₁).remoteRKey⟩,
      ⟨o₂, r₂.source, n₂, (Dsm.fillKeysDest remoteInfo r₂).dest, (Dsm.fillKeysDest remoteInfo r₂).remoteRKey⟩]
      s).view remoteInfo (packedNodeID r₁.dest) =
    (o₂.access r₂.source n₂ (packedOffset r₂.dest)).run
      ((o₁.access r₁.source n₁ (packedOffset r₁.dest)).run (s.view remoteInfo (packedNodeID r₁.dest))) := by
  obtain ⟨hk₁, hd₁, -, -⟩ := fillKeysDest_pool remoteInfo h₁
  obtain ⟨hk₂, hd₂, -, -⟩ := fillKeysDest_pool remoteInfo h₂
  rw [← hnode] at hk₂ hd₂
  exact view_ibvPostSend _ _ hk₁ hd₁ hk₂ hd₂

/-! ### The operations one by one -/

variable (hv : s.view remoteInfo (packedNodeID r₁.dest) = t.view baseAddr)

include hv

theorem agree_writeCas : writeCas.Agree remoteInfo baseAddr r₁ r₂ equal val addVal s t := by
  obtain ⟨-, -, hs₁, hn₁⟩ := fillKeysDest_pool remoteInfo h₁
  obtain ⟨-, -, hs₂, -⟩ := fillKeysDest_pool remoteInfo h₂
  refine ⟨?_, rfl⟩
  simp only [dsm, cxl, Dsm.writeCasSync, rdmaWriteCas, CxlDsm.writeCasSync, view_casSync, view_writeSync, hs₁, hs₂, hn₁]
  rw [view_post h₁ h₂ hnode, hv]
  rfl

theorem agree_casWrite : casWrite.Agree remoteInfo baseAddr r₁ r₂ equal val addVal s t := by
  obtain ⟨-, -, hs₁, -⟩ := fillKeysDest_pool remoteInfo h₁
  obtain ⟨-, -, hs₂, hn₂⟩ := fillKeysDest_pool remoteInfo h₂
  have hview := view_post h₁ h₂ hnode remoteInfo s (.cmpAndSwp equal val) .write 8 r₂.size
  have hbuf := congrArg PoolView.buffer hview
  rw [RdmaState.view_buffer] at hbuf
  simp only [Agree, dsm, cxl, Dsm.casWriteSync, if_pos hnode, rdmaCasWrite, CxlDsm.casWriteSync, view_writeSync,
    view_casSync, hs₁, hs₂, hn₂]
  refine ⟨by rw [hview, hv]; rfl, ?_⟩
  refine congrArg some (Eq.trans ?_ (show (CxlTransport.casSync baseAddr r₁.dest t equal val).2.2 = _ from casSync_ok).symm)
  rw [hbuf, hv]
  simp [Opcode.access, Access.run, eq_comm]

theorem agree_casRead : casRead.Agree remoteInfo baseAddr r₁ r₂ equal val addVal s t ↔
    casRead.AgreesWhen r₁ r₂ equal val (t.view baseAddr) := by
  obtain ⟨-, -, hs₁, -⟩ := fillKeysDest_pool remoteInfo h₁
  obtain ⟨-, -, hs₂, hn₂⟩ := fillKeysDest_pool remoteInfo h₂
  have hview := view_post h₁ h₂ hnode remoteInfo s (.cmpAndSwp equal val) .read 8 r₂.size
  have hbuf := congrArg PoolView.buffer hview
  rw [RdmaState.view_buffer] at hbuf
  simp only [Agree, dsm, cxl, Dsm.casReadSync, rdmaCasRead, CxlDsm.casReadSync, view_readSync, view_casSync, hs₁,
    hs₂, hn₂]
  rw [hbuf, hview, hv]
  refine (and_iff_right rfl).trans (Option.some_inj.trans ?_)
  rw [show (CxlTransport.casSync baseAddr r₁.dest t equal val).2.2 = _ from casSync_ok, decide_eq_decide,
    eq_comm (a := equal)]
  exact iff_congr (word_overlaid r₁ r₂ equal val) Iff.rfl

theorem agree_writeFaa : writeFaa.Agree remoteInfo baseAddr r₁ r₂ equal val addVal s t ↔
    writeFaa.AgreesWhen r₁ r₂ equal val (t.view baseAddr) := by
  obtain ⟨-, -, hs₁, hn₁⟩ := fillKeysDest_pool remoteInfo h₁
  obtain ⟨-, -, hs₂, -⟩ := fillKeysDest_pool remoteInfo h₂
  have hview := view_post h₁ h₂ hnode remoteInfo s .write (.fetchAndAdd addVal) r₁.size 8
  simp only [Agree, dsm, cxl, Dsm.writeFaaSync, rdmaWriteFaa, CxlDsm.writeFaaSync, view_faaBoundarySync, view_writeSync,
    hs₁, hs₂, hn₁]
  rw [hview, hv]
  simp only [Opcode.access, Access.run, PoolView.mk.injEq, true_and, and_true]
  refine (setWord_eq_iff (m := (t.view baseAddr).buffer)).trans ?_
  exact eq_and_63_iff

theorem agree_readCas : readCas.Agree remoteInfo baseAddr r₁ r₂ equal val addVal s t ↔
    readCas.AgreesWhen r₁ r₂ equal val (t.view baseAddr) := by
  obtain ⟨hk₁, hd₁, hs₁, hn₁⟩ := fillKeysDest_pool remoteInfo h₁
  obtain ⟨hk₂, hd₂, hs₂, -⟩ := fillKeysDest_pool remoteInfo h₂
  rw [← hnode] at hk₂ hd₂
  have hview := view_ibvPostSend (s := s)
    ⟨.read, r₁.source, r₁.size, (Dsm.fillKeysDest remoteInfo r₂).dest, (Dsm.fillKeysDest remoteInfo r₂).remoteRKey⟩
    ⟨.cmpAndSwp equal val, r₂.source, 8, (Dsm.fillKeysDest remoteInfo r₁).dest,
      (Dsm.fillKeysDest remoteInfo r₁).remoteRKey⟩ hk₂ hd₂ hk₁ hd₁
  have hbuf := congrArg PoolView.buffer hview
  rw [RdmaState.view_buffer] at hbuf
  simp only [Agree, dsm, cxl, Dsm.readCasSync, rdmaReadCas, CxlDsm.readCasSync, view_readSync, view_casSync, hs₁,
    hs₂, hn₁]
  rw [hbuf, hview, hv,
    show (CxlTransport.casSync baseAddr r₂.dest (CxlTransport.readSync baseAddr r₁.dest t r₁.source r₁.size) equal val).2.2
      = _ from casSync_ok, view_readSync]
  simp only [Opcode.access]
  refine Iff.trans (and_iff_left_of_imp fun heq => ?_) swapped_iff
  -- the result is in the source buffer
  have hword : word (t.view baseAddr).pool (packedOffset r₁.dest) =
      word (t.view baseAddr).pool (packedOffset r₂.dest) := by
    rcases swapped_iff.1 heq with hplace | ⟨hword, -⟩
    · rw [hplace]
    · exact hword
  simp [Access.run, hword, eq_comm]

end

/-- **Agreement** of the two backends, exactly when: for regions of the pool of one node, and the same pool and local
memory. -/
theorem agree_iff (op : Composite) (remoteInfo : Nat → Dsm.RemoteConnection) (baseAddr : Nat) (r₁ r₂ : RdmaOpRegion)
    (equal val addVal : UInt64) (s : RdmaState) (t : CxlState) (h₁ : r₁.isOnChip = false) (h₂ : r₂.isOnChip = false)
    (hnode : packedNodeID r₁.dest = packedNodeID r₂.dest)
    (hv : s.view remoteInfo (packedNodeID r₁.dest) = t.view baseAddr) :
    op.Agree remoteInfo baseAddr r₁ r₂ equal val addVal s t ↔ op.AgreesWhen r₁ r₂ equal val (t.view baseAddr) := by
  cases op with
  | writeCas => exact iff_of_true (agree_writeCas h₁ h₂ hnode hv) trivial
  | casRead => exact agree_casRead h₁ h₂ hnode hv
  | readCas => exact agree_readCas h₁ h₂ hnode hv
  | casWrite => exact iff_of_true (agree_casWrite h₁ h₂ hnode hv) trivial
  | writeFaa => exact agree_writeFaa h₁ h₂ hnode hv

/-! ### Samples -/

/-- A pool that holds 0 at the offset 0 and 100 at the offset 8. -/
def samplePool : Nat → UInt8 := fun x => if x = 8 then 100 else 0

/-- A region of 8 bytes of a pool. -/
def sampleRegion (source offset : Nat) : RdmaOpRegion := ⟨source, offset * 2 ^ 16, 8, ⟨0, false⟩, false⟩

/-- The same pool in a node of the cluster and at a base address. -/
def sampleState : RdmaState := ⟨fun _ => samplePool, fun _ => 0⟩

def sampleCxl : CxlState := ⟨samplePool, fun _ => 0⟩

/-- An operation on two regions of that pool agrees. -/
def SampleAgrees (op : Composite) (r₁ r₂ : RdmaOpRegion) : Prop :=
  op.Agree (fun _ => ⟨0, 0⟩) 0 r₁ r₂ 100 5 1 sampleState sampleCxl

theorem sample_view (n : Nat) : sampleState.view (fun _ => ⟨0, 0⟩) n = sampleCxl.view 0 := rfl

theorem sample_isOnChip {source offset : Nat} : (sampleRegion source offset).isOnChip = false := rfl

theorem sample_node {source offset source' offset' : Nat} :
    packedNodeID (sampleRegion source offset).dest = packedNodeID (sampleRegion source' offset').dest := by
  simp [packedNodeID, sampleRegion]

/-- `read_cas` of one place agrees. -/
theorem agree_iff_sample : SampleAgrees readCas (sampleRegion 0 8) (sampleRegion 64 8) :=
  (agree_iff readCas (fun _ => ⟨0, 0⟩) 0 (sampleRegion 0 8) (sampleRegion 64 8) 100 5 1 sampleState sampleCxl rfl rfl rfl
    (sample_view _)).2 (.inl rfl)

/-- **The backends disagree**: `read_cas` of two places, `write_faa` on 100, and `cas_read` into its own result. -/
theorem not_agree : ¬SampleAgrees readCas (sampleRegion 0 0) (sampleRegion 64 8) ∧
    ¬SampleAgrees writeFaa (sampleRegion 0 0) (sampleRegion 64 8) ∧
    ¬SampleAgrees casRead (sampleRegion 0 8) (sampleRegion 0 0) := by
  refine ⟨fun h => ?_, fun h => ?_, fun h => ?_⟩
  · unfold SampleAgrees at h
    rw [agree_readCas sample_isOnChip sample_isOnChip sample_node (sample_view _)] at h
    rcases h with hplace | ⟨hword, -⟩
    · exact absurd hplace (by decide)
    · exact absurd hword (by decide +kernel)
  · unfold SampleAgrees at h
    rw [agree_writeFaa sample_isOnChip sample_isOnChip sample_node (sample_view _)] at h
    exact absurd h (by simp only [AgreesWhen]; decide +kernel)
  · unfold SampleAgrees at h
    rw [agree_casRead sample_isOnChip sample_isOnChip sample_node (sample_view _)] at h
    simp only [AgreesWhen] at h
    exact absurd (h.2 (by decide +kernel)) (by decide +kernel)

end Composite
end Chime

import Chime.Allocator
import Chime.Linearizability

/-!
# Values out of place (`ENABLE_VAR_LEN_KV`)

With `ENABLE_VAR_LEN_KV` an insert or update writes its value to a new `DataBlock` before it writes the entry of the
leaf, where the packed length and address of the block (`DataPointer`) stand for the value. A search reads the entry,
and then the block. Between these two reads others may write the entry. Blocks are never written again, so that the
calls are those of a linearizable map all the same (`indirect_linearizable`). Here the entries are those of a map, and
a new block has an address that is not in use; `Chime.IndirectTree` puts the tree and the allocators in their place.
-/

namespace Chime
namespace Indirect

open SeqObject

/-! ## Packed addresses -/

def mnIdBit : Nat := 8

/-- `PACKED_ADDR_ALIGN_BIT`. -/
def packedAddrAlignBit : Nat := 8

def offsetBit : Nat := 48 - packedAddrAlignBit

/-- `64 - define::packedGaddrBit`. -/
def dataLenBit : Nat := 64 - (mnIdBit + offsetBit)

structure PackedGAddr where
  mnId : Fin (2 ^ mnIdBit)
  offset : Fin (2 ^ offsetBit)
  deriving DecidableEq, Repr

namespace PackedGAddr

def ofAddress (addr : DsmAddress) : PackedGAddr :=
  ⟨Fin.ofNat _ addr.nodeID, Fin.ofNat _ (addr.offset >>> packedAddrAlignBit)⟩

def toAddress (p : PackedGAddr) : DsmAddress :=
  (DsmAddress.mk p.mnId 0).setOffset (p.offset.val <<< packedAddrAlignBit)

def ofUInt64 (val : Nat) : PackedGAddr := ⟨Fin.ofNat _ val, Fin.ofNat _ (val >>> mnIdBit)⟩

def toUInt64 (p : PackedGAddr) : Nat := p.offset.val <<< mnIdBit ||| p.mnId.val

theorem toUInt64_eq (p : PackedGAddr) : p.toUInt64 = p.offset.val * 2 ^ mnIdBit + p.mnId.val := by
  rw [toUInt64, ← Nat.shiftLeft_add_eq_or_of_lt p.mnId.isLt, Nat.shiftLeft_eq]

theorem toUInt64_lt (p : PackedGAddr) : p.toUInt64 < 2 ^ (mnIdBit + offsetBit) := by
  have hm := p.mnId.isLt
  have ho := p.offset.isLt
  rw [toUInt64_eq]
  simp only [mnIdBit, offsetBit, packedAddrAlignBit] at *
  omega

@[simp] theorem ofUInt64_toUInt64 (p : PackedGAddr) : ofUInt64 p.toUInt64 = p := by
  have hm := p.mnId.isLt
  have ho := p.offset.isLt
  have hval := p.toUInt64_eq
  obtain ⟨m, o⟩ := p
  simp only [ofUInt64, mk.injEq, Fin.ext_iff, Fin.ofNat, Nat.shiftRight_eq_div_pow, hval]
  simp only [mnIdBit, offsetBit, packedAddrAlignBit] at *
  omega

/-- An address survives if the node number fits and the block is aligned. -/
theorem toAddress_ofAddress {addr : DsmAddress} (hnode : addr.nodeID < 2 ^ mnIdBit) (hoff : addr.offset < 2 ^ 48)
    (halign : 2 ^ packedAddrAlignBit ∣ addr.offset) : (ofAddress addr).toAddress = addr := by
  obtain ⟨node, off⟩ := addr
  obtain ⟨q, rfl⟩ := halign
  simp only [ofAddress, toAddress, DsmAddress.setOffset, DsmAddress.mk.injEq, Fin.ofNat, Nat.shiftRight_eq_div_pow,
    Nat.shiftLeft_eq]
  simp only [mnIdBit, offsetBit, packedAddrAlignBit] at *
  omega

end PackedGAddr

structure DataPointer where
  dataLen : Fin (2 ^ dataLenBit)
  ptr : PackedGAddr
  deriving DecidableEq, Repr

namespace DataPointer

def new (dataLen : Nat) (addr : DsmAddress) : DataPointer := ⟨Fin.ofNat _ dataLen, .ofAddress addr⟩

def toUInt64 (p : DataPointer) : Nat := p.ptr.toUInt64 <<< 16 ||| p.dataLen.val

/-- A value, read as a `DataPointer`: the length stands in the low bits. -/
def ofValue (v : Nat) : DataPointer := ⟨Fin.ofNat _ v, .ofUInt64 (v >>> dataLenBit)⟩

theorem toUInt64_eq (p : DataPointer) : p.toUInt64 = p.ptr.toUInt64 * 2 ^ 16 + p.dataLen.val := by
  have hl : p.dataLen.val < 2 ^ 16 := p.dataLen.isLt
  rw [toUInt64, ← Nat.shiftLeft_add_eq_or_of_lt hl, Nat.shiftLeft_eq]

/-- A pointer fits a value. -/
theorem toUInt64_lt (p : DataPointer) : p.toUInt64 < 2 ^ 64 := by
  have hp := p.ptr.toUInt64_lt
  have hl := p.dataLen.isLt
  rw [toUInt64_eq]
  simp only [mnIdBit, offsetBit, packedAddrAlignBit, dataLenBit] at *
  omega

@[simp] theorem ofValue_toUInt64 (p : DataPointer) : ofValue p.toUInt64 = p := by
  have hl := p.dataLen.isLt
  have hval := p.toUInt64_eq
  have hdiv : p.toUInt64 >>> dataLenBit = p.ptr.toUInt64 := by
    rw [hval, Nat.shiftRight_eq_div_pow]
    simp only [mnIdBit, offsetBit, packedAddrAlignBit, dataLenBit] at *
    omega
  have hmod : p.toUInt64 % 2 ^ dataLenBit = p.dataLen.val := by
    rw [hval]
    simp only [mnIdBit, offsetBit, packedAddrAlignBit, dataLenBit] at *
    omega
  obtain ⟨l, ptr⟩ := p
  rw [ofValue, hdiv, PackedGAddr.ofUInt64_toUInt64, mk.injEq]
  exact ⟨Fin.ext hmod, rfl⟩

theorem toUInt64_ne_zero (p : DataPointer) (hlen : p.dataLen.val ≠ 0) : p.toUInt64 ≠ 0 := by
  rw [toUInt64_eq]
  omega

end DataPointer

/-! ## The calls -/

/-- A block; its key is stored inline. -/
structure DataBlock where
  restOfKeyLen : Nat
  valueLen : Nat
  value : Nat
  deriving DecidableEq, Repr

/-- `DataBlock(value)`, with `indirectValLen = simulatedValLen`. -/
def DataBlock.new (simulatedValLen value : Nat) : DataBlock := ⟨0, simulatedValLen, value⟩

def dataBlockLen (simulatedValLen : Nat) : Nat := 8 * 2 + 0 + simulatedValLen

/-- The request with a pointer for its value. -/
def withValue (v : Nat) : Request → Request
  | .insert _ => .insert v
  | .update _ => .update v
  | .search => .search

/-- Where a call stands. -/
inductive Stage
  | called (request : Request) (k : Nat)
  /-- the block is written, and `v` is the pointer -/
  | written (request : Request) (k v : Nat)
  /-- a search has read the entry with `v` -/
  | found (k v : Nat)
  | finished (request : Request) (k v : Nat)

structure State where
  /-- the map that the tree stands for -/
  entries : Nat → Option Nat
  memory : DsmAddress → Option DataBlock
  calls : Nat → Option Stage

inductive Action
  | invoke (c : Nat) (request : Request) (k : Nat)
  /-- `dsm->alloc` gives `addr`, and the block is written there -/
  | writeBlock (c : Nat) (addr : DsmAddress)
  /-- the call on the tree takes effect -/
  | point (c : Nat)
  | readBlock (c : Nat)
  | ret (c : Nat)

variable (simulatedValLen : Nat)

/-- The value in the block that `v` points to, if as many bytes are read as a block has. -/
def readBlock (memory : DsmAddress → Option DataBlock) (v : Nat) : Option Nat :=
  let p := DataPointer.ofValue v
  if p.dataLen.val = dataBlockLen simulatedValLen then (memory p.ptr.toAddress).map DataBlock.value else none

/-- The addresses that `dsm->alloc` can give for a block. -/
def Allocatable (memory : DsmAddress → Option DataBlock) (addr : DsmAddress) : Prop :=
  addr.nodeID < 2 ^ mnIdBit ∧ addr.offset < 2 ^ 48 ∧ 2 ^ packedAddrAlignBit ∣ addr.offset ∧ memory addr = none

instance (memory : DsmAddress → Option DataBlock) (addr : DsmAddress) : Decidable (Allocatable memory addr) :=
  inferInstanceAs (Decidable (_ ∧ _ ∧ _ ∧ _))

def State.goto (s : State) (c : Nat) (stage : Option Stage) : State :=
  { s with calls := Function.update s.calls c stage }

def step (s : State) : Action → Option (State × List (Call (Request × Nat) Nat))
  | .invoke c request k =>
    match s.calls c with
    | none => some (s.goto c (some (.called request k)), [.invoke c (request, k)])
    | some _ => none
  | .writeBlock c addr =>
    match s.calls c with
    | some (.called request k) =>
      if request ≠ .search ∧ Allocatable s.memory addr then
        let memory := Function.update s.memory addr (some (.new simulatedValLen request.value))
        let v := (DataPointer.new (dataBlockLen simulatedValLen) addr).toUInt64
        some ({ s with memory }.goto c (some (.written request k v)), [])
      else none
    | _ => none
  | .point c =>
    match s.calls c with
    | some (.called .search k) =>
      match keyMap.apply (.search, k) s.entries with
      | some (entries, v) => some ({ s with entries }.goto c (some (.found k v)), [])
      | none => none
    | some (.written request k v) =>
      match keyMap.apply (withValue v request, k) s.entries with
      | some (entries, res) => some ({ s with entries }.goto c (some (.finished request k res)), [])
      | none => none
    | _ => none
  | .readBlock c =>
    match s.calls c with
    | some (.found k v) =>
      if v = kValueNull then some (s.goto c (some (.finished .search k v)), [])
      else
        match readBlock simulatedValLen s.memory v with
        | some value => some (s.goto c (some (.finished .search k value)), [])
        | none => none
    | _ => none
  | .ret c =>
    match s.calls c with
    | some (.finished request k v) => some (s.goto c none, [.ret c (request, k) v])
    | _ => none

def machine : Machine State Action (Call (Request × Nat) Nat) :=
  ⟨⟨keyMap.init, fun _ => none, fun _ => none⟩, step simulatedValLen⟩

/-! ## The map of values -/

variable {simulatedValLen} {s s' : State} {a : SeqObject.State (Nat → Option Nat) (Request × Nat) Nat}
  {memory memory' : DsmAddress → Option DataBlock} {addr : DsmAddress} {c k v w : Nat} {request : Request}
  {stage : Option Stage} {phase : Option (Phase (Request × Nat) Nat)} {h es : List (Call (Request × Nat) Nat)}

/-- A value that points to a block with `w`. -/
def PointsTo (simulatedValLen : Nat) (memory : DsmAddress → Option DataBlock) (v w : Nat) : Prop :=
  v ≠ kValueNull ∧ readBlock simulatedValLen memory v = some w

/-- What the place of a client says about its call on the map of values. -/
inductive StageOk (simulatedValLen : Nat) (memory : DsmAddress → Option DataBlock) :
    Option Stage → Option (Phase (Request × Nat) Nat) → Prop
  | idle : StageOk simulatedValLen memory none none
  | called {request : Request} {k : Nat} :
      StageOk simulatedValLen memory (some (.called request k)) (some (.pending (request, k)))
  | written {request : Request} {k v : Nat} : request ≠ .search → PointsTo simulatedValLen memory v request.value →
      StageOk simulatedValLen memory (some (.written request k v)) (some (.pending (request, k)))
  | missing {k : Nat} :
      StageOk simulatedValLen memory (some (.found k kValueNull)) (some (.taken (.search, k) kValueNull))
  | found {k v w : Nat} : PointsTo simulatedValLen memory v w →
      StageOk simulatedValLen memory (some (.found k v)) (some (.taken (.search, k) w))
  | finished {request : Request} {k v : Nat} :
      StageOk simulatedValLen memory (some (.finished request k v)) (some (.taken (request, k) v))

/-- The map of values behind the entries and the blocks. -/
structure Follows (simulatedValLen : Nat) (s : State) (a : SeqObject.State (Nat → Option Nat) (Request × Nat) Nat) :
    Prop where
  missing : ∀ k, s.entries k = none → a.value k = none
  entry : ∀ k v, s.entries k = some v → ∃ w, PointsTo simulatedValLen s.memory v w ∧ a.value k = some w
  calls : ∀ c, StageOk simulatedValLen s.memory (s.calls c) (a.calls c)

/-- A new block is read through the pointer to it. -/
theorem pointsTo_new (hlen : dataBlockLen simulatedValLen < 2 ^ dataLenBit) (ha : Allocatable memory addr) (w : Nat) :
    PointsTo simulatedValLen (Function.update memory addr (some (.new simulatedValLen w)))
      (DataPointer.new (dataBlockLen simulatedValLen) addr).toUInt64 w := by
  obtain ⟨hnode, hoff, halign, -⟩ := ha
  have hval : (DataPointer.new (dataBlockLen simulatedValLen) addr).dataLen.val = dataBlockLen simulatedValLen :=
    Nat.mod_eq_of_lt hlen
  refine ⟨DataPointer.toUInt64_ne_zero _ ?_, ?_⟩
  · rw [hval, dataBlockLen]
    omega
  · rw [readBlock, DataPointer.ofValue_toUInt64, if_pos hval, DataPointer.new,
      PackedGAddr.toAddress_ofAddress hnode hoff halign, Function.update_self]
    rfl

/-- A block in use is not written again. -/
theorem PointsTo.update (hp : PointsTo simulatedValLen memory v w) (ha : Allocatable memory addr) (b : DataBlock) :
    PointsTo simulatedValLen (Function.update memory addr (some b)) v w := by
  refine ⟨hp.1, ?_⟩
  have hread := hp.2
  rw [readBlock] at hread ⊢
  split at hread
  swap
  · cases hread
  rename_i hlen
  have hne : (DataPointer.ofValue v).ptr.toAddress ≠ addr := by
    intro he
    rw [he, ha.2.2.2] at hread
    cases hread
  rw [if_pos hlen, Function.update_of_ne hne, hread]

theorem StageOk.update (hs : StageOk simulatedValLen memory stage phase) (ha : Allocatable memory addr)
    (b : DataBlock) : StageOk simulatedValLen (Function.update memory addr (some b)) stage phase := by
  cases hs with
  | idle => exact .idle
  | called => exact .called
  | written hr hp => exact .written hr (hp.update ha b)
  | missing => exact .missing
  | found hp => exact .found (hp.update ha b)
  | finished => exact .finished

/-- A client goes on, and its call on the map of values goes along. -/
theorem Follows.goto (hf : Follows simulatedValLen s a) (hs : StageOk simulatedValLen s.memory stage phase) :
    Follows simulatedValLen (s.goto c stage) (a.set a.value c phase) := by
  refine ⟨hf.missing, hf.entry, fun c' => ?_⟩
  rcases eq_or_ne c' c with rfl | hne
  · simpa [State.goto] using hs
  · simpa [State.goto, hne, SeqObject.State.set_of_ne _ _ hne] using hf.calls c'

theorem Follows.call_ok (hf : Follows simulatedValLen s a) (hc : s.calls c = stage) :
    ∃ phase, a.calls c = phase ∧ StageOk simulatedValLen s.memory stage phase :=
  ⟨_, rfl, hc ▸ hf.calls c⟩

theorem Follows.writeBlock (hf : Follows simulatedValLen s a) (ha : Allocatable s.memory addr) (b : DataBlock) :
    Follows simulatedValLen { s with memory := Function.update s.memory addr (some b) } a where
  missing := hf.missing
  entry := fun k v he => (hf.entry k v he).imp fun _ hw => ⟨hw.1.update ha b, hw.2⟩
  calls := fun c => (hf.calls c).update ha b

/-- An entry with a pointer is written, and its value goes to the map of values. -/
theorem Follows.writeEntry (hf : Follows simulatedValLen s a) (hp : PointsTo simulatedValLen s.memory v w) :
    Follows simulatedValLen { s with entries := Function.update s.entries k (some v) }
      ⟨Function.update a.value k (some w), a.calls⟩ := by
  refine ⟨fun k' hnone => ?_, fun k' v' he => ?_, hf.calls⟩
  · rcases eq_or_ne k' k with rfl | hne
    · simp at hnone
    · simpa [hne] using hf.missing k' (by simpa [hne] using hnone)
  · rcases eq_or_ne k' k with rfl | hne
    · obtain rfl : v = v' := by simpa using he
      exact ⟨w, hp, by simp⟩
    · simpa [hne] using hf.entry k' v' (by simpa [hne] using he)

/-- An update finds its entry exactly if it finds its value. -/
theorem Follows.apply_write (hf : Follows simulatedValLen s a) (hr : request ≠ .search)
    {entries : Nat → Option Nat} {res : Nat}
    (he : keyMap.apply (withValue v request, k) s.entries = some (entries, res)) :
    entries = Function.update s.entries k (some v) ∧ res = kValueNull ∧
      keyMap.apply (request, k) a.value = some (Function.update a.value k (some request.value), kValueNull) := by
  cases request with
  | search => exact absurd rfl hr
  | insert w =>
    cases he
    exact ⟨rfl, rfl, rfl⟩
  | update w =>
    have hsome : s.entries k ≠ none := by
      intro hnone
      simp [withValue, keyMap, hnone] at he
    obtain ⟨v₀, hv₀⟩ := Option.ne_none_iff_exists'.1 hsome
    obtain ⟨w₀, -, hw₀⟩ := hf.entry k v₀ hv₀
    rw [withValue, keyMap_apply_write Request.noConfusion fun _ => hsome] at he
    cases he
    exact ⟨rfl, rfl, keyMap_apply_write hr fun _ => by rw [hw₀]; exact Option.some_ne_none _⟩

/-- **A step** is followed by the map of values. -/
theorem Follows.step (hlen : dataBlockLen simulatedValLen < 2 ^ dataLenBit) (hf : Follows simulatedValLen s a)
    {x : Action} (he : step simulatedValLen s x = some (s', es)) (hrun : keyMap.atomic.Run anyStep a h) :
    ∃ a', keyMap.atomic.Run anyStep a' (es ++ h) ∧ Follows simulatedValLen s' a' := by
  cases x with
  | invoke c request k =>
    simp only [Indirect.step] at he
    split at he
    · rename_i hc
      cases he
      obtain ⟨phase, hph, hok⟩ := hf.call_ok hc
      cases hok
      exact ⟨_, run_invoke hrun hph, hf.goto .called⟩
    · cases he
  | writeBlock c addr =>
    simp only [Indirect.step] at he
    split at he
    · rename_i request k hc
      split at he
      · rename_i hguard
        cases he
        obtain ⟨phase, hph, hok⟩ := hf.call_ok hc
        cases hok
        have hnext := (hf.writeBlock hguard.2 (.new simulatedValLen request.value)).goto (c := c)
          (.written (k := k) hguard.1 (pointsTo_new hlen hguard.2 request.value))
        rw [a.set_eq_self hph] at hnext
        exact ⟨a, hrun, hnext⟩
      · cases he
    · cases he
  | point c =>
    simp only [Indirect.step] at he
    split at he
    · rename_i k hc
      obtain ⟨phase, hph, hok⟩ := hf.call_ok hc
      cases hok
      cases he
      refine ⟨_, run_point hrun hph rfl, hf.goto ?_⟩
      cases hentry : s.entries k with
      | none =>
        rw [hf.missing k hentry]
        exact .missing
      | some v =>
        obtain ⟨w, hp, hw⟩ := hf.entry k v hentry
        rw [hw]
        exact .found hp
    · rename_i request k v hc
      obtain ⟨phase, hph, hok⟩ := hf.call_ok hc
      cases hok with | written hr hp =>
      split at he
      · rename_i entries res happly
        cases he
        obtain ⟨rfl, rfl, hvalue⟩ := hf.apply_write hr happly
        exact ⟨_, run_point hrun hph hvalue, (hf.writeEntry (k := k) hp).goto .finished⟩
      · cases he
    · cases he
  | readBlock c =>
    simp only [Indirect.step] at he
    split at he
    · rename_i k v hc
      obtain ⟨phase, hph, hok⟩ := hf.call_ok hc
      have hsame := a.set_eq_self hph
      split at he
      · rename_i hnull
        cases he
        cases hok with
        | missing => exact ⟨a, hrun, hsame ▸ hf.goto .finished⟩
        | found hp => exact absurd hnull hp.1
      · rename_i hv
        split at he
        · rename_i value hread
          cases he
          cases hok with
          | missing => exact absurd rfl hv
          | found hp =>
            rw [hp.2] at hread
            cases hread
            exact ⟨a, hrun, hsame ▸ hf.goto .finished⟩
        · cases he
    · cases he
  | ret c =>
    simp only [Indirect.step] at he
    split at he
    · rename_i request k v hc
      cases he
      obtain ⟨phase, hph, hok⟩ := hf.call_ok hc
      cases hok
      exact ⟨_, run_ret hrun hph, hf.goto .idle⟩
    · cases he

theorem follows_of_run (hlen : dataBlockLen simulatedValLen < 2 ^ dataLenBit)
    (hrun : (machine simulatedValLen).Run (fun _ _ => True) s h) :
    ∃ a, keyMap.atomic.Run anyStep a h ∧ Follows simulatedValLen s a := by
  refine hrun.invariant (I := fun s h => ∃ a, keyMap.atomic.Run anyStep a h ∧ Follows simulatedValLen s a)
    ⟨_, .init, fun _ _ => rfl, fun _ _ he => (by cases he), fun _ => .idle⟩ ?_
  intro s h x s' es _ ⟨a, ha, hf⟩ _ he
  exact hf.step hlen he ha

/-- The block of an entry that a search has found. -/
theorem Follows.block (hf : Follows simulatedValLen s a) (hc : s.calls c = some (.found k v)) (hv : v ≠ kValueNull) :
    (readBlock simulatedValLen s.memory v).isSome := by
  obtain ⟨phase, -, hok⟩ := hf.call_ok hc
  cases hok with
  | missing => exact absurd rfl hv
  | found hp => rw [hp.2, Option.isSome_some]

/-- **Values out of place**: with blocks whose length fits the pointer, in every run of any number of clients each call
takes effect at one moment between its invocation and its return, on a map of values, and a search that has found an
entry finds the block that it points to. -/
theorem indirect_linearizable (hlen : dataBlockLen simulatedValLen < 2 ^ dataLenBit)
    (hrun : (machine simulatedValLen).Run (fun _ _ => True) s h) :
    keyMap.Linearizable h ∧ ∀ c k v, s.calls c = some (.found k v) → v ≠ kValueNull →
      (readBlock simulatedValLen s.memory v).isSome := by
  obtain ⟨a, ha, hf⟩ := follows_of_run hlen hrun
  exact ⟨⟨a, ha⟩, fun c k v => hf.block⟩

/-- A search that has found the first of two values of a key, and reads it after the second was written. -/
def overtaken : List Action :=
  [.invoke 0 (.insert 11) 5, .writeBlock 0 ⟨1, 256⟩, .point 0, .ret 0, .invoke 1 .search 5, .point 1,
    .invoke 0 (.insert 12) 5, .writeBlock 0 ⟨0, 512⟩, .point 0, .ret 0, .readBlock 1, .ret 1]

def overtakenHistory : List (Call (Request × Nat) Nat) :=
  [.ret 1 (.search, 5) 11, .ret 0 (.insert 12, 5) kValueNull, .invoke 0 (.insert 12, 5), .invoke 1 (.search, 5),
    .ret 0 (.insert 11, 5) kValueNull, .invoke 0 (.insert 11, 5)]

theorem indirect_linearizable_overtaken : (∃ s, (machine 8).Run (fun _ _ => True) s overtakenHistory) ∧
    keyMap.Linearizable overtakenHistory := by
  have hexec : ((machine 8).exec (fun _ _ => true) (machine 8).init [] overtaken).map (fun y => y.2) =
      some overtakenHistory := by rfl
  obtain ⟨⟨s, h⟩, he, rfl⟩ := Option.map_eq_some_iff.1 hexec
  have hrun : (machine 8).Run (fun _ _ => True) s overtakenHistory :=
    .of_exec (I := fun _ => True) (fun _ _ => trivial) (fun _ _ _ => trivial) trivial .init he
  exact ⟨⟨s, hrun⟩, (indirect_linearizable (by decide) hrun).1⟩

end Indirect
end Chime

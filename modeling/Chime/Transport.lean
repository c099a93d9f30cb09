import Chime.Lib.Memory

/-!
# The composite operations of the two backends (`Operation.cpp`, `DSM.cpp`, `CxlTransport.cpp`, `CxlDSM.cpp`)

`DSM` posts two verbs for a composite operation; a posted verb is executed by `WorkRequest.execute`, one after the
other. `CxlDSM` makes the two accesses by `CxlTransport`. A memory is a function from addresses to bytes; the local
memory of a backend holds the buffers that a region names by their addresses.
-/

namespace Chime

open Memory

/-- The bits of a packed `GlobalAddress`: `nodeID : 16`, `offset : 48`. -/
def packedNodeID (val : Nat) : Nat := val % 2 ^ 16

def packedOffset (val : Nat) : Nat := val / 2 ^ 16

/-- What a remote key gives access to: the pool or the on-chip memory of a node. -/
structure RKey where
  node : Nat
  onChip : Bool
  deriving DecidableEq, Repr

/-- `RdmaOpRegion`; before `fill_keys_dest` the field `dest` is a packed address. -/
structure RdmaOpRegion where
  source : Nat
  dest : Nat
  size : Nat
  remoteRKey : RKey
  isOnChip : Bool
  deriving DecidableEq, Repr

/-! ## Verbs -/

inductive Opcode
  /-- `IBV_WR_RDMA_READ` -/
  | read
  /-- `IBV_WR_RDMA_WRITE` -/
  | write
  /-- `IBV_WR_ATOMIC_CMP_AND_SWP` -/
  | cmpAndSwp (compareAdd swap : UInt64)
  /-- `IBV_WR_ATOMIC_FETCH_AND_ADD` -/
  | fetchAndAdd (compareAdd : UInt64)
  deriving DecidableEq, Repr

/-- `ibv_send_wr` with its `ibv_sge`. -/
structure WorkRequest where
  opcode : Opcode
  source : Nat
  length : Nat
  remoteAddr : Nat
  rkey : RKey
  deriving DecidableEq, Repr

/-- The memories of the nodes, and the local memory of the client. -/
structure RdmaState where
  remote : RKey → Nat → UInt8
  buffer : Nat → UInt8

/-- The standard semantics of a verb; an atomic leaves the old value in the source buffer. -/
def WorkRequest.execute (wr : WorkRequest) (s : RdmaState) : RdmaState :=
  let m := s.remote wr.rkey
  let old := word m wr.remoteAddr
  match wr.opcode with
  | .read => { s with buffer := copy s.buffer wr.source m wr.remoteAddr wr.length }
  | .write => { s with remote := Function.update s.remote wr.rkey (copy m wr.remoteAddr s.buffer wr.source wr.length) }
  | .cmpAndSwp compare swap =>
    ⟨Function.update s.remote wr.rkey (compareSwap m wr.remoteAddr compare swap), setWord s.buffer wr.source old⟩
  | .fetchAndAdd add =>
    ⟨Function.update s.remote wr.rkey (setWord m wr.remoteAddr (old + add)), setWord s.buffer wr.source old⟩

/-- `ibv_post_send`: the verbs execute in posting order. -/
def ibvPostSend (wrs : List WorkRequest) (s : RdmaState) : RdmaState := wrs.foldl (fun s wr => wr.execute s) s

def rdmaCasRead (casRor readRor : RdmaOpRegion) (compare swap : UInt64) : RdmaState → RdmaState :=
  ibvPostSend [⟨.cmpAndSwp compare swap, casRor.source, 8, casRor.dest, casRor.remoteRKey⟩,
    ⟨.read, readRor.source, readRor.size, readRor.dest, readRor.remoteRKey⟩]

/-- The two verbs have each other's remote address. -/
def rdmaReadCas (readRor casRor : RdmaOpRegion) (compare swap : UInt64) : RdmaState → RdmaState :=
  ibvPostSend [⟨.read, readRor.source, readRor.size, casRor.dest, casRor.remoteRKey⟩,
    ⟨.cmpAndSwp compare swap, casRor.source, 8, readRor.dest, readRor.remoteRKey⟩]

def rdmaCasWrite (casRor writeRor : RdmaOpRegion) (compare swap : UInt64) : RdmaState → RdmaState :=
  ibvPostSend [⟨.cmpAndSwp compare swap, casRor.source, 8, casRor.dest, casRor.remoteRKey⟩,
    ⟨.write, writeRor.source, writeRor.size, writeRor.dest, writeRor.remoteRKey⟩]

def rdmaWriteFaa (writeRor faaRor : RdmaOpRegion) (addVal : UInt64) : RdmaState → RdmaState :=
  ibvPostSend [⟨.write, writeRor.source, writeRor.size, writeRor.dest, writeRor.remoteRKey⟩,
    ⟨.fetchAndAdd addVal, faaRor.source, 8, faaRor.dest, faaRor.remoteRKey⟩]

def rdmaWriteCas (writeRor casRor : RdmaOpRegion) (compare swap : UInt64) : RdmaState → RdmaState :=
  ibvPostSend [⟨.write, writeRor.source, writeRor.size, writeRor.dest, writeRor.remoteRKey⟩,
    ⟨.cmpAndSwp compare swap, casRor.source, 8, casRor.dest, casRor.remoteRKey⟩]

/-! ## `DSM` -/

namespace Dsm

/-- `remoteInfo` of a node. -/
structure RemoteConnection where
  dsmBase : Nat
  lockBase : Nat

variable (remoteInfo : Nat → RemoteConnection)

def fillKeysDest (ror : RdmaOpRegion) : RdmaOpRegion :=
  let node := packedNodeID ror.dest
  if ror.isOnChip then
    { ror with dest := (remoteInfo node).lockBase + packedOffset ror.dest, remoteRKey := ⟨node, true⟩ }
  else { ror with dest := (remoteInfo node).dsmBase + packedOffset ror.dest, remoteRKey := ⟨node, false⟩ }

variable (r₁ r₂ : RdmaOpRegion) (equal val addVal : UInt64) (s : RdmaState)

/-- `write_faa_sync(write_ror, faa_ror)`. -/
def writeFaaSync : RdmaState × Option Bool :=
  (rdmaWriteFaa (fillKeysDest remoteInfo r₁) (fillKeysDest remoteInfo r₂) addVal s, none)

/-- `write_cas_sync(write_ror, cas_ror)`. -/
def writeCasSync : RdmaState × Option Bool :=
  (rdmaWriteCas (fillKeysDest remoteInfo r₁) (fillKeysDest remoteInfo r₂) equal val s, none)

/-- `cas_read_sync(cas_ror, read_ror)`. -/
def casReadSync : RdmaState × Option Bool :=
  let s := rdmaCasRead (fillKeysDest remoteInfo r₁) (fillKeysDest remoteInfo r₂) equal val s
  (s, some (equal = word s.buffer r₁.source))

/-- `read_cas_sync(read_ror, cas_ror)`. -/
def readCasSync : RdmaState × Option Bool :=
  let s := rdmaReadCas (fillKeysDest remoteInfo r₁) (fillKeysDest remoteInfo r₂) equal val s
  (s, some (equal = word s.buffer r₂.source))

/-- `cas_write_sync(cas_ror, write_ror)`; for two nodes the verbs are posted one by one. -/
def casWriteSync : RdmaState × Option Bool :=
  let cas := fillKeysDest remoteInfo r₁
  let write := fillKeysDest remoteInfo r₂
  let s := if packedNodeID r₁.dest = packedNodeID r₂.dest then rdmaCasWrite cas write equal val s
    else ibvPostSend [⟨.write, write.source, write.size, write.dest, write.remoteRKey⟩]
      (ibvPostSend [⟨.cmpAndSwp equal val, cas.source, 8, cas.dest, cas.remoteRKey⟩] s)
  (s, some (equal = word s.buffer r₁.source))

end Dsm

/-! ## `CxlTransport` and `CxlDSM` -/

/-- The memory at `base_addr_`, and the local memory. -/
structure CxlState where
  memory : Nat → UInt8
  buffer : Nat → UInt8

namespace CxlTransport

variable (baseAddr : Nat) (gaddr : Nat) (s : CxlState)

/-- `CxlTransport::resolve`. -/
def resolve : Nat := baseAddr + packedOffset gaddr

def readSync (buffer size : Nat) : CxlState :=
  { s with buffer := copy s.buffer buffer s.memory (resolve baseAddr gaddr) size }

def writeSync (buffer size : Nat) : CxlState :=
  { s with memory := copy s.memory (resolve baseAddr gaddr) s.buffer buffer size }

/-- `cas_internal`: the new state, the result word, and whether it is `equal`. -/
def casSync (equal val : UInt64) : CxlState × UInt64 × Bool :=
  let result := word s.memory (resolve baseAddr gaddr)
  ({ s with memory := compareSwap s.memory (resolve baseAddr gaddr) equal val }, result, result = equal)

/-- `faa_boundary_internal`: the new state and the result word, masked. -/
def faaBoundarySync (addVal mask : UInt64) : CxlState × UInt64 :=
  let result := word s.memory (resolve baseAddr gaddr)
  ({ s with memory := setWord s.memory (resolve baseAddr gaddr) (result + addVal) }, result &&& mask)

end CxlTransport

namespace CxlDsm

open CxlTransport

variable (baseAddr : Nat) (r₁ r₂ : RdmaOpRegion) (equal val addVal : UInt64) (s : CxlState)

/-- `*(uint64_t *)ror.source = result`. -/
def putResult (ror : RdmaOpRegion) (result : UInt64) (s : CxlState) : CxlState :=
  { s with buffer := setWord s.buffer ror.source result }

/-- `write_cas_sync(write_ror, cas_ror)`. -/
def writeCasSync : CxlState × Option Bool :=
  let s := writeSync baseAddr r₁.dest s r₁.source r₁.size
  let (s, result, _) := casSync baseAddr r₂.dest s equal val
  (putResult r₂ result s, none)

/-- `cas_read_sync(cas_ror, read_ror)`. -/
def casReadSync : CxlState × Option Bool :=
  let (s, result, ok) := casSync baseAddr r₁.dest s equal val
  (readSync baseAddr r₂.dest (putResult r₁ result s) r₂.source r₂.size, some ok)

/-- `read_cas_sync(read_ror, cas_ror)`. -/
def readCasSync : CxlState × Option Bool :=
  let s := readSync baseAddr r₁.dest s r₁.source r₁.size
  let (s, result, ok) := casSync baseAddr r₂.dest s equal val
  (putResult r₂ result s, some ok)

/-- `cas_write_sync(cas_ror, write_ror)`. -/
def casWriteSync : CxlState × Option Bool :=
  let (s, result, ok) := casSync baseAddr r₁.dest s equal val
  (writeSync baseAddr r₂.dest (putResult r₁ result s) r₂.source r₂.size, some ok)

/-- `write_faa_sync(write_ror, faa_ror)`. -/
def writeFaaSync : CxlState × Option Bool :=
  let s := writeSync baseAddr r₁.dest s r₁.source r₁.size
  let (s, result) := faaBoundarySync baseAddr r₂.dest s addVal 63
  (putResult r₂ result s, none)

end CxlDsm
end Chime

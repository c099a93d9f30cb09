import Chime.Lib.Machine
import Mathlib.Logic.Function.Basic
import Mathlib.Data.List.Basic
import Mathlib.Algebra.Group.Nat.Defs

/-!
# Allocation (`LocalAllocator.h`, `GlobalAllocator.h`, `DSM.h`, `Directory.cpp`)

A client thread serves `DSM::alloc` from its `LocalAllocator` of a node and a directory; when that one needs a chunk,
the thread sends a `MALLOC` message to the directory, waits for the chunk and tries again. The machine interleaves the
threads and the directories: the first try, the directory's answer and the retry are one step each, as is `DSM::free`.
What a client holds (`blocks`) and the chunks it was handed (`chunks`) are recorded.
-/

namespace Chime

/-- `define::kChunkSize`. -/
def kChunkSize : Nat := 16 * 2 ^ 20

/-- `define::GB`. -/
def gb : Nat := 2 ^ 30

/-- `NR_DIRECTORY`. -/
def nrDirectory : Nat := 1

/-- `ROUND_UP(x, n)`; the source's `1 << n` is defined for `n ≤ 30`. -/
def roundUp (x n : Nat) : Nat := (x + 2 ^ n - 1) / 2 ^ n * 2 ^ n

/-- `GlobalAddress`, by its bit-fields `nodeID : 16` and `offset : 48`. -/
structure DsmAddress where
  nodeID : Nat
  offset : Nat
  deriving DecidableEq, Repr

namespace DsmAddress

/-- `GlobalAddress::Null()`. -/
def null : DsmAddress := ⟨0, 0⟩

/-- An assignment to the 48 bits of `offset`. -/
def setOffset (addr : DsmAddress) (offset : Nat) : DsmAddress := { addr with offset := offset % 2 ^ 48 }

@[simp] theorem setOffset_nodeID (addr : DsmAddress) (offset : Nat) :
    (addr.setOffset offset).nodeID = addr.nodeID := rfl

theorem setOffset_offset {addr : DsmAddress} {offset : Nat} (h : offset < 2 ^ 48) :
    (addr.setOffset offset).offset = offset := Nat.mod_eq_of_lt h

end DsmAddress

/-- An allocated piece of memory. -/
structure Block where
  addr : DsmAddress
  size : Nat
  deriving DecidableEq, Repr

/-! ## `LocalAllocator` -/

structure LocalAllocator where
  head : DsmAddress
  cur : DsmAddress
  freeList : List Block

namespace LocalAllocator

def init : LocalAllocator := ⟨.null, .null, []⟩

/-- `cur` after the rounding in place. -/
def rounded (A : LocalAllocator) (alignBit : Nat) : DsmAddress :=
  if alignBit = 0 then A.cur else A.cur.setOffset (roundUp A.cur.offset alignBit)

/-- The test for a new chunk, after the rounding. -/
def exhausted (A : LocalAllocator) (size alignBit : Nat) : Bool :=
  A.head = .null ∨ A.head.offset + kChunkSize < (A.rounded alignBit).offset + size

/-- The first block of the free list that is large enough. -/
def firstFit (A : LocalAllocator) (size : Nat) : Option Nat := A.freeList.findIdx? fun b => size ≤ b.size

/-- The result and `need_chunck`. -/
def malloc (A : LocalAllocator) (size alignBit : Nat) : LocalAllocator × DsmAddress × Bool :=
  let cur := A.rounded alignBit
  if A.exhausted size alignBit then
    match A.firstFit size with
    | some i =>
      ({ A with cur := cur, freeList := A.freeList.eraseIdx i }, (A.freeList[i]?.map Block.addr).getD cur, false)
    | none => ({ A with cur := cur }, cur, true)
  else ({ A with cur := cur.setOffset (cur.offset + size) }, cur, false)

def setChunck (A : LocalAllocator) (addr : DsmAddress) : LocalAllocator := { A with head := addr, cur := addr }

def free (A : LocalAllocator) (addr : DsmAddress) (size : Nat) : LocalAllocator :=
  { A with freeList := A.freeList ++ [⟨addr, size⟩] }

end LocalAllocator

/-! ## `GlobalAllocator` -/

structure GlobalAllocator where
  start : DsmAddress
  bitmap : Nat → Bool
  bitmapLen : Nat
  bitmapTail : Nat

namespace GlobalAllocator

/-- The constructor: the first chunk is taken. -/
def init (start : DsmAddress) (size : Nat) : GlobalAllocator := ⟨start, fun i => i = 0, size / kChunkSize, 1⟩

/-- `none`: an assertion fails. -/
def allocChunck (G : GlobalAllocator) : Option (GlobalAllocator × DsmAddress) :=
  if G.bitmapLen ≤ G.bitmapTail then none
  else if G.bitmap G.bitmapTail = false then
    some ({ G with bitmap := Function.update G.bitmap G.bitmapTail true, bitmapTail := G.bitmapTail + 1 },
      G.start.setOffset (G.start.offset + G.bitmapTail * kChunkSize))
  else none

end GlobalAllocator

/-! ## The cluster -/

/-- The pools of a cluster: the number of memory nodes and the size of a pool in GB. The offsets of a pool fit a
`GlobalAddress`. -/
structure Pools where
  memoryNodeNum : Nat
  dsmSize : Nat
  memoryNodeNum_pos : 0 < memoryNodeNum
  dsmSize_pos : 0 < dsmSize
  dsmSize_lt : dsmSize * gb < 2 ^ 48

/-- The size of the part of a pool that a directory hands out. -/
def Pools.perDirectory (P : Pools) : Nat := P.dsmSize * gb / nrDirectory

/-- The allocator of `Directory::Directory`. -/
def Pools.chunckAlloc (P : Pools) (nodeID dirID : Nat) : GlobalAllocator :=
  .init (DsmAddress.setOffset ⟨nodeID, 0⟩ (P.perDirectory * dirID)) P.perDirectory

/-- A client thread. -/
structure ThreadId where
  nodeID : Nat
  threadID : Nat
  deriving DecidableEq, Repr

/-- Where a thread stands in `DSM::alloc`, with the directory that it asks. -/
inductive AllocPc
  | idle
  /-- in `rpc_wait`, the message is not processed yet -/
  | waiting (node dir size alignBit : Nat)
  /-- in `rpc_wait`, the directory has answered -/
  | answered (node dir size alignBit : Nat) (addr : DsmAddress)
  deriving DecidableEq, Repr

/-- The thread-local state of `DSM`; `blocks` is what the thread holds, `chunks` what its allocators were handed. -/
structure AllocClient where
  curTargetNode : Nat
  curTargetDirId : Nat
  localAllocators : Nat → Nat → LocalAllocator
  pc : AllocPc
  blocks : List Block
  chunks : List DsmAddress

namespace AllocClient

variable (P : Pools)

def init (c : ThreadId) : AllocClient :=
  ⟨(c.threadID + c.nodeID) % P.memoryNodeNum, (c.threadID + c.nodeID) % nrDirectory, fun _ _ => .init, .idle, [], []⟩

/-- The next target of `DSM::alloc`. -/
def nextTarget (C : AllocClient) : Nat × Nat :=
  if C.curTargetDirId + 1 = nrDirectory then ((C.curTargetNode + 1) % P.memoryNodeNum, 0)
  else (C.curTargetNode, C.curTargetDirId + 1)

/-- The allocator of a node and a directory is replaced. -/
def setAllocator (C : AllocClient) (node dir : Nat) (A : LocalAllocator) : AllocClient :=
  { C with localAllocators := fun n d => if n = node ∧ d = dir then A else C.localAllocators n d }

def allocator (C : AllocClient) (node dir : Nat) : LocalAllocator := C.localAllocators node dir

/-- The thread obtains a block. -/
def obtain (C : AllocClient) (addr : DsmAddress) (size : Nat) : AllocClient :=
  { C with pc := .idle, blocks := ⟨addr, size⟩ :: C.blocks }

/-- The first try of `DSM::alloc`; the result, unless a chunk is needed. -/
def tryFrom (C : AllocClient) (node dir size alignBit : Nat) : AllocClient × Option DsmAddress :=
  match (C.allocator node dir).malloc size alignBit with
  | (A, _, true) => ({ C.setAllocator node dir A with pc := .waiting node dir size alignBit }, none)
  | (A, addr, false) => ((C.setAllocator node dir A).obtain addr size, some addr)

/-- The target is advanced before the first try. -/
def retarget (C : AllocClient) : AllocClient :=
  { C with curTargetNode := (C.nextTarget P).1, curTargetDirId := (C.nextTarget P).2 }

def tryAlloc (C : AllocClient) (size alignBit : Nat) : AllocClient × Option DsmAddress :=
  (C.retarget P).tryFrom (C.nextTarget P).1 (C.nextTarget P).2 size alignBit

/-- `set_chunck` and the second try, which is not tested for `need_chunk`. -/
def retry (C : AllocClient) (node dir size alignBit : Nat) (chunk : DsmAddress) : AllocClient × DsmAddress :=
  match ((C.allocator node dir).setChunck chunk).malloc size alignBit with
  | (A, addr, _) => ({ (C.setAllocator node dir A).obtain addr size with chunks := chunk :: C.chunks }, addr)

/-- `DSM::free` of a block that the thread holds. -/
def free (C : AllocClient) (i : Nat) (b : Block) : AllocClient :=
  { C.setAllocator b.addr.nodeID 0 ((C.allocator b.addr.nodeID 0).free b.addr b.size) with blocks := C.blocks.eraseIdx i }

end AllocClient

inductive AllocAction
  /-- `DSM::alloc` is called -/
  | alloc (c : ThreadId) (size alignBit : Nat)
  /-- the directory processes the message of a thread -/
  | serve (c : ThreadId)
  /-- `rpc_wait` returns -/
  | resume (c : ThreadId)
  /-- `DSM::free` of the block at a position of `blocks` -/
  | free (c : ThreadId) (i : Nat)
  deriving DecidableEq, Repr

inductive AllocEvent
  | returned (c : ThreadId) (addr : DsmAddress) (size alignBit : Nat)
  deriving DecidableEq, Repr

structure AllocState where
  clients : ThreadId → AllocClient
  directories : Nat → Nat → GlobalAllocator

namespace AllocState

def setClient (s : AllocState) (c : ThreadId) (C : AllocClient) : AllocState :=
  { s with clients := Function.update s.clients c C }

def setDirectory (s : AllocState) (node dir : Nat) (G : GlobalAllocator) : AllocState :=
  { s with directories := fun n d => if n = node ∧ d = dir then G else s.directories n d }

/-- One step. -/
def step (P : Pools) (s : AllocState) : AllocAction → Option (AllocState × List AllocEvent)
  | .alloc c size alignBit =>
    match (s.clients c).pc with
    | .idle =>
      match (s.clients c).tryAlloc P size alignBit with
      | (C, some addr) => some (s.setClient c C, [.returned c addr size alignBit])
      | (C, none) => some (s.setClient c C, [])
    | _ => none
  | .serve c =>
    match (s.clients c).pc with
    | .waiting node dir size alignBit =>
      match (s.directories node dir).allocChunck with
      | some (G, addr) =>
        some ((s.setDirectory node dir G).setClient c
          { s.clients c with pc := .answered node dir size alignBit addr }, [])
      | none => none
    | _ => none
  | .resume c =>
    match (s.clients c).pc with
    | .answered node dir size alignBit chunk =>
      let (C, addr) := (s.clients c).retry node dir size alignBit chunk
      some (s.setClient c C, [.returned c addr size alignBit])
    | _ => none
  | .free c i =>
    match (s.clients c).pc, (s.clients c).blocks[i]? with
    | .idle, some b => some (s.setClient c ((s.clients c).free i b), [])
    | _, _ => none

end AllocState

/-- The threads of a cluster and the directories of its memory nodes. -/
def Pools.machine (P : Pools) : Machine AllocState AllocAction AllocEvent where
  init := ⟨AllocClient.init P, P.chunckAlloc⟩
  step := AllocState.step P

end Chime

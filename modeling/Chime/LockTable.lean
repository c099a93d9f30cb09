import Chime.Common
import Chime.Lib.Machine
import Mathlib.Logic.Function.Basic

/-!
# The local lock table (`LocalLockTable.h`)

The clients of a compute node share a table of lock nodes. An operation runs `acquire_local_read_lock` or
`acquire_local_write_lock`, its remote accesses (for a write preceded by `get_combining_value`), and the release. Every
atomic load, store, compare-exchange, `fetch_add` and every mutex-protected block is one step of the machine. Read and
write locks are the same code on different queues (`Side`), apart from what the branches on the side show. A
`Key *` is the key it points to: it is compared with `nullptr` only, and a published key does not change.
-/

namespace Chime

/-- The read or the write half of a lock node. -/
inductive Side
  | read
  | write
  deriving DecidableEq, Repr

def Side.other : Side → Side
  | read => write
  | write => read

/-- A waiting queue of a `LocalLockNode` with its time window and its unique key. -/
structure WaitingQueue where
  current : UInt8
  ticket : UInt8
  handover : Bool
  window : UInt8
  uniqueKey : Option Nat
  deriving DecidableEq, Repr

/-- `LocalLockNode`. -/
structure LocalLockNode where
  queue : Side → WaitingQueue
  windowStart : Bool
  /-- read delegation -/
  res : Bool
  retValue : Nat
  /-- write combining -/
  wcBuffer : Nat

/-- `LocalLockNode::LocalLockNode()`; `res`, `ret_value` and `wc_buffer` are not initialized. -/
def LocalLockNode.init (res : Bool) (retValue wcBuffer : Nat) : LocalLockNode :=
  ⟨fun _ => ⟨0, 0, false, 0, none⟩, false, res, retValue, wcBuffer⟩

/-- Where an operation stands: the atomic step it does next, with the locals that step and later ones need. -/
inductive Pc
  /-- `compare_exchange_strong` on the unique key -/
  | cas
  /-- `wc_buffer = v`; whether the compare-exchange succeeded -/
  | combine (res : Bool)
  /-- `fetch_add` on the ticket -/
  | takeTicket
  /-- the loop `while (ticket != current)` -/
  | wait (ticket : UInt8)
  /-- the second load of the unique key -/
  | recheck
  /-- "conflict keys" after the wait: `if (node.write_window)` -/
  | bailWindow
  | bailDecrement
  | bailReadWindow
  | bailWriteWindow
  | bailWindowStart
  | bailNext
  /-- `if (!node.write_window)` -/
  | checkWindow
  | clearHandover
  | loadHandover
  /-- the remote read of a search -/
  | remoteRead
  /-- `get_combining_value`: load of the unique key -/
  | loadUnique
  /-- `get_combining_value`: the block under `wc_lock` -/
  | loadBuffer
  | remoteWrite
  /-- `if (!node.read_handover)` at the start of `release_local_read_lock` -/
  | share
  | storeRes
  | storeRetValue
  | loadRes
  | loadRetValue
  /-- the load of the ticket in the release -/
  | relTicket
  | relCurrent (ticket : UInt8)
  /-- `if (!node.write_handover && …)` -/
  | relHandover (ticket current : UInt8)
  /-- `window_start.compare_exchange_strong` -/
  | relStart (ticket current : UInt8)
  | relOwnWindow (ticket current : UInt8)
  | relOtherWindow (ticket current : UInt8)
  | storeHandover (ticket current : UInt8)
  | testHandover
  | clearUnique
  /-- the closing block under the mutex -/
  | finish
  /-- return of the operation -/
  | leave
  deriving DecidableEq, Repr

/-- An operation in progress. -/
structure Op where
  side : Side
  key : Nat
  /-- `v` of a write, `ret_value` of a search -/
  value : Nat
  /-- `res` of a search -/
  res : Bool
  /-- `acquire_ret`: handover, and conflict of keys -/
  acquireRet : Bool × Bool
  pc : Pc
  deriving DecidableEq, Repr

/-- The operation returns by handover, without remote access of its own. -/
def Op.handover (o : Op) : Bool := o.acquireRet.1 && !o.acquireRet.2

/-- What a step of an operation does: it goes on, goes on after its remote write, or returns. -/
inductive Outcome
  | goto (o : Op)
  | write (o : Op)
  | ret

namespace LocalLockNode

variable (n : LocalLockNode)

def setQueue (σ : Side) (q : WaitingQueue) : LocalLockNode := { n with queue := Function.update n.queue σ q }

/-- `if (!node.read_window && !node.write_window) node.window_start = false`, inside a mutex. -/
def closeWindow : LocalLockNode :=
  if (n.queue .read).window = 0 ∧ (n.queue .write).window = 0 then { n with windowStart := false } else n

end LocalLockNode

namespace Op

variable (o : Op) (n : LocalLockNode)

/-- Go on at `pc`. -/
def at' (pc : Pc) : Op := { o with pc }

/-- What follows the acquire. -/
def body : Op :=
  if o.handover then o.at' (match o.side with | .read => .share | .write => .relTicket)
  else o.at' (match o.side with | .read => .remoteRead | .write => .loadUnique)

/-- What follows the remote access: the release returns at once after a conflict of keys. -/
def afterAccess : Op :=
  if o.acquireRet.2 then o.at' .leave else o.at' (match o.side with | .read => .share | .write => .relTicket)

/-- `return std::make_pair(false, true)`. -/
def conflict : Op := { o with acquireRet := (false, true) }.body

/-- `acquire_local_read_lock` and `acquire_local_write_lock`. -/
def acquireLocalLock : LocalLockNode × Outcome :=
  let q := n.queue o.side
  let afterCas (res : Bool) : Op := o.at' (match o.side with | .read => .takeTicket | .write => .combine res)
  match o.pc with
  | .cas =>
    match q.uniqueKey with
    | none => (n.setQueue o.side { q with uniqueKey := some o.key }, .goto (afterCas true))
    | some k => if k ≠ o.key then (n, .goto o.conflict) else (n, .goto (afterCas false))
  | .combine _ => ({ n with wcBuffer := o.value }, .goto (o.at' .takeTicket))
  | .takeTicket => (n.setQueue o.side { q with ticket := q.ticket + 1 }, .goto (o.at' (.wait q.ticket)))
  | .wait ticket => (n, .goto (if ticket ≠ q.current then o else o.at' .recheck))
  | .recheck => (n, .goto (o.at' (if q.uniqueKey ≠ some o.key then .bailWindow else .checkWindow)))
  | .bailWindow => (n, .goto (o.at' (if q.window ≠ 0 then .bailDecrement else .bailNext)))
  | .bailDecrement => (n.setQueue o.side { q with window := q.window - 1 }, .goto (o.at' .bailReadWindow))
  | .bailReadWindow => (n, .goto (o.at' (if (n.queue .read).window = 0 then .bailWriteWindow else .bailNext)))
  | .bailWriteWindow => (n, .goto (o.at' (if (n.queue .write).window = 0 then .bailWindowStart else .bailNext)))
  | .bailWindowStart => ({ n with windowStart := false }, .goto (o.at' .bailNext))
  | .bailNext => (n.setQueue o.side { q with current := q.current + 1 }, .goto o.conflict)
  | .checkWindow => (n, .goto (o.at' (if q.window = 0 then .clearHandover else .loadHandover)))
  | .clearHandover => (n.setQueue o.side { q with handover := false }, .goto (o.at' .loadHandover))
  | _ => (n, .goto { o with acquireRet := (q.handover, false) }.body)

/-- The remote access of the operation, for a write after `get_combining_value`; `remote` is what the tree holds for the
key. -/
def access (remote : Nat) : LocalLockNode × Outcome :=
  match o.pc with
  | .remoteRead => (n, .goto { o with res := remote ≠ kValueNull, value := remote }.afterAccess)
  | .loadUnique =>
    (n, .goto (o.at' (if (n.queue .write).uniqueKey = some o.key then .loadBuffer else .remoteWrite)))
  | .loadBuffer => (n, .goto { o with value := n.wcBuffer, pc := .remoteWrite })
  | _ => (n, .write o.afterAccess)

/-- `release_local_read_lock` and `release_local_write_lock`. -/
def releaseLocalLock : LocalLockNode × Outcome :=
  let q := n.queue o.side
  match o.pc with
  | .share => (n, .goto (o.at' (if q.handover then .loadRes else .storeRes)))
  | .storeRes => ({ n with res := o.res }, .goto (o.at' .storeRetValue))
  | .storeRetValue => ({ n with retValue := o.value }, .goto (o.at' .relTicket))
  | .loadRes => (n, .goto { o with res := n.res, pc := .loadRetValue })
  | .loadRetValue => (n, .goto { o with value := n.retValue, pc := .relTicket })
  | .relTicket => (n, .goto (o.at' (.relCurrent q.ticket)))
  | .relCurrent ticket => (n, .goto (o.at' (.relHandover ticket q.current)))
  | .relHandover ticket current =>
    (n, .goto (o.at' (if q.handover then .storeHandover ticket current else .relStart ticket current)))
  | .relStart ticket current =>
    if n.windowStart then (n, .goto (o.at' (.storeHandover ticket current)))
    else ({ n with windowStart := true }, .goto (o.at' (match o.side with
      | .read => .relOwnWindow ticket current
      | .write => .relOtherWindow ticket current)))
  | .relOwnWindow ticket current =>
    (n.setQueue o.side { q with window := ticket - current }, .goto (o.at' (match o.side with
      | .read => .relOtherWindow ticket current
      | .write => .storeHandover ticket current)))
  | .relOtherWindow ticket current =>
    let p := n.queue o.side.other
    (n.setQueue o.side.other { p with window := p.ticket - p.current }, .goto (o.at' (match o.side with
      | .read => .storeHandover ticket current
      | .write => .relOwnWindow ticket current)))
  | .storeHandover ticket current =>
    (n.setQueue o.side { q with handover := ticket ≠ current + 1 }, .goto (o.at' .testHandover))
  | .testHandover => (n, .goto (o.at' (if q.handover then .finish else .clearUnique)))
  | .clearUnique => (n.setQueue o.side { q with uniqueKey := none }, .goto (o.at' .finish))
  | _ =>
    let n := if q.window ≠ 0 then (n.setQueue o.side { q with window := q.window - 1 }).closeWindow else n
    (n.setQueue o.side { n.queue o.side with current := q.current + 1 }, .goto (o.at' .leave))

/-- The next step of an operation. -/
def step (remote : Nat) : LocalLockNode × Outcome :=
  match o.pc with
  | .cas | .combine _ | .takeTicket | .wait _ | .recheck | .bailWindow | .bailDecrement | .bailReadWindow
  | .bailWriteWindow | .bailWindowStart | .bailNext | .checkWindow | .clearHandover | .loadHandover =>
    o.acquireLocalLock n
  | .remoteRead | .loadUnique | .loadBuffer | .remoteWrite => o.access n remote
  | .leave => (n, .ret)
  | _ => o.releaseLocalLock n

end Op

/-- The lock table of a compute node, its clients, and what the tree holds for each key. -/
structure LockTable where
  nodes : Nat → LocalLockNode
  clients : Nat → Option Op
  remote : Nat → Nat

namespace LockTable

inductive Action
  /-- client `c` begins a search or a write -/
  | invoke (c : Nat) (side : Side) (key value : Nat)
  /-- client `c` makes a step -/
  | step (c : Nat)
  /-- another compute node writes -/
  | remote (key value : Nat)
  deriving DecidableEq, Repr

inductive Event
  | invoke (c : Nat) (side : Side) (key value : Nat)
  | write (c key value : Nat)
  | ret (c : Nat) (o : Op)
  deriving DecidableEq, Repr

variable (hash : Nat → Nat) (s : LockTable)

/-- Client `c` goes on with `o` and has changed its lock node to `n`. -/
def set (c : Nat) (o : Op) (n : LocalLockNode) (o' : Option Op) : LockTable :=
  { s with nodes := Function.update s.nodes (hash o.key) n, clients := Function.update s.clients c o' }

/-- A step of client `c` in the operation `o`. -/
def stepClient (c : Nat) (o : Op) : LockTable × List Event :=
  match o.step (s.nodes (hash o.key)) (s.remote o.key) with
  | (n, .goto o') => (s.set hash c o n (some o'), [])
  | (n, .write o') =>
    ({ s.set hash c o n (some o') with remote := Function.update s.remote o.key o.value }, [.write c o.key o.value])
  | (n, .ret) => (s.set hash c o n none, [.ret c o])

/-- A step of the machine; `hash` is `get_hashed_local_lock_index`. -/
def step : Action → Option (LockTable × List Event)
  | .invoke c side key value =>
    match s.clients c with
    | none =>
        some ({ s with clients := Function.update s.clients c (some ⟨side, key, value, false, (false, false), .cas⟩) },
        [.invoke c side key value])
    | some _ => none
  | .step c => (s.clients c).map (s.stepClient hash c)
  | .remote key value => some ({ s with remote := Function.update s.remote key value }, [])

/-- The lock table of a compute node that has just started; what a lock node leaves uninitialized is `init`. -/
def machine (hash : Nat → Nat) (init : Nat → Bool × Nat × Nat) (remote : Nat → Nat) :
    Machine LockTable Action Event where
  init := ⟨fun i => .init (init i).1 (init i).2.1 (init i).2.2, fun _ => none, remote⟩
  step := step hash

end LockTable
end Chime

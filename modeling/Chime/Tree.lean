import Chime.InternalNode
import Chime.LeafOps
import Chime.Lib.Machine

/-!
# The tree and its clients (`Tree.cpp`)

Clients share the remote memory: the nodes with their lock words, and the root entry. `insert`, `update` and `search`
run as small steps: every step makes one remote access (the lock, the read of a node, the write of a node together with
its unlock, the write of a new node, the read or the compare-and-swap of the root entry), or is local. All calls of
these functions are tail calls, so a client is its locals and a program counter. Node reads are consistent snapshots.
The caches of the compute nodes are taken at their weakest: a lookup may return any node that was ever put into a cache
and covers the key, or nothing.
-/

namespace Chime

/-- What an address of the remote memory holds; a lock word is `none` while it is locked. -/
inductive Cell (L : Layout)
  | free
  | leaf (leaf : LeafNode L) (lock : Option (Valock L))
  | internal (node : InternalNode) (locked : Bool)

/-- `RootEntry`. -/
structure RootEntry where
  level : Nat
  ptr : GlobalAddress
  deriving DecidableEq, Repr

/-- The shared state: the remote memory, the root entry, the next address to be allocated, and the nodes that have been
put into caches. -/
structure Store (L : Layout) where
  mem : Nat → Cell L
  root : RootEntry
  next : Nat
  cached : List InternalNode

/-- An operation and its value. -/
inductive Request
  | insert (v : Nat)
  | update (v : Nat)
  | search
  deriving DecidableEq, Repr

/-- The value that an operation writes. -/
def Request.value : Request → Nat
  | .insert v | .update v => v
  | .search => kValueNull

/-- `level`, `p` and `sibling_p` of a traversal; a leaf has level 1. -/
structure Position where
  level : Nat
  nodeAddr : GlobalAddress
  siblingAddr : GlobalAddress
  fromCache : Bool
  deriving DecidableEq, Repr

/-- A separator on its way to the parents: `target_level`, `k` and `ptr`. -/
structure Separator where
  level : Nat
  key : Nat
  ptr : GlobalAddress
  deriving DecidableEq, Repr

/-- Where a client stands. -/
inductive TreePc (L : Layout)
  /-- look up the cache, or read the root entry -/
  | start
  /-- the label `next` of the operations -/
  | visit (p : Position)
  /-- lock or read the leaf -/
  | leaf (p : Position)
  /-- `a` is locked, the lock word was `lock` -/
  | leafLocked (a : Nat) (p : Position) (lock : Valock L)
  /-- unlock, and go on at a sibling or start again -/
  | leafUnlock (a : Nat) (lock : Valock L) (next : Option Position)
  | leafWrite (a : Nat) (w : LeafWrite L)
  /-- write the sibling `new` of the leaf `a` -/
  | leafSplitSibling (a new : Nat) (x : LeafSplit L)
  /-- write the split leaf and unlock -/
  | leafSplitWrite (a new : Nat) (x : LeafSplit L)
  /-- write a new root over the node `a` of `level` and its sibling -/
  | newRoot (level a splitKey sibling : Nat)
  /-- the compare-and-swap of the root entry -/
  | rootCas (level a root splitKey sibling : Nat)
  /-- "insert to parent node" -/
  | parent (e : Separator)
  /-- `get_root_ptr` before `insert_internal` -/
  | readRoot (e : Separator)
  /-- the label `next` of `insert_internal` -/
  | insertInternal (e : Separator) (level : Nat) (nodeAddr : GlobalAddress)
  /-- lock in `internal_node_insert` -/
  | internal (e : Separator) (nodeAddr : GlobalAddress) (fromCache : Bool)
  | internalLocked (e : Separator) (a : Nat) (fromCache : Bool)
  /-- unlock, and go on at a sibling or from the root -/
  | internalUnlock (e : Separator) (a : Nat) (next : Option GlobalAddress)
  | internalWrite (e : Separator) (a : Nat) (node : InternalNode)
  | internalSplitSibling (e : Separator) (a new : Nat) (x : InternalSplit)
  | internalSplitWrite (e : Separator) (a new : Nat) (x : InternalSplit)
  /-- return, with the value found -/
  | done (v : Nat)
  | crashed (a : Assertion)

/-- Where `leaf_node_insert` and `leaf_node_update` go on after an unlock without a write. -/
def TreePc.afterLeaf {L : Layout} : Option Position → TreePc L
  | none => .start
  | some p => .leaf p

/-- Where `internal_node_insert` goes on after an unlock without a write. -/
def TreePc.afterInternal {L : Layout} (e : Separator) : Option GlobalAddress → TreePc L
  | none => .readRoot e
  | some p => .internal e p false

/-- A client in an operation. -/
structure Client (L : Layout) where
  request : Request
  key : Nat
  /-- `path_stack` -/
  path : Nat → GlobalAddress
  pc : TreePc L

/-- What is not determined by the state: the node a cache lookup finds, what a local view held before, and the slot the
hotspot cache names. -/
structure Choice (L : Layout) where
  cache : Option InternalNode
  buffer : LeafNode L
  speculativeIdx : Option (Fin L.leafSpanSize)

variable {L : Layout}

namespace Store

variable (s : Store L)

/-- What the memory holds at a pointer. -/
def read : GlobalAddress → Cell L
  | .at a => s.mem a
  | _ => .free

def write (a : Nat) (cell : Cell L) : Store L := { s with mem := Function.update s.mem a cell }

@[simp] theorem write_self (a : Nat) (cell : Cell L) : (s.write a cell).mem a = cell := Function.update_self ..

theorem write_of_ne {a b : Nat} (h : b ≠ a) (cell : Cell L) : (s.write a cell).mem b = s.mem b :=
  Function.update_of_ne h ..

/-- `dsm->alloc`. -/
def alloc : Store L := { s with next := s.next + 1 }

/-- `cache_node`. -/
def cacheNode (nd : InternalNode) : Store L := { s with cached := nd :: s.cached }

end Store

namespace Client

variable (s : Store L) (c : Client L)

def goto (pc : TreePc L) : Client L := { c with pc }

/-- `path_stack[level - 1] = p`. -/
def record (level : Nat) (nodeAddr : GlobalAddress) : Client L :=
  { c with path := Function.update c.path (level - 1) nodeAddr }

@[simp] theorem goto_request (pc : TreePc L) : (c.goto pc).request = c.request := rfl

@[simp] theorem goto_key (pc : TreePc L) : (c.goto pc).key = c.key := rfl

@[simp] theorem goto_path (pc : TreePc L) : (c.goto pc).path = c.path := rfl

@[simp] theorem goto_pc (pc : TreePc L) : (c.goto pc).pc = pc := rfl

@[simp] theorem record_request (level : Nat) (p : GlobalAddress) : (c.record level p).request = c.request := rfl

@[simp] theorem record_key (level : Nat) (p : GlobalAddress) : (c.record level p).key = c.key := rfl

@[simp] theorem record_path (level : Nat) (p : GlobalAddress) :
    (c.record level p).path = Function.update c.path (level - 1) p := rfl

/-- `path_stack` at the label `next`: only `insert` keeps it. -/
def visited (p : Position) : Client L :=
  { c with path := match c.request with
    | .insert _ => (c.record p.level p.nodeAddr).path
    | _ => c.path }

@[simp] theorem visited_key (p : Position) : (c.visited p).key = c.key := rfl

@[simp] theorem visited_request (p : Position) : (c.visited p).request = c.request := rfl

/-- Go on with the result of a computation, or stop at its failed assertion. -/
def attempt {α : Type} (x : Checked α) (f : α → Store L × Client L) : Store L × Client L :=
  match x with
  | .error a => (s, c.goto (.crashed a))
  | .ok x => f x

@[simp] theorem attempt_ok {α : Type} (x : α) (f : α → Store L × Client L) : c.attempt s (.ok x) f = f x := rfl

@[simp] theorem attempt_error {α : Type} (a : Assertion) (f : α → Store L × Client L) :
    c.attempt s (.error a) f = (s, c.goto (.crashed a)) := rfl

/-- A step from `start`. -/
def stepStart (ch : Choice L) : Option (Store L × Client L) :=
  match ch.cache with
  | some nd =>
    if nd ∈ s.cached ∧ nd.covers c.key then
      some (c.attempt s (Checked.assert .levelZero (nd.level ≠ 0)) fun _ =>
        (s, c.goto (.visit ⟨nd.level, (nd.childPtr c.key).1, (nd.childPtr c.key).2, true⟩)))
    else none
  | none => some (c.attempt s (Checked.assert .levelZero (s.root.level ≠ 0)) fun _ =>
      (s, c.goto (.visit ⟨s.root.level, s.root.ptr, .null, false⟩)))

/-- The label `next` of `insert`, `update` and `search`. -/
def stepVisit (p : Position) : Option (Store L × Client L) :=
  let c := c.visited p
  if p.level = 1 then some (s, c.goto (.leaf p))
  else if p.level ≤ 1 then some (s, c.goto (.crashed .levelOne))
  else
    match s.read p.nodeAddr with
    | .internal nd _ => some (c.attempt s (internalNodeSearch nd c.key p.fromCache) fun
      | .invalid => (s, c.goto .start)
      | .turnRight sib => (s, (c.record p.level sib).goto (.visit ⟨p.level, sib, p.siblingAddr, false⟩))
      | .next level nodeAddr siblingAddr => (s.cacheNode nd, c.goto (.visit ⟨level, nodeAddr, siblingAddr, false⟩)))
    | _ => none

/-- The read of `leaf_node_search`, or the lock of `leaf_node_insert` and `leaf_node_update`. -/
def stepLeaf (ch : Choice L) (p : Position) : Option (Store L × Client L) :=
  match s.read p.nodeAddr, p.nodeAddr with
  | .leaf lf lock, .at a =>
    match c.request with
    | .search => some (c.attempt s (leafNodeSearch lf ch.buffer p.siblingAddr c.key p.fromCache ch.speculativeIdx) fun
      | .invalid => c.attempt s (Checked.assert .fromCache (p.fromCache = true)) fun _ => (s, c.goto .start)
      | .reRead => (s, c)
      | .turnRight sib => (s, c.goto (.leaf ⟨1, sib, p.siblingAddr, false⟩))
      | .done v => (s, c.goto (.done v)))
    | _ =>
      match lock with
      | none => some (s, c)
      | some w => some (s.write a (.leaf lf none), c.goto (.leafLocked a p w))
  | _, _ => none

/-- `leaf_node_insert` and `leaf_node_update` on the locked leaf, up to the first remote write. -/
def stepLeafLocked [Arithmetic] (ch : Choice L) (a : Nat) (p : Position) (lock : Valock L) : Option (Store L × Client L) :=
  match s.mem a with
  | .leaf lf _ =>
    match c.request with
    | .insert v => some (c.attempt s (leafNodeInsert lf lock p.siblingAddr c.key v p.fromCache (.at s.next)) fun
      | .invalid => (s, c.goto (.leafUnlock a lock none))
      | .turnRight sib => (s, c.goto (.leafUnlock a lock (some ⟨1, sib, .null, false⟩)))
      | .write w => (s, c.goto (.leafWrite a w))
      | .split x => (s.alloc, c.goto (.leafSplitSibling a s.next x)))
    | .update v =>
      some (c.attempt s (leafNodeUpdate lf ch.buffer lock p.siblingAddr c.key v p.fromCache ch.speculativeIdx) fun
      | .invalid => c.attempt s (Checked.assert .fromCache (p.fromCache = true)) fun _ =>
          (s, c.goto (.leafUnlock a lock none))
      | .turnRight sib => (s, c.goto (.leafUnlock a lock (some ⟨1, sib, p.siblingAddr, false⟩)))
      | .write w => (s, c.goto (.leafWrite a w)))
    | .search => none
  | _ => none

/-- "update parent node" of the two split functions. -/
def updateParent (isRoot : Bool) (level a splitKey new : Nat) : Client L :=
  if isRoot then c.goto (.newRoot level a splitKey new) else c.goto (.parent ⟨level + 1, splitKey, .at new⟩)

/-- "insert to parent node": the parent from `path_stack` or from the cache, else from the root. -/
def stepParent (ch : Choice L) (e : Separator) : Option (Store L × Client L) :=
  if c.path e.level ≠ .null then some (s, c.goto (.internal e (c.path e.level) false))
  else
    match ch.cache with
    | some nd =>
      if nd ∈ s.cached ∧ nd.level = e.level + 1 ∧ nd.covers e.key then
        some (c.attempt s (Checked.assert .parentNull ((nd.childPtr e.key).1 ≠ .null)) fun _ =>
          (s, c.goto (.internal e (nd.childPtr e.key).1 true)))
      else none
    | none => some (s, c.goto (.readRoot e))

/-- The label `next` of `insert_internal`. -/
def stepInsertInternal (e : Separator) (level : Nat) (nodeAddr : GlobalAddress) : Option (Store L × Client L) :=
  let c := c.record level nodeAddr
  if level ≤ 1 then some (s, c.goto (.crashed .levelOne))
  else if level - 1 = e.level then some (s, c.goto (.internal e nodeAddr false))
  else
    match s.read nodeAddr with
    | .internal nd _ => some (c.attempt s (internalNodeSearch nd e.key false) fun
      | .invalid => (s, c)
      | .turnRight sib => (s, (c.record level sib).goto (.insertInternal e level sib))
      | .next level nodeAddr _ => (s.cacheNode nd, c.goto (.insertInternal e level nodeAddr)))
    | _ => none

/-- The lock of `internal_node_insert`. -/
def stepInternal (e : Separator) (nodeAddr : GlobalAddress) (fromCache : Bool) : Option (Store L × Client L) :=
  match s.read nodeAddr, nodeAddr with
  | .internal nd locked, .at a =>
    if locked then some (s, c)
    else some (s.write a (.internal nd true), c.goto (.internalLocked e a fromCache))
  | _, _ => none

/-- `internal_node_insert` on the locked node, up to the first remote write. -/
def stepInternalLocked (e : Separator) (a : Nat) (fromCache : Bool) : Option (Store L × Client L) :=
  match s.mem a with
  | .internal nd _ => some (c.attempt s (internalNodeInsert L nd e.key e.ptr fromCache e.level (.at s.next)) fun
    | .invalid => (s, c.goto (.internalUnlock e a none))
    | .turnRight sib => (s, c.goto (.internalUnlock e a (some sib)))
    | .write nd => (s, c.goto (.internalWrite e a nd))
    | .split x => (s.alloc, c.goto (.internalSplitSibling e a s.next x)))
  | _ => none

/-- The next step of a client. -/
def step [Arithmetic] (ch : Choice L) : Option (Store L × Client L) :=
  match c.pc with
  | .start => c.stepStart s ch
  | .visit p => c.stepVisit s p
  | .leaf p => c.stepLeaf s ch p
  | .leafLocked a p lock => c.stepLeafLocked s ch a p lock
  | .leafUnlock a lock next =>
    match s.mem a with
    | .leaf lf _ => some (s.write a (.leaf lf (some lock)), c.goto (.afterLeaf next))
    | _ => none
  | .leafWrite a w =>
    match s.mem a with
    | .leaf lf _ => some (s.write a (.leaf (w.apply lf) (some w.lock)), c.goto (.done kValueNull))
    | _ => none
  | .leafSplitSibling a new x => some (s.write new (.leaf x.right (some x.rightLock)), c.goto (.leafSplitWrite a new x))
  | .leafSplitWrite a new x =>
    some (s.write a (.leaf x.left (some x.leftLock)), c.updateParent x.isRoot 0 a x.splitKey new)
  | .newRoot level a splitKey sibling =>
    some ((s.write s.next (.internal (InternalNode.newRoot L level (.at a) splitKey (.at sibling)) false)).alloc,
      c.goto (.rootCas level a s.next splitKey sibling))
  | .rootCas level a root splitKey sibling =>
    if s.root = ⟨level + 1, .at a⟩ then some ({ s with root := ⟨level + 2, .at root⟩ }, c.goto (.done kValueNull))
    else some (s, c.goto (.insertInternal ⟨level + 1, splitKey, .at sibling⟩ s.root.level s.root.ptr))
  | .parent e => c.stepParent s ch e
  | .readRoot e => some (s, c.goto (.insertInternal e s.root.level s.root.ptr))
  | .insertInternal e level nodeAddr => c.stepInsertInternal s e level nodeAddr
  | .internal e nodeAddr fromCache => c.stepInternal s e nodeAddr fromCache
  | .internalLocked e a fromCache => c.stepInternalLocked s e a fromCache
  | .internalUnlock e a next =>
    match s.mem a with
    | .internal nd _ => some (s.write a (.internal nd false), c.goto (.afterInternal e next))
    | _ => none
  | .internalWrite _ a nd => some (s.write a (.internal nd false), c.goto (.done kValueNull))
  | .internalSplitSibling e a new x =>
    some (s.write new (.internal x.right false), c.goto (.internalSplitWrite e a new x))
  | .internalSplitWrite e a new x =>
    some (s.write a (.internal x.left false), c.updateParent x.isRoot e.level a x.splitKey new)
  | .done _ | .crashed _ => none

/-- The next step is the write of a leaf that stores the pair of the operation. -/
def writesLeaf : Bool :=
  match c.pc with
  | .leafWrite .. | .leafSplitWrite .. => true
  | _ => false

end Client

/-- The tree: the shared state and the clients in an operation. -/
structure Tree (L : Layout) where
  store : Store L
  clients : Nat → Option (Client L)

namespace Tree

inductive Action (L : Layout)
  /-- client `c` begins an operation -/
  | invoke (c : Nat) (request : Request) (key : Nat)
  /-- client `c` makes a step -/
  | step (c : Nat) (ch : Choice L)
  /-- client `c` returns -/
  | ret (c : Nat)

inductive Event
  | invoke (c : Nat) (request : Request) (key : Nat)
  /-- client `c` writes the leaf that holds its key now, with its value -/
  | write (c : Nat) (key : Nat) (v : Nat)
  | ret (c : Nat) (request : Request) (key : Nat) (v : Nat)
  deriving DecidableEq, Repr

/-- A step of the machine. -/
def step [Arithmetic] (s : Tree L) : Action L → Option (Tree L × List Event)
  | .invoke c request key =>
    match s.clients c with
    | none => some ({ s with clients := Function.update s.clients c (some ⟨request, key, fun _ => .null, .start⟩) },
        [.invoke c request key])
    | some _ => none
  | .step c ch =>
    match s.clients c with
    | none => none
    | some cl =>
      match cl.step s.store ch with
      | none => none
      | some (store, cl') => some ({ store, clients := Function.update s.clients c (some cl') },
          if cl.writesLeaf then [.write c cl.key cl.request.value] else [])
  | .ret c =>
    match s.clients c with
    | some cl =>
      match cl.pc with
      | .done v => some ({ s with clients := Function.update s.clients c none }, [.ret c cl.request cl.key v])
      | _ => none
    | none => none

/-- `Tree::Tree`: one leaf, which is the root. -/
def init [Arithmetic] (L : Layout) : Tree L where
  store := {
    mem := fun a =>
      match a, rootLeaf L with
      | 0, .ok (lf, lock) => .leaf lf (some lock)
      | _, _ => .free
    root := ⟨1, .at 0⟩
    next := 1
    cached := [] }
  clients _ := none

def machine [Arithmetic] (L : Layout) : Machine (Tree L) (Action L) Event := ⟨init L, step⟩

end Tree
end Chime

import Chime.FreshBlocks
import Chime.IndirectValues

/-!
# Values out of place, over the tree and the allocator

The calls of `Chime.IndirectValues` with the machine of the tree for the map of entries and the machine of the
allocators for the blocks. A step here is a step of the tree or of the allocators, or one of a call itself, which
writes or reads its block. The allocators serve the nodes of the tree as well. The block of a call is written before
the call on the tree begins; the source writes it under the lock of the leaf, where the pointer is not known to others
either. So the machine refines `Indirect.machine` (`Linked.step`): a step of the tree is one of the map of entries or
none, and what the allocators return for a block is `Allocatable`. The calls are those of a linearizable map of values
(`indirect_tree_linearizable`).
-/

namespace Chime
namespace IndirectTree

open SeqObject Indirect

variable {L : Layout}

/-! ## The machine -/

/-- Where a call stands. -/
inductive Place
  /-- before or after its call on the tree -/
  | outside (stage : Stage)
  /-- `dsm->alloc` has returned `addr` for its block -/
  | allocated (request : Request) (k : Nat) (addr : DsmAddress)
  /-- in its call on the tree, which writes `v` -/
  | inside (request : Request) (k v : Nat)

def Place.key : Place → Nat
  | .outside (.called _ k) | .outside (.written _ k _) | .outside (.found k _) | .outside (.finished _ k _) => k
  | .allocated _ k _ => k
  | .inside _ k _ => k

structure State (L : Layout) where
  tree : Tree L
  allocator : AllocState
  memory : DsmAddress → Option DataBlock
  calls : Nat → Option Place

inductive Action (L : Layout)
  | invoke (c : Nat) (request : Request) (k : Nat)
  /-- a step of the allocators; what it returns is for a node -/
  | alloc (a : AllocAction)
  /-- a step of the allocators that returns the block for the call of client `c` -/
  | allocBlock (c : Nat) (a : AllocAction)
  | writeBlock (c : Nat)
  /-- the call on the tree begins -/
  | enter (c : Nat)
  | tree (c : Nat) (ch : Choice L)
  /-- the call on the tree returns -/
  | leave (c : Nat)
  | readBlock (c : Nat)
  | ret (c : Nat)

inductive Event
  | call (e : Call (Request × Nat) Nat)
  | tree (e : Tree.Event)
  deriving DecidableEq, Repr

/-- The calls among the events. -/
def Event.call? : Event → Option (Call (Request × Nat) Nat)
  | .call e => some e
  | .tree _ => none

/-- The events of the tree. -/
def Event.tree? : Event → Option Tree.Event
  | .call _ => none
  | .tree e => some e

variable (P : Pools) (thread : Nat → ThreadId) (simulatedValLen : Nat)

/-- Where a call stands after its call on the tree, which gave `res`. -/
def returned (request : Request) (k res : Nat) : Stage :=
  match request with
  | .search => .found k res
  | _ => .finished request k res

def State.goto (s : State L) (c : Nat) (place : Option Place) : State L :=
  { s with calls := Function.update s.calls c place }

/-- The call on the tree, with `v` for the value. -/
def State.enter (s : State L) (c : Nat) (request : Request) (k v : Nat) : Option (State L × List Event) :=
  match Tree.step s.tree (.invoke c (withValue v request) k) with
  | some (tree, es) => some ({ s with tree }.goto c (some (.inside request k v)), es.map .tree)
  | none => none

def step (s : State L) : Action L → Option (State L × List Event)
  | .invoke c request k =>
    match s.calls c with
    | none => some (s.goto c (some (.outside (.called request k))), [.call (.invoke c (request, k))])
    | some _ => none
  | .alloc a =>
    match AllocState.step P s.allocator a with
    | some (allocator, _) => some ({ s with allocator }, [])
    | none => none
  | .allocBlock c a =>
    match AllocState.step P s.allocator a, s.calls c with
    | some (allocator, [.returned t addr size alignBit]), some (.outside (.called request k)) =>
      if request ≠ .search ∧ t = thread c ∧ size = dataBlockLen simulatedValLen ∧ alignBit = packedAddrAlignBit then
        some ({ s with allocator }.goto c (some (.allocated request k addr)), [])
      else none
    | _, _ => none
  | .writeBlock c =>
    match s.calls c with
    | some (.allocated request k addr) =>
      let memory := Function.update s.memory addr (some (.new simulatedValLen request.value))
      let v := (DataPointer.new (dataBlockLen simulatedValLen) addr).toUInt64
      some ({ s with memory }.goto c (some (.outside (.written request k v))), [])
    | _ => none
  | .enter c =>
    match s.calls c with
    | some (.outside (.called .search k)) => s.enter c .search k kValueNull
    | some (.outside (.written request k v)) => s.enter c request k v
    | _ => none
  | .tree c ch =>
    match s.calls c, Tree.step s.tree (.step c ch) with
    | some (.inside ..), some (tree, es) => some ({ s with tree }, es.map .tree)
    | _, _ => none
  | .leave c =>
    match s.calls c, Tree.step s.tree (.ret c) with
    | some (.inside request k _), some (tree, [.ret c' request' k' res]) =>
      some ({ s with tree }.goto c (some (.outside (returned request k res))), [.tree (.ret c' request' k' res)])
    | _, _ => none
  | .readBlock c =>
    match s.calls c with
    | some (.outside (.found k v)) =>
      if v = kValueNull then some (s.goto c (some (.outside (.finished .search k v))), [])
      else
        match readBlock simulatedValLen s.memory v with
        | some value => some (s.goto c (some (.outside (.finished .search k value))), [])
        | none => none
    | _ => none
  | .ret c =>
    match s.calls c with
    | some (.outside (.finished request k v)) => some (s.goto c none, [.call (.ret c (request, k) v)])
    | _ => none

def machine (L : Layout) : Machine (State L) (Action L) Event :=
  ⟨⟨Tree.init L, P.machine.init, fun _ => none, fun _ => none⟩, step P thread simulatedValLen⟩

/-- The keys are those of users, and the allocators serve requests of the tree. -/
def Guard (_ : State L) : Action L → Prop
  | .invoke _ _ k => kKeyMin ≤ k ∧ k < L.ghostKey
  | .alloc a | .allocBlock _ a => AllocState.TreeRequest a
  | _ => True

/-! ## The blocks -/

variable {P thread simulatedValLen}
variable {s s' : State L} {allocator allocator' : AllocState} {memory : DsmAddress → Option DataBlock}
  {calls : Nat → Option Place} {place : Option Place} {c k v : Nat} {request : Request} {addr : DsmAddress}
  {a : AllocAction} {es : List AllocEvent}

/-- An address that was returned for the block of a call. -/
def Taken (memory : DsmAddress → Option DataBlock) (calls : Nat → Option Place) (addr : DsmAddress) : Prop :=
  memory addr ≠ none ∨ ∃ c request k, calls c = some (.allocated request k addr)

/-- The blocks of the calls are among those that the allocators have returned. -/
structure BlocksOk (P : Pools) (simulatedValLen : Nat) (allocator : AllocState)
    (memory : DsmAddress → Option DataBlock) (calls : Nat → Option Place) : Prop where
  inv : allocator.Inv P
  unfreed : allocator.Unfreed P
  held : ∀ addr, Taken memory calls addr → ∃ t, ⟨addr, dataBlockLen simulatedValLen⟩ ∈ (allocator.clients t).blocks
  fresh : ∀ {c request k addr}, calls c = some (.allocated request k addr) → Allocatable memory addr
  apart : ∀ {c c' request request' k k' addr}, calls c = some (.allocated request k addr) →
    calls c' = some (.allocated request' k' addr) → c' = c

/-- A call that goes on, and has no block that waits to be written. -/
theorem allocated_of_update (hplace : ∀ request k addr, place ≠ some (.allocated request k addr)) {c' : Nat}
    (h : Function.update calls c place c' = some (.allocated request k addr)) :
    c' ≠ c ∧ calls c' = some (.allocated request k addr) := by
  rcases eq_or_ne c' c with rfl | hne
  · rw [Function.update_self] at h
    exact absurd h (hplace request k addr)
  · rw [Function.update_of_ne hne] at h
    exact ⟨hne, h⟩

theorem BlocksOk.goto (hb : BlocksOk P simulatedValLen allocator memory calls)
    (hplace : ∀ request k addr, place ≠ some (.allocated request k addr)) :
    BlocksOk P simulatedValLen allocator memory (Function.update calls c place) where
  inv := hb.inv
  unfreed := hb.unfreed
  held addr htaken := by
    rcases htaken with hmem | ⟨c', request, k, h⟩
    · exact hb.held addr (.inl hmem)
    · exact hb.held addr (.inr ⟨c', request, k, (allocated_of_update hplace h).2⟩)
  fresh h := hb.fresh (allocated_of_update hplace h).2
  apart h h' := hb.apart (allocated_of_update hplace h).2 (allocated_of_update hplace h').2

/-- **A step of the allocators** keeps what was returned, and returns nothing of it again. -/
theorem BlocksOk.alloc (hb : BlocksOk P simulatedValLen allocator memory calls) (ha : AllocState.TreeRequest a)
    (he : AllocState.step P allocator a = some (allocator', es)) :
    BlocksOk P simulatedValLen allocator' memory calls ∧ ∀ t addr size alignBit,
      es = [.returned t addr size alignBit] → 0 < size → ¬Taken memory calls addr := by
  obtain ⟨hsize, hok⟩ := hb.unfreed.allocOk hb.inv ha
  obtain ⟨hinv, -⟩ := hb.inv.step hsize hok he
  obtain ⟨hunfreed, hreturns⟩ := hb.unfreed.step hb.inv ha he
  refine ⟨⟨hinv, hunfreed, fun addr htaken => ?_, hb.fresh, hb.apart⟩, fun t addr size alignBit hes hpos htaken => ?_⟩
  · exact (hb.held addr htaken).imp fun _ => hreturns.mono
  · subst hes
    obtain ⟨t', ht'⟩ := hb.held addr htaken
    exact hreturns.fresh hinv hpos ht' (by simp [dataBlockLen]) rfl

/-- A block is returned for a call. -/
theorem BlocksOk.allocBlock (hnodes : P.memoryNodeNum ≤ 2 ^ mnIdBit)
    (hb : BlocksOk P simulatedValLen allocator memory calls) (ha : AllocState.TreeRequest a) {t : ThreadId}
    (he : AllocState.step P allocator a =
      some (allocator', [.returned t addr (dataBlockLen simulatedValLen) packedAddrAlignBit])) :
    BlocksOk P simulatedValLen allocator' memory (Function.update calls c (some (.allocated request k addr))) := by
  obtain ⟨hb', hnew⟩ := hb.alloc ha he
  have hfresh := hnew _ _ _ _ rfl (by simp [dataBlockLen])
  obtain ⟨hnode, hoff, halign⟩ := hb.inv.granted hb.unfreed ha he List.mem_cons_self
  have hnone : memory addr = none := by
    by_contra h
    exact hfresh (.inl h)
  have hcalls : ∀ {c' request' k' addr'},
      Function.update calls c (some (.allocated request k addr)) c' = some (.allocated request' k' addr') →
      (c' = c ∧ addr' = addr) ∨ (calls c' = some (.allocated request' k' addr') ∧ addr' ≠ addr) := by
    intro c' request' k' addr' h
    rcases eq_or_ne c' c with rfl | hne
    · rw [Function.update_self] at h
      cases h
      exact .inl ⟨rfl, rfl⟩
    · rw [Function.update_of_ne hne] at h
      exact .inr ⟨h, fun heq => hfresh (.inr ⟨c', _, _, heq ▸ h⟩)⟩
  refine ⟨hb'.inv, hb'.unfreed, fun addr' htaken => ?_, fun h => ?_, fun h h' => ?_⟩
  · rcases htaken with hmem | ⟨c', request', k', h⟩
    · exact hb'.held addr' (.inl hmem)
    · rcases hcalls h with ⟨-, rfl⟩ | ⟨h, -⟩
      · exact (hb.unfreed.step hb.inv ha he).2.mem
      · exact hb'.held addr' (.inr ⟨c', _, _, h⟩)
  · rcases hcalls h with ⟨-, rfl⟩ | ⟨h, -⟩
    · exact ⟨hnode.trans_le hnodes, hoff, halign, hnone⟩
    · exact hb.fresh h
  · rcases hcalls h with ⟨rfl, rfl⟩ | ⟨h, hne⟩ <;> rcases hcalls h' with ⟨rfl, heq⟩ | ⟨h', hne'⟩
    · rfl
    · exact absurd rfl hne'
    · exact absurd heq hne
    · exact hb.apart h h'

/-- The block of a call is written. -/
theorem BlocksOk.writeBlock (hb : BlocksOk P simulatedValLen allocator memory calls)
    (hc : calls c = some (.allocated request k addr)) {b : DataBlock}
    (hplace : ∀ request k addr, place ≠ some (.allocated request k addr)) :
    BlocksOk P simulatedValLen allocator (Function.update memory addr (some b)) (Function.update calls c place) where
  inv := hb.inv
  unfreed := hb.unfreed
  held addr' htaken := by
    rcases htaken with hmem | ⟨c', request', k', h⟩
    · rcases eq_or_ne addr' addr with rfl | hne
      · exact hb.held _ (.inr ⟨c, _, _, hc⟩)
      · rw [Function.update_of_ne hne] at hmem
        exact hb.held _ (.inl hmem)
    · exact hb.held _ (.inr ⟨c', _, _, (allocated_of_update hplace h).2⟩)
  fresh {c' request' k' addr'} h := by
    obtain ⟨hcc, h⟩ := allocated_of_update hplace h
    obtain ⟨hnode, hoff, halign, hnone⟩ := hb.fresh h
    have hne : addr' ≠ addr := fun heq => hcc (hb.apart hc (heq ▸ h))
    exact ⟨hnode, hoff, halign, by rwa [Function.update_of_ne hne]⟩
  apart h h' := hb.apart (allocated_of_update hplace h).2 (allocated_of_update hplace h').2

/-! ## Refinement -/

/-- A call, its call on the tree, and the call of `Indirect.machine`. -/
inductive PlaceOk : Option Place → Option (Phase (Request × Nat) Nat) → Option Stage → Prop
  | idle : PlaceOk none none none
  | outside {stage : Stage} : (∀ k v, stage ≠ .written .search k v) →
      PlaceOk (some (.outside stage)) none (some stage)
  | allocated {request : Request} {k : Nat} {addr : DsmAddress} : request ≠ .search →
      PlaceOk (some (.allocated request k addr)) none (some (.called request k))
  | searching {k v : Nat} :
      PlaceOk (some (.inside .search k v)) (some (.pending (.search, k))) (some (.called .search k))
  | writing {request : Request} {k v : Nat} : request ≠ .search →
      PlaceOk (some (.inside request k v)) (some (.pending (withValue v request, k))) (some (.written request k v))
  | searched {k v res : Nat} :
      PlaceOk (some (.inside .search k v)) (some (.taken (.search, k) res)) (some (.found k res))
  | stored {request : Request} {k v res : Nat} : request ≠ .search →
      PlaceOk (some (.inside request k v)) (some (.taken (withValue v request, k) res))
        (some (.finished request k res))

theorem outside_ne {stage : Stage} (request : Request) (k : Nat) (addr : DsmAddress) :
    some (Place.outside stage) ≠ some (.allocated request k addr) := fun h => by cases h

theorem inside_ne {request' : Request} {k' v : Nat} (request : Request) (k : Nat) (addr : DsmAddress) :
    some (Place.inside request' k' v) ≠ some (.allocated request k addr) := fun h => by cases h

theorem PlaceOk.called {request : Request} {k : Nat} :
    PlaceOk (some (.outside (.called request k))) none (some (.called request k)) := .outside fun _ _ h => by cases h

theorem PlaceOk.finished {request : Request} {k v : Nat} :
    PlaceOk (some (.outside (.finished request k v))) none (some (.finished request k v)) :=
  .outside fun _ _ h => by cases h

variable {ht ht' : List Tree.Event} {es : List Event} {d d' : Directory} {stage : Option Stage} {tree' : Tree L}
  {m m' : SeqObject.State (Nat → Option Nat) (Request × Nat) Nat} {ts ts' : Indirect.State} {x : Action L}

/-- The tree stands for the map of entries, and the blocks are those of the allocators. -/
structure Linked (P : Pools) (simulatedValLen : Nat) (s : State L) (ht : List Tree.Event) (d : Directory)
    (m : SeqObject.State (Nat → Option Nat) (Request × Nat) Nat) (ts : Indirect.State) : Prop where
  tree : Simulated s.tree ht d m
  blocks : BlocksOk P simulatedValLen s.allocator s.memory s.calls
  entries : ts.entries = m.value
  memory : ts.memory = s.memory
  places : ∀ c, PlaceOk (s.calls c) (m.calls c) (ts.calls c)
  keys : ∀ {c place}, s.calls c = some place → kKeyMin ≤ place.key ∧ place.key < L.ghostKey

theorem places_update {phases phases' : Nat → Option (Phase (Request × Nat) Nat)} {stages : Nat → Option Stage}
    (h : ∀ c, PlaceOk (calls c) (phases c) (stages c)) (c : Nat) (place : Option Place) (stage : Option Stage)
    (hphases : ∀ c' ≠ c, phases' c' = phases c') (hok : PlaceOk place (phases' c) stage) (c' : Nat) :
    PlaceOk (Function.update calls c place c') (phases' c') (Function.update stages c stage c') := by
  rcases eq_or_ne c' c with rfl | hne
  · rwa [Function.update_self, Function.update_self]
  · rw [Function.update_of_ne hne, Function.update_of_ne hne, hphases c' hne]
    exact h c'

theorem keys_update {p : Place → Prop} (h : ∀ {c place}, calls c = some place → p place)
    (hplace : ∀ new, place = some new → p new) {c' : Nat} {old : Place}
    (hc : Function.update calls c place c' = some old) : p old := by
  rcases eq_or_ne c' c with rfl | hne
  · rw [Function.update_self] at hc
    exact hplace old hc
  · rw [Function.update_of_ne hne] at hc
    exact h hc

/-- A call goes on, and its call on the tree. -/
theorem Linked.call (hl : Linked P simulatedValLen s ht d m ts) (c : Nat) (place : Option Place)
    (stage : Option Stage) (htree : Simulated tree' ht' d' m') (hm : ∀ c' ≠ c, m'.calls c' = m.calls c')
    (hok : PlaceOk place (m'.calls c) stage)
    (hplace : ∀ request k addr, place ≠ some (.allocated request k addr))
    (hkey : ∀ new, place = some new → kKeyMin ≤ new.key ∧ new.key < L.ghostKey) :
    Linked P simulatedValLen ({ s with tree := tree' }.goto c place) ht' d' m'
      ({ ts with entries := m'.value }.goto c stage) where
  tree := htree
  blocks := hl.blocks.goto hplace
  entries := rfl
  memory := hl.memory
  places := places_update hl.places c place stage hm hok
  keys := keys_update hl.keys hkey

/-- A call goes on outside the tree. -/
theorem Linked.goto (hl : Linked P simulatedValLen s ht d m ts) (c : Nat) (place : Option Place)
    (stage : Option Stage) (hok : PlaceOk place (m.calls c) stage)
    (hplace : ∀ request k addr, place ≠ some (.allocated request k addr))
    (hkey : ∀ new, place = some new → kKeyMin ≤ new.key ∧ new.key < L.ghostKey) :
    Linked P simulatedValLen (s.goto c place) ht d m (ts.goto c stage) := by
  have h := hl.call c place stage hl.tree (fun _ _ => rfl) hok hplace hkey
  rwa [← hl.entries] at h

theorem Linked.place_ok (hl : Linked P simulatedValLen s ht d m ts) (hc : s.calls c = place) :
    ∃ phase stage, m.calls c = phase ∧ ts.calls c = stage ∧ PlaceOk place phase stage :=
  ⟨_, _, rfl, rfl, hc ▸ hl.places c⟩

theorem goto_self (ts : Indirect.State) (hc : ts.calls c = stage) : ts.goto c stage = ts := by
  rw [Indirect.State.goto, ← hc, Function.update_eq_self]

@[simp] theorem tree_events (es : List Tree.Event) : (es.map Event.tree).filterMap Event.tree? = es := by
  induction es with
  | nil => rfl
  | cons e es ih => simp [Event.tree?, ih]

@[simp] theorem tree_calls (es : List Tree.Event) : (es.map Event.tree).filterMap Event.call? = [] := by
  induction es with
  | nil => rfl
  | cons e es ih => simp [Event.call?]

/-- The state after a step is linked again, after a step of `Indirect.machine` with the same calls or none. -/
def Matched (P : Pools) (simulatedValLen : Nat) (ts : Indirect.State) (ht : List Tree.Event) (s' : State L)
    (es : List Event) : Prop :=
  ∃ d' m' ts', Linked P simulatedValLen s' (es.filterMap Event.tree? ++ ht) d' m' ts' ∧
    ∀ h, (Indirect.machine simulatedValLen).Steps (fun _ _ => True) ts h ts' (es.filterMap Event.call? ++ h)

theorem Linked.stay (hl : Linked P simulatedValLen s' (es.filterMap Event.tree? ++ ht) d m ts)
    (hcall : es.filterMap Event.call? = []) : Matched P simulatedValLen ts ht s' es :=
  ⟨d, m, ts, hl, fun h => by rw [hcall]; exact .refl⟩

theorem Linked.one (hl : Linked P simulatedValLen s' (es.filterMap Event.tree? ++ ht) d m ts')
    {y : Indirect.Action} (he : Indirect.step simulatedValLen ts y = some (ts', es.filterMap Event.call?)) :
    Matched P simulatedValLen ts ht s' es :=
  ⟨d, m, ts', hl, fun _ => .step y .refl trivial he⟩

/-- The block of a call is written. -/
theorem Linked.writeBlock (hl : Linked P simulatedValLen s ht d m ts)
    (hc : s.calls c = some (.allocated request k addr)) (hr : request ≠ .search) {b : DataBlock} :
    Linked P simulatedValLen
      ({ s with memory := Function.update s.memory addr (some b) }.goto c (some (.outside (.written request k v))))
      ht d m ({ ts with memory := Function.update ts.memory addr (some b) }.goto c (some (.written request k v))) := by
  have hkey : kKeyMin ≤ k ∧ k < L.ghostKey := hl.keys hc
  obtain ⟨_, _, hphase, -, hok⟩ := hl.place_ok hc
  cases hok
  have hplaces := places_update hl.places c (some (.outside (.written request k v))) (some (.written request k v))
    (fun _ _ => rfl)
    (hphase ▸ .outside fun _ _ h => hr (Stage.written.inj h).1)
  refine ⟨hl.tree, hl.blocks.writeBlock hc outside_ne, hl.entries, ?_, hplaces,
    keys_update hl.keys fun _ hnew => by cases hnew; exact hkey⟩
  simp only [Indirect.State.goto, State.goto, hl.memory]

/-- **The call on the tree begins.** -/
theorem Linked.enter (h3 : 3 ≤ L.internalSpanSize) (hl : Linked P simulatedValLen s ht d m ts)
    (hkey : kKeyMin ≤ k ∧ k < L.ghostKey) (honce : Tree.InsertsOnce (es.filterMap Event.tree? ++ ht))
    (hok : PlaceOk (some (.inside request k v)) (some (.pending (withValue v request, k))) (ts.calls c))
    (he : s.enter c request k v = some (s', es)) : Matched P simulatedValLen ts ht s' es := by
  simp only [State.enter] at he
  split at he
  · rename_i tree' es' hstep
    cases he
    rw [tree_events] at honce
    obtain ⟨d', m', hsim, hmap⟩ := hl.tree.step h3 (x := .invoke c (withValue v request) k) hkey honce hstep
    cases hmap with
    | invoke hc =>
      have hnext := hl.call c (some (.inside request k v)) (ts.calls c) hsim
        (fun c' hne => m.set_of_ne _ hne _) ((m.set_self ..).symm ▸ hok) inside_ne (fun _ h => by cases h; exact hkey)
      rw [SeqObject.State.set_value, ← hl.entries, goto_self _ rfl] at hnext
      exact Linked.stay (by rwa [tree_events]) (tree_calls _)
  · cases he

/-- **A step of the tree** is one of the map of entries, or none. -/
theorem Linked.treeStep (h3 : 3 ≤ L.internalSpanSize) (hl : Linked P simulatedValLen s ht d m ts) {ch : Choice L}
    {es : List Tree.Event} (hc : s.calls c = some (.inside request k v)) (honce : Tree.InsertsOnce (es ++ ht))
    (hstep : Tree.step s.tree (.step c ch) = some (tree', es)) :
    Matched P simulatedValLen ts ht { s with tree := tree' } (es.map .tree) := by
  obtain ⟨d', m', hsim, hmap⟩ := hl.tree.step h3 (x := .step c ch) trivial honce hstep
  have hgoto : { s with tree := tree' } = { s with tree := tree' }.goto c (some (.inside request k v)) := by
    rw [State.goto, ← hc, Function.update_eq_self]
  cases hmap with
  | move _ hadv =>
    rw [hgoto]
    rcases hadv with rfl | ⟨op, entries, res, hpending, happly, rfl⟩
    · have hnext := hl.call c (some (.inside request k v)) (ts.calls c) hsim (fun _ _ => rfl)
        (hc ▸ hl.places c) inside_ne fun _ h => hl.keys (hc.trans h)
      rw [← hl.entries, goto_self _ rfl] at hnext
      exact Linked.stay (by rwa [tree_events]) (tree_calls _)
    · obtain ⟨phase, stage, hphase, hstage, hok⟩ := hl.place_ok hc
      rw [hpending] at hphase
      subst hphase
      rw [← hl.entries] at happly
      cases hok with
      | searching =>
        have hnext := hl.call c (some (.inside .search k v)) (some (.found k res)) hsim
          (fun c' hne => m.set_of_ne _ hne _) ((m.set_self ..).symm ▸ .searched) inside_ne
          fun _ h => hl.keys (hc.trans h)
        refine Linked.one (y := .point c) (by rwa [tree_events]) ?_
        simp only [Indirect.step, hstage, happly, tree_calls, SeqObject.State.set_value]
      | writing hr =>
        have hnext := hl.call c (some (.inside request k v)) (some (.finished request k res))
          hsim (fun c' hne => m.set_of_ne _ hne _) ((m.set_self ..).symm ▸ .stored hr) inside_ne
          fun _ h => hl.keys (hc.trans h)
        refine Linked.one (y := .point c) (by rwa [tree_events]) ?_
        simp only [Indirect.step, hstage, happly, tree_calls, SeqObject.State.set_value]

/-- **The call on the tree returns**, with what the map of entries gave. -/
theorem Linked.leave (h3 : 3 ≤ L.internalSpanSize) (hl : Linked P simulatedValLen s ht d m ts)
    {request' : Request} {c' k' res : Nat} (hc : s.calls c = some (.inside request k v))
    (honce : Tree.InsertsOnce ([.ret c' request' k' res] ++ ht))
    (hstep : Tree.step s.tree (.ret c) = some (tree', [.ret c' request' k' res])) :
    Matched P simulatedValLen ts ht ({ s with tree := tree' }.goto c (some (.outside (returned request k res))))
      [.tree (.ret c' request' k' res)] := by
  obtain ⟨d', m', hsim, hmap⟩ := hl.tree.step h3 (x := .ret c) trivial honce hstep
  have hkey : kKeyMin ≤ k ∧ k < L.ghostKey := hl.keys hc
  cases hmap with
  | ret htaken =>
    obtain ⟨phase, stage, hphase, hstage, hok⟩ := hl.place_ok hc
    rw [htaken] at hphase
    subst hphase
    have hok' : PlaceOk (some (.outside (returned request k res))) none stage := by
      cases hok with
      | searched => exact .outside fun _ _ h => by cases h
      | stored hr =>
        cases request with
        | insert | update => exact .finished
        | search => exact absurd rfl hr
    have hnext := hl.call c (some (.outside (returned request k res))) (ts.calls c) hsim
      (fun c' hne => m.set_of_ne _ hne _) ((m.set_self ..).symm ▸ hstage ▸ hok') outside_ne fun new hnew => by
        cases hnew
        cases request <;> exact hkey
    rw [SeqObject.State.set_value, ← hl.entries, goto_self _ rfl] at hnext
    exact Linked.stay hnext rfl

/-- **Every step** is a step of `Indirect.machine`, or none. -/
theorem Linked.step (h3 : 3 ≤ L.internalSpanSize) (hnodes : P.memoryNodeNum ≤ 2 ^ mnIdBit)
    (hl : Linked P simulatedValLen s ht d m ts) (hg : Guard s x)
    (honce : Tree.InsertsOnce (es.filterMap Event.tree? ++ ht))
    (he : IndirectTree.step P thread simulatedValLen s x = some (s', es)) : Matched P simulatedValLen ts ht s' es := by
  cases x with
  | invoke c request k =>
    simp only [IndirectTree.step] at he
    split at he
    · rename_i hc
      cases he
      obtain ⟨_, _, hphase, hstage, hok⟩ := hl.place_ok hc
      cases hok
      have hnext := hl.goto c (some (.outside (.called request k))) (some (.called request k))
        (hphase ▸ .called) outside_ne fun _ h => by cases h; exact hg
      exact Linked.one (y := .invoke c request k) hnext (by simp only [Indirect.step, hstage]; rfl)
    · cases he
  | alloc a =>
    simp only [IndirectTree.step] at he
    split at he
    · rename_i allocator' _ halloc
      cases he
      have hnext : Linked P simulatedValLen { s with allocator := allocator' } ht d m ts :=
        ⟨hl.tree, (hl.blocks.alloc hg halloc).1, hl.entries, hl.memory, hl.places, hl.keys⟩
      exact Linked.stay hnext rfl
    · cases he
  | allocBlock c a =>
    simp only [IndirectTree.step] at he
    split at he
    · rename_i allocator' t addr size alignBit request k halloc hc
      split at he
      · rename_i hblock
        obtain ⟨hr, -, rfl, rfl⟩ := hblock
        cases he
        have hkey : kKeyMin ≤ k ∧ k < L.ghostKey := hl.keys hc
        obtain ⟨_, _, hphase, hstage, hok⟩ := hl.place_ok hc
        cases hok
        have hplaces := places_update hl.places c (some (.allocated request k addr)) (some (.called request k))
          (fun _ _ => rfl) (hphase ▸ .allocated hr)
        rw [← hstage, Function.update_eq_self] at hplaces
        have hnext : Linked P simulatedValLen
            ({ s with allocator := allocator' }.goto c (some (.allocated request k addr))) ht d m ts :=
          ⟨hl.tree, hl.blocks.allocBlock hnodes hg halloc, hl.entries, hl.memory, hplaces,
            keys_update hl.keys fun _ hnew => by cases hnew; exact hkey⟩
        exact Linked.stay hnext rfl
      · cases he
    · cases he
  | writeBlock c =>
    simp only [IndirectTree.step] at he
    split at he
    · rename_i request k addr hc
      cases he
      obtain ⟨_, _, -, hstage, hok⟩ := hl.place_ok hc
      cases hok with | allocated hr =>
      have hfree := hl.blocks.fresh hc
      rw [← hl.memory] at hfree
      refine Linked.one (y := .writeBlock c addr) (hl.writeBlock hc hr) ?_
      simp only [Indirect.step, hstage]
      rw [if_pos ⟨hr, hfree⟩]
      rfl
    · cases he
  | enter c =>
    simp only [IndirectTree.step] at he
    split at he
    · rename_i k hc
      obtain ⟨_, _, hphase, hstage, hok⟩ := hl.place_ok hc
      cases hok
      exact hl.enter h3 (hl.keys hc) honce (hstage ▸ .searching) he
    · rename_i request k v hc
      obtain ⟨_, _, hphase, hstage, hok⟩ := hl.place_ok hc
      cases hok with | outside hw =>
      exact hl.enter h3 (hl.keys hc) honce (hstage ▸ .writing fun hr => hw k v (hr ▸ rfl)) he
    · cases he
  | tree c ch =>
    simp only [IndirectTree.step] at he
    split at he
    · rename_i hc hstep
      cases he
      rw [tree_events] at honce
      exact hl.treeStep h3 hc honce hstep
    · cases he
  | leave c =>
    simp only [IndirectTree.step] at he
    split at he
    · rename_i hc hstep
      cases he
      exact hl.leave h3 hc honce hstep
    · cases he
  | readBlock c =>
    simp only [IndirectTree.step] at he
    split at he
    · rename_i k v hc
      have hkey : kKeyMin ≤ k ∧ k < L.ghostKey := hl.keys hc
      obtain ⟨_, _, hphase, hstage, hok⟩ := hl.place_ok hc
      cases hok
      have hnext (w : Nat) := hl.goto c (some (.outside (.finished .search k w))) (some (.finished .search k w))
        (hphase ▸ .finished) outside_ne fun _ hnew => by
          cases hnew
          exact hkey
      split at he
      · rename_i hnull
        cases he
        exact Linked.one (y := .readBlock c) (hnext v) (by simp only [Indirect.step, hstage]; rw [if_pos hnull]; rfl)
      · rename_i hnull
        split at he
        · rename_i value hread
          cases he
          refine Linked.one (y := .readBlock c) (hnext value) ?_
          simp only [Indirect.step, hstage, hl.memory, hread]
          rw [if_neg hnull]
          rfl
        · cases he
    · cases he
  | ret c =>
    simp only [IndirectTree.step] at he
    split at he
    · rename_i request k v hc
      cases he
      obtain ⟨_, _, hphase, hstage, hok⟩ := hl.place_ok hc
      cases hok
      have hnext := hl.goto c none none (hphase ▸ .idle) (fun _ _ _ h => by cases h) fun _ h => by cases h
      exact Linked.one (y := .ret c) hnext (by simp only [Indirect.step, hstage]; rfl)
    · cases he

/-- The guard, as a check. -/
def guardChecked (_ : State L) : Action L → Bool
  | .invoke _ _ k => kKeyMin ≤ k ∧ k < L.ghostKey
  | .alloc a | .allocBlock _ a => AllocState.treeRequestChecked a
  | _ => true

/-- Two clients of one thread. The first one inserts a key, with a block from a new chunk, and updates it, with the next
block of the chunk, while the second one has found the entry and not yet read the block. -/
def overtaken : List (Action .small) :=
  let t := AllocState.sampleThread
  let len := dataBlockLen 8
  let walk (c n : Nat) : List (Action .small) := List.replicate n (.tree c ⟨none, LeafNode.empty, none⟩)
  [.invoke 0 (.insert 11) 5, .alloc (.alloc t len 8), .alloc (.serve t), .allocBlock 0 (.resume t), .writeBlock 0,
    .enter 0] ++ walk 0 5 ++ [.leave 0, .ret 0, .invoke 1 .search 5, .enter 1] ++ walk 1 3 ++ [.leave 1,
    .invoke 0 (.update 12) 5, .allocBlock 0 (.alloc t len 8), .writeBlock 0, .enter 0] ++ walk 0 5 ++ [.leave 0, .ret 0,
    .readBlock 1, .ret 1]

def overtakenHistory : List Event :=
  let v := 2 ^ 40 + 24
  let v' := v + 2 ^ 24
  [.call (.ret 1 (.search, 5) 11), .call (.ret 0 (.update 12, 5) 0), .tree (.ret 0 (.update v') 5 0),
    .tree (.write 0 5 v'), .tree (.invoke 0 (.update v') 5), .call (.invoke 0 (.update 12, 5)),
    .tree (.ret 1 .search 5 v), .tree (.invoke 1 .search 5), .call (.invoke 1 (.search, 5)),
    .call (.ret 0 (.insert 11, 5) 0), .tree (.ret 0 (.insert v) 5 0), .tree (.write 0 5 v),
    .tree (.invoke 0 (.insert v) 5), .call (.invoke 0 (.insert 11, 5))]

end IndirectTree
end Chime

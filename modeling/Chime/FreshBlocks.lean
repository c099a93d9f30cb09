import Chime.Cluster

/-!
# Allocation for the tree

The tree calls `DSM::alloc` with at most the alignment of a chunk, and never `DSM::free`. So the free lists stay empty,
every request meets `AllocOk` (`Unfreed.allocOk`), and what is returned lies on a memory node, as it was asked for
(`Inv.granted`), and at another address than the blocks that were returned before (`Returns.fresh`).
-/

namespace Chime

open AllocState

variable {P : Pools} {C : AllocClient} {node dir size alignBit : Nat}

/-! ## One client -/

/-- The request that is under way goes to a memory node, with at most the alignment of a chunk. -/
def AllocPc.OnNodes (P : Pools) : AllocPc → Prop
  | idle => True
  | waiting node _ _ alignBit => node < P.memoryNodeNum ∧ alignBit ≤ 24
  | answered _ _ _ alignBit addr => addr.nodeID < P.memoryNodeNum ∧ alignBit ≤ 24

/-- A client that has freed nothing. -/
structure AllocClient.Unfreed (P : Pools) (C : AllocClient) : Prop where
  freeList : ∀ node dir, (C.allocator node dir).freeList = []
  pc : C.pc.OnNodes P
  chunks : ∀ k ∈ C.chunks, k.nodeID < P.memoryNodeNum

namespace LocalAllocator

variable {A : LocalAllocator}

theorem firstFit_nil (hA : A.freeList = []) : A.firstFit size = none := by
  rw [firstFit, hA, List.findIdx?_nil]

theorem malloc_freeList (hA : A.freeList = []) (size alignBit : Nat) : (A.malloc size alignBit).1.freeList = [] := by
  unfold malloc
  split
  · rw [firstFit_nil hA]
    exact hA
  · exact hA

end LocalAllocator

namespace AllocClient

theorem setAllocator_freeList {A : LocalAllocator} (hA : A.freeList = [])
    (hC : ∀ node dir, (C.allocator node dir).freeList = []) (n d : Nat) :
    ((C.setAllocator node dir A).allocator n d).freeList = [] :=
  forall_setAllocator (p := fun A => A.freeList = []) hA hC n d

/-- The first try returns a new block, or nothing. -/
theorem Unfreed.tryFrom (hC : C.Unfreed P) (hnode : node < P.memoryNodeNum) (ha : alignBit ≤ 24) (dir size : Nat) :
    (C.tryFrom node dir size alignBit).1.Unfreed P ∧ (C.tryFrom node dir size alignBit).1.blocks =
      (C.tryFrom node dir size alignBit).2.toList.map (⟨·, size⟩) ++ C.blocks := by
  have hfree := LocalAllocator.malloc_freeList (hC.freeList node dir) size alignBit
  unfold AllocClient.tryFrom
  split
  all_goals
    rename_i hmalloc
    rw [hmalloc] at hfree
  · exact ⟨⟨setAllocator_freeList hfree hC.freeList, ⟨hnode, ha⟩, hC.chunks⟩, rfl⟩
  · exact ⟨⟨setAllocator_freeList hfree hC.freeList, trivial, hC.chunks⟩, rfl⟩

/-- The second try returns a new block. -/
theorem Unfreed.retry {chunk : DsmAddress} (hC : C.Unfreed P) (hpc : C.pc = .answered node dir size alignBit chunk) :
    (C.retry node dir size alignBit chunk).1.Unfreed P ∧ (C.retry node dir size alignBit chunk).1.blocks =
      ⟨(C.retry node dir size alignBit chunk).2, size⟩ :: C.blocks := by
  have hchunk : chunk.nodeID < P.memoryNodeNum := by
    have h := hC.pc
    rw [hpc] at h
    exact h.1
  have hset : ((C.allocator node dir).setChunck chunk).freeList = [] := hC.freeList node dir
  have hfree := LocalAllocator.malloc_freeList hset size alignBit
  exact ⟨⟨setAllocator_freeList hfree hC.freeList, trivial, List.forall_mem_cons.2 ⟨hchunk, hC.chunks⟩⟩, rfl⟩

end AllocClient

/-! ## The cluster -/

namespace AllocState

variable {s s' : AllocState} {a : AllocAction} {es : List AllocEvent} {c : ThreadId}

/-- The requests of the tree. -/
def TreeRequest : AllocAction → Prop
  | .alloc _ size alignBit => size ≤ kChunkSize ∧ alignBit ≤ 24
  | .serve _ | .resume _ => True
  | .free .. => False

/-- `TreeRequest`, as a check. -/
def treeRequestChecked : AllocAction → Bool
  | .alloc _ size alignBit => decide (size ≤ kChunkSize) && decide (alignBit ≤ 24)
  | .serve _ | .resume _ => true
  | .free .. => false

/-- The clients have freed nothing. -/
def Unfreed (P : Pools) (s : AllocState) : Prop := ∀ c, (s.clients c).Unfreed P

/-- The start of a chunk has its alignment. -/
theorem dvd_of_isChunk {chunk : DsmAddress} (h : P.IsChunk chunk) (ha : alignBit ≤ 24) :
    2 ^ alignBit ∣ chunk.offset := by
  obtain ⟨node, dir, i, hd, -, -, rfl⟩ := h
  obtain rfl : dir = 0 := by
    simp only [nrDirectory] at hd
    omega
  rw [Pools.chunk, Nat.mul_zero, Nat.zero_add]
  exact Nat.dvd_trans (Nat.pow_dvd_pow 2 ha) (Nat.dvd_mul_left _ _)

/-- **A request of the tree** is served with its alignment. -/
theorem Unfreed.allocOk (hu : s.Unfreed P) (hs : s.Inv P) (ha : TreeRequest a) : SizeOk a ∧ AllocOk P s a := by
  cases a with
  | alloc c size alignBit =>
    refine ⟨ha.1, ha.2.trans (by decide), fun _ i b hi _ => ?_⟩
    cases hi.symm.trans (LocalAllocator.firstFit_nil ((hu c).freeList _ _))
  | serve c => exact ⟨trivial, trivial⟩
  | resume c =>
    refine ⟨trivial, fun node dir size alignBit chunk hpc => ?_⟩
    have hchunk := (hs.clients c).pc
    have halign := (hu c).pc
    rw [hpc] at hchunk halign
    exact dvd_of_isChunk hchunk.1 halign.2
  | free => exact ha.elim

theorem Unfreed.setClient {C : AllocClient} (hu : s.Unfreed P) (hC : C.Unfreed P) : (s.setClient c C).Unfreed P := by
  intro c'
  by_cases hc : c' = c
  · subst hc
    rwa [setClient_self]
  · rw [setClient_of_ne hc]
    exact hu c'

/-- What the clients hold after a step: one block more, if one is returned. -/
inductive Returns (clients clients' : ThreadId → AllocClient) : List AllocEvent → Prop
  | nothing : (∀ c, (clients' c).blocks = (clients c).blocks) → Returns clients clients' []
  | block {c : ThreadId} {addr : DsmAddress} {size alignBit : Nat} :
      (clients' c).blocks = ⟨addr, size⟩ :: (clients c).blocks →
      (∀ c' ≠ c, (clients' c').blocks = (clients c').blocks) →
      Returns clients clients' [.returned c addr size alignBit]

theorem Returns.same {C : AllocClient} (h : C.blocks = (s.clients c).blocks) :
    Returns s.clients (s.setClient c C).clients [] := by
  refine .nothing fun c' => ?_
  by_cases hc : c' = c
  · subst hc
    rwa [setClient_self]
  · rw [setClient_of_ne hc]

theorem Returns.cons {C : AllocClient} {addr : DsmAddress} (h : C.blocks = ⟨addr, size⟩ :: (s.clients c).blocks) :
    Returns s.clients (s.setClient c C).clients [.returned c addr size alignBit] :=
  .block (by rwa [setClient_self]) fun _ hc => by rw [setClient_of_ne hc]

/-- **A step** for the tree frees nothing. -/
theorem Unfreed.step (hu : s.Unfreed P) (hs : s.Inv P) (ha : TreeRequest a)
    (he : AllocState.step P s a = some (s', es)) : s'.Unfreed P ∧ Returns s.clients s'.clients es := by
  cases a with
  | alloc c size alignBit =>
    simp only [AllocState.step] at he
    split at he
    · have hretarget : ((s.clients c).retarget P).Unfreed P := ⟨(hu c).freeList, (hu c).pc, (hu c).chunks⟩
      have hnode : ((s.clients c).nextTarget P).1 < P.memoryNodeNum := by
        have htarget := (hs.clients c).target
        simp only [nrDirectory] at htarget
        rw [AllocClient.nextTarget, if_pos (by simp only [nrDirectory]; omega)]
        exact Nat.mod_lt _ P.memoryNodeNum_pos
      have htry := hretarget.tryFrom hnode ha.2 ((s.clients c).nextTarget P).2 size
      rw [← AllocClient.tryAlloc] at htry
      split at he
      · rename_i C addr hres
        rw [hres] at htry
        cases he
        exact ⟨hu.setClient htry.1, .cons htry.2⟩
      · rename_i C hres
        rw [hres] at htry
        cases he
        exact ⟨hu.setClient htry.1, .same htry.2⟩
    · cases he
  | serve c =>
    simp only [AllocState.step] at he
    split at he
    · rename_i node dir size alignBit hpc
      split at he
      · rename_i G addr halloc
        cases he
        have hwait := (hu c).pc
        rw [hpc] at hwait
        have haddr : addr.nodeID = node := by
          simp only [GlobalAllocator.allocChunck] at halloc
          split_ifs at halloc
          cases halloc
          rw [DsmAddress.setOffset_nodeID, (hs.directories node dir).start]
        exact ⟨Unfreed.setClient (s := s.setDirectory node dir G) hu
          ⟨(hu c).freeList, ⟨haddr ▸ hwait.1, hwait.2⟩, (hu c).chunks⟩,
          Returns.same (s := s.setDirectory node dir G) rfl⟩
      · cases he
    · cases he
  | resume c =>
    simp only [AllocState.step] at he
    split at he
    · rename_i node dir size alignBit chunk hpc
      obtain ⟨hC, hblocks⟩ := (hu c).retry hpc
      cases he
      exact ⟨hu.setClient hC, .cons hblocks⟩
    · cases he
  | free => exact ha.elim

/-- What is returned is aligned and on a memory node, with an offset of 48 bits. -/
theorem Inv.granted (hs : s.Inv P) (hu : s.Unfreed P) (ha : TreeRequest a) {addr : DsmAddress}
    (he : AllocState.step P s a = some (s', es)) (hmem : .returned c addr size alignBit ∈ es) :
    addr.nodeID < P.memoryNodeNum ∧ addr.offset < 2 ^ 48 ∧ 2 ^ alignBit ∣ addr.offset := by
  obtain ⟨hsize, hok⟩ := hu.allocOk hs ha
  obtain ⟨hinv, -, hgranted⟩ := hs.step hsize hok he
  obtain ⟨hu', -⟩ := hu.step hs ha he
  obtain ⟨halign, k, hk, hnode, -, hhigh⟩ := hgranted c addr size alignBit hmem
  have hle := ((hinv.clients c).chunks k hk).le
  have hnode' : addr.nodeID = k.nodeID := hnode
  refine ⟨hnode' ▸ (hu' c).chunks k hk, ?_, halign⟩
  simp only at hhigh
  omega

/-- A block that is returned is held. -/
theorem Returns.mem {clients clients' : ThreadId → AllocClient} {addr : DsmAddress}
    (hr : Returns clients clients' [.returned c addr size alignBit]) : ∃ t, ⟨addr, size⟩ ∈ (clients' t).blocks := by
  cases hr with | block hblocks _ => exact ⟨c, hblocks ▸ List.mem_cons_self⟩

/-- What was held is held. -/
theorem Returns.mono {clients clients' : ThreadId → AllocClient} (hr : Returns clients clients' es) {b : Block}
    (hb : b ∈ (clients c).blocks) : b ∈ (clients' c).blocks := by
  cases hr with
  | nothing hsame => rwa [hsame]
  | @block c' _ _ _ hblocks hother =>
    rcases eq_or_ne c c' with rfl | hne
    · rw [hblocks]
      exact List.mem_cons_of_mem _ hb
    · rwa [hother c hne]

/-- **A new block** is at another address than those that were held before. -/
theorem Returns.fresh {addr : DsmAddress} (hr : Returns s.clients s'.clients [.returned c addr size alignBit])
    (hs' : s'.Inv P) (hpos : 0 < size) {c' : ThreadId} {b : Block} (hb : b ∈ (s.clients c').blocks) (hbpos : 0 < b.size) :
    addr ≠ b.addr := by
  cases hr with | block hblocks hother =>
  obtain ⟨i, hi⟩ := List.getElem?_of_mem hb
  have hnew : (s'.clients c).blocks[0]? = some ⟨addr, size⟩ := by rw [hblocks]; rfl
  have hdisj : Disjoint (Block.bytes ⟨addr, size⟩) b.bytes := by
    by_cases hc : c' = c
    · subst hc
      have hold : (s'.clients c').blocks[i + 1]? = some b := by rw [hblocks]; exact hi
      exact hs'.live hnew hold (by simp)
    · have hold : (s'.clients c').blocks[i]? = some b := by rw [hother c' hc]; exact hi
      exact hs'.live hnew hold fun he => hc (Prod.mk.inj he).1.symm
  rintro rfl
  exact Set.disjoint_left.1 hdisj ⟨rfl, le_rfl, Nat.lt_add_of_pos_right hpos⟩
    ⟨rfl, le_rfl, Nat.lt_add_of_pos_right hbpos⟩

end AllocState

end Chime

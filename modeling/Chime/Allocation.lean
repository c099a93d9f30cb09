import Chime.Allocator
import Chime.Lib.Ownership

/-!
# What a client thread holds

A client holds its blocks, the entries of its free lists, the unused ends of its chunks and the chunk that a directory
has sent (`AllocClient.region`), all inside chunks that it was handed (`AllocClient.Ok`). A request and a `free` are a
`Transfer` of this memory (`tryFrom_spec`, `retry_spec`, `transfer_free`).
-/

namespace Chime

/-! ## Rounding -/

theorem kChunkSize_eq : kChunkSize = 16777216 := rfl

theorem gb_eq : gb = 1073741824 := rfl

theorem dvd_roundUp {x n : Nat} : 2 ^ n ∣ roundUp x n := Nat.dvd_mul_left _ _

theorem le_roundUp {x n : Nat} : x ≤ roundUp x n := by
  have hpos : 0 < 2 ^ n := Nat.two_pow_pos n
  have hdiv := Nat.div_add_mod (x + 2 ^ n - 1) (2 ^ n)
  have hmod := Nat.mod_lt (x + 2 ^ n - 1) hpos
  rw [Nat.mul_comm] at hdiv
  unfold roundUp
  omega

theorem roundUp_le {x n m : Nat} (hm : 2 ^ n ∣ m) (h : x ≤ m) : roundUp x n ≤ m := by
  obtain ⟨q, rfl⟩ := hm
  have hpos : 0 < 2 ^ n := Nat.two_pow_pos n
  have hlt : (x + 2 ^ n - 1) / 2 ^ n < q + 1 := by
    rw [Nat.div_lt_iff_lt_mul hpos, Nat.succ_mul, Nat.mul_comm]
    omega
  calc roundUp x n ≤ q * 2 ^ n := Nat.mul_le_mul_right _ (by omega)
    _ = 2 ^ n * q := Nat.mul_comm _ _

theorem roundUp_of_dvd {x n : Nat} (h : 2 ^ n ∣ x) : roundUp x n = x :=
  Nat.le_antisymm (roundUp_le h le_rfl) le_roundUp

/-! ## Bytes -/

namespace Block

/-- The addresses of a block. -/
def bytes (b : Block) : Set DsmAddress :=
  {x | x.nodeID = b.addr.nodeID ∧ b.addr.offset ≤ x.offset ∧ x.offset < b.addr.offset + b.size}

/-- The block lies inside the chunk. -/
def Inside (b : Block) (chunk : DsmAddress) : Prop :=
  b.addr.nodeID = chunk.nodeID ∧ chunk.offset ≤ b.addr.offset ∧ b.addr.offset + b.size ≤ chunk.offset + kChunkSize

theorem Inside.shrink {addr chunk : DsmAddress} {size size' : Nat} (h : Inside ⟨addr, size'⟩ chunk)
    (hle : size ≤ size') : Inside ⟨addr, size⟩ chunk :=
  ⟨h.1, h.2.1, by have := h.2.2; simp only at this ⊢; omega⟩

theorem bytes_shrink {addr : DsmAddress} {size size' : Nat} (hle : size ≤ size') :
    bytes ⟨addr, size⟩ ⊆ bytes ⟨addr, size'⟩ :=
  fun x hx => ⟨hx.1, hx.2.1, by have := hx.2.2; simp only at this ⊢; omega⟩

end Block

/-! ## Chunks -/

section Chunks

variable (P : Pools)

/-- The chunk with a number of a directory. -/
def Pools.chunk (node dir i : Nat) : DsmAddress := ⟨node, P.perDirectory * dir + i * kChunkSize⟩

/-- The chunks that the directories hand out: all but the first ones. -/
def Pools.IsChunk (addr : DsmAddress) : Prop :=
  ∃ node dir i, dir < nrDirectory ∧ 0 < i ∧ (i + 1) * kChunkSize ≤ P.perDirectory ∧ addr = P.chunk node dir i

variable {P} {addr : DsmAddress}

theorem Pools.le_of_dir {dir : Nat} (h : dir < nrDirectory) :
    P.perDirectory * dir + P.perDirectory ≤ P.dsmSize * gb := by
  have hle : dir + 1 ≤ nrDirectory := h
  calc P.perDirectory * dir + P.perDirectory = P.perDirectory * (dir + 1) := (Nat.mul_succ _ _).symm
    _ ≤ P.perDirectory * nrDirectory := Nat.mul_le_mul_left _ hle
    _ ≤ P.dsmSize * gb := Nat.div_mul_le_self _ _

/-- The size of a pool is a multiple of every alignment for which `ROUND_UP` is defined. -/
theorem Pools.dsmSize_le : P.dsmSize * gb ≤ 2 ^ 48 - 2 ^ 30 := by
  have := P.dsmSize_lt
  rw [gb_eq] at *
  omega

theorem Pools.IsChunk.le (h : P.IsChunk addr) : addr.offset + kChunkSize ≤ 2 ^ 48 - 2 ^ 30 := by
  obtain ⟨node, dir, i, hd, -, hi, rfl⟩ := h
  have h1 := Pools.le_of_dir (P := P) hd
  have h2 := P.dsmSize_le
  simp only [Pools.chunk]
  rw [Nat.succ_mul] at hi
  omega

theorem Pools.IsChunk.pos (h : P.IsChunk addr) : 0 < addr.offset := by
  obtain ⟨node, dir, i, -, hi, -, rfl⟩ := h
  have : 1 * kChunkSize ≤ i * kChunkSize := Nat.mul_le_mul_right _ hi
  rw [kChunkSize_eq] at this
  simp only [Pools.chunk, kChunkSize_eq]
  omega

theorem Pools.IsChunk.ne_null (h : P.IsChunk addr) : addr ≠ .null := fun he => by
  have := h.pos
  rw [he] at this
  exact absurd this (by decide)

/-- A block inside a chunk is not in the first chunk of a directory. -/
theorem Pools.IsChunk.not_first (h : P.IsChunk addr) {b : Block} (hb : b.Inside addr) (node dir : Nat)
    (hd : dir < nrDirectory) : Disjoint b.bytes (Block.bytes ⟨P.chunk node dir 0, kChunkSize⟩) := by
  obtain ⟨node', dir', i, hd', hi, -, rfl⟩ := h
  obtain rfl : dir = dir' := by simp only [nrDirectory] at hd hd'; omega
  refine Set.disjoint_left.2 fun x hx hx' => ?_
  have hle : 1 * kChunkSize ≤ i * kChunkSize := Nat.mul_le_mul_right _ hi
  have h1 := hb.2.1
  have h2 := hx.2.1
  have h3 := hx'.2.2
  simp only [Pools.chunk] at h1 h3
  omega

end Chunks

/-! ## One allocator -/

namespace LocalAllocator

/-- What is left of the chunk. -/
def unused (A : LocalAllocator) : Set DsmAddress :=
  {x | A.head ≠ .null ∧ x.nodeID = A.cur.nodeID ∧ A.cur.offset ≤ x.offset ∧ x.offset < A.head.offset + kChunkSize}

/-- The chunk and the free blocks are among the chunks that were handed out. -/
structure Ok (chunks : List DsmAddress) (A : LocalAllocator) : Prop where
  head : A.head ≠ .null → A.head ∈ chunks ∧ A.cur.nodeID = A.head.nodeID ∧ A.head.offset ≤ A.cur.offset
  free : ∀ b ∈ A.freeList, ∃ k ∈ chunks, b.Inside k
  cur_le : A.cur.offset ≤ 2 ^ 48 - 2 ^ 30

variable {P : Pools} {chunks : List DsmAddress} {A : LocalAllocator} {size alignBit : Nat}

theorem Ok.init : Ok [] LocalAllocator.init :=
  ⟨fun h => absurd rfl h, fun _ h => absurd h List.not_mem_nil, Nat.zero_le _⟩

theorem Ok.mono {chunks' : List DsmAddress} (hA : A.Ok chunks) (h : ∀ k ∈ chunks, k ∈ chunks') : A.Ok chunks' where
  head hne := ⟨h _ (hA.head hne).1, (hA.head hne).2⟩
  free b hb := let ⟨k, hk, hin⟩ := hA.free b hb; ⟨k, h k hk, hin⟩
  cur_le := hA.cur_le

/-- The rounding stays in the 48 bits. -/
theorem Ok.rounded_offset (hA : A.Ok chunks) (ha : alignBit ≤ 30) :
    (A.rounded alignBit).offset = roundUp A.cur.offset alignBit ∧
      (A.rounded alignBit).offset ≤ 2 ^ 48 - 2 ^ 30 := by
  have hdvd : 2 ^ alignBit ∣ 2 ^ 48 - 2 ^ 30 :=
    Nat.dvd_trans (Nat.pow_dvd_pow 2 ha) ⟨2 ^ 18 - 1, by decide⟩
  have hle := roundUp_le hdvd hA.cur_le
  have hoff : (A.rounded alignBit).offset = roundUp A.cur.offset alignBit := by
    unfold rounded
    split
    · rename_i h
      rw [h, roundUp_of_dvd (by simp)]
    · exact DsmAddress.setOffset_offset (by omega)
  exact ⟨hoff, hoff ▸ hle⟩

theorem rounded_nodeID : (A.rounded alignBit).nodeID = A.cur.nodeID := by
  unfold rounded
  split <;> rfl

/-- Rounding only loses memory. -/
theorem Ok.round (hA : A.Ok chunks) (ha : alignBit ≤ 30) :
    Ok chunks { A with cur := A.rounded alignBit } ∧ unused { A with cur := A.rounded alignBit } ⊆ A.unused := by
  obtain ⟨hoff, hle⟩ := hA.rounded_offset ha
  have hge : A.cur.offset ≤ (A.rounded alignBit).offset := hoff ▸ le_roundUp
  refine ⟨⟨fun hne => ?_, hA.free, hle⟩, fun x hx => ?_⟩
  · obtain ⟨hmem, hnode, hlow⟩ := hA.head hne
    exact ⟨hmem, rounded_nodeID.trans hnode, hlow.trans hge⟩
  · exact ⟨hx.1, hx.2.1.trans rounded_nodeID, hge.trans hx.2.2.1, hx.2.2.2⟩

/-- How a request is served: from the chunk, or from the free list. -/
inductive Serves (A : LocalAllocator) (addr : DsmAddress) (size : Nat) : LocalAllocator → Prop
  | bump {A' : LocalAllocator} (list : A'.freeList = A.freeList) (sub : A'.unused ⊆ A.unused)
      (bytes : Block.bytes ⟨addr, size⟩ ⊆ A.unused) (disjoint : Disjoint A'.unused (Block.bytes ⟨addr, size⟩)) :
      Serves A addr size A'
  | fit {A' : LocalAllocator} (i : Nat) (b : Block) (entry : A.freeList[i]? = some b)
      (list : A'.freeList = A.freeList.eraseIdx i) (sub : A'.unused ⊆ A.unused)
      (bytes : Block.bytes ⟨addr, size⟩ ⊆ b.bytes) : Serves A addr size A'

/-- The condition under which a request is served with its alignment: an entry of the free list has it. -/
def AlignedFit (A : LocalAllocator) (size alignBit : Nat) : Prop :=
  A.exhausted size alignBit = true → ∀ i b, A.firstFit size = some i → A.freeList[i]? = some b →
    2 ^ alignBit ∣ b.addr.offset

theorem not_exhausted (h : A.exhausted size alignBit = false) :
    A.head ≠ .null ∧ (A.rounded alignBit).offset + size ≤ A.head.offset + kChunkSize := by
  simpa [exhausted] using h

theorem firstFit_spec {i : Nat} (h : A.firstFit size = some i) : ∃ b, A.freeList[i]? = some b ∧ size ≤ b.size := by
  obtain ⟨hi, hsize, -⟩ := List.findIdx?_eq_some_iff_getElem.1 h
  exact ⟨_, List.getElem?_eq_getElem hi, by simpa using hsize⟩

/-- A request that the chunk serves. -/
theorem malloc_bump (hchunks : ∀ k ∈ chunks, P.IsChunk k) (hA : A.Ok chunks) (ha : alignBit ≤ 30)
    (h : A.exhausted size alignBit = false) :
    ∃ A', A.malloc size alignBit = (A', A.rounded alignBit, false) ∧ A'.Ok chunks ∧
      A.Serves (A.rounded alignBit) size A' ∧ Block.Inside ⟨A.rounded alignBit, size⟩ A.head ∧
      2 ^ alignBit ∣ (A.rounded alignBit).offset := by
  obtain ⟨hne, hle⟩ := not_exhausted h
  obtain ⟨hmem, hnode, hlow⟩ := hA.head hne
  obtain ⟨hoff, -⟩ := hA.rounded_offset ha
  have hge : A.cur.offset ≤ (A.rounded alignBit).offset := hoff ▸ le_roundUp
  have hchunk := (hchunks _ hmem).le
  have hbump : ((A.rounded alignBit).setOffset ((A.rounded alignBit).offset + size)).offset =
      (A.rounded alignBit).offset + size := DsmAddress.setOffset_offset (by omega)
  refine ⟨{ A with cur := (A.rounded alignBit).setOffset ((A.rounded alignBit).offset + size) },
    by rw [malloc, h]; rfl, ⟨fun _ => ⟨hmem, rounded_nodeID.trans hnode, ?_⟩, hA.free, ?_⟩,
    .bump rfl (fun x hx => ?_) (fun x hx => ?_) (Set.disjoint_left.2 fun x hx hx' => ?_),
    ⟨rounded_nodeID.trans hnode, hlow.trans hge, hle⟩, hoff ▸ dvd_roundUp⟩
  · simp only [hbump]
    omega
  · simp only [hbump]
    omega
  · have hx3 := hx.2.2.1
    simp only [hbump] at hx3
    exact ⟨hne, hx.2.1.trans rounded_nodeID, by omega, hx.2.2.2⟩
  · have hx3 := hx.2.2
    have hx2 := hx.2.1
    simp only at hx2 hx3
    exact ⟨hne, hx.1.trans rounded_nodeID, by omega, by omega⟩
  · have hx3 := hx.2.2.1
    have hx3' := hx'.2.2
    simp only [hbump] at hx3
    simp only at hx3'
    omega

/-- A request that the free list serves. -/
theorem malloc_fit (hA : A.Ok chunks) (ha : alignBit ≤ 30) (hex : A.exhausted size alignBit = true) {i : Nat}
    (hi : A.firstFit size = some i) :
    ∃ A' b, A.malloc size alignBit = (A', b.addr, false) ∧ A'.Ok chunks ∧ A.freeList[i]? = some b ∧
      A.Serves b.addr size A' ∧ ∃ k ∈ chunks, Block.Inside ⟨b.addr, size⟩ k := by
  obtain ⟨b, hb, hsize⟩ := firstFit_spec hi
  obtain ⟨hok, hsub⟩ := hA.round ha
  obtain ⟨k, hk, hin⟩ := hA.free b (List.mem_of_getElem? hb)
  refine ⟨{ A with cur := A.rounded alignBit, freeList := A.freeList.eraseIdx i },
    b, by simp only [malloc, hex, if_true, hi, hb, Option.map_some, Option.getD_some],
    ⟨hok.head, fun b' hb' => hA.free b' (List.mem_of_mem_eraseIdx hb'), hok.cur_le⟩, hb,
    .fit i b hb rfl hsub (Block.bytes_shrink hsize), k, hk, hin.shrink hsize⟩

/-- A request that needs a chunk. -/
theorem malloc_need (hA : A.Ok chunks) (ha : alignBit ≤ 30) (hex : A.exhausted size alignBit = true)
    (hi : A.firstFit size = none) :
    ∃ A' addr, A.malloc size alignBit = (A', addr, true) ∧ A'.Ok chunks ∧ A'.freeList = A.freeList ∧
      A'.unused ⊆ A.unused := by
  obtain ⟨hok, hsub⟩ := hA.round ha
  exact ⟨{ A with cur := A.rounded alignBit },
    A.rounded alignBit, by simp only [malloc, hex, if_true, hi], hok, rfl, hsub⟩

end LocalAllocator

/-! ## One client -/

/-- What a client holds. -/
inductive LocalHolder
  | block (i : Nat)
  | free (node dir i : Nat)
  | unused (node dir : Nat)
  | answer

/-- The chunk that a directory has sent. -/
def AllocPc.bytes : AllocPc → Set DsmAddress
  | answered _ _ _ _ addr => Block.bytes ⟨addr, kChunkSize⟩
  | _ => ∅

/-- The request that is under way. -/
def AllocPc.Ok (P : Pools) : AllocPc → Prop
  | idle => True
  | waiting _ dir size alignBit => dir < nrDirectory ∧ size ≤ kChunkSize ∧ alignBit ≤ 30
  | answered _ _ size alignBit addr => P.IsChunk addr ∧ size ≤ kChunkSize ∧ alignBit ≤ 30

namespace AllocClient

def region (C : AllocClient) : LocalHolder → Set DsmAddress
  | .block i => nth Block.bytes C.blocks i
  | .free node dir i => nth Block.bytes (C.allocator node dir).freeList i
  | .unused node dir => (C.allocator node dir).unused
  | .answer => C.pc.bytes

/-- Everything a client holds is inside chunks that it was handed. -/
structure Ok (P : Pools) (C : AllocClient) : Prop where
  allocators : ∀ node dir, (C.allocator node dir).Ok C.chunks
  blocks : ∀ b ∈ C.blocks, ∃ k ∈ C.chunks, b.Inside k
  chunks : ∀ k ∈ C.chunks, P.IsChunk k
  pc : C.pc.Ok P
  target : C.curTargetDirId < nrDirectory

variable {P : Pools} {C : AllocClient} {node dir node' dir' size alignBit : Nat} {A : LocalAllocator}
    {addr : DsmAddress}

theorem allocator_setAllocator : (C.setAllocator node dir A).allocator node' dir' =
    if node' = node ∧ dir' = dir then A else C.allocator node' dir' := rfl

@[simp] theorem allocator_setAllocator_self : (C.setAllocator node dir A).allocator node dir = A :=
  if_pos ⟨rfl, rfl⟩

@[simp] theorem setAllocator_blocks : (C.setAllocator node dir A).blocks = C.blocks := rfl

@[simp] theorem setAllocator_chunks : (C.setAllocator node dir A).chunks = C.chunks := rfl

@[simp] theorem setAllocator_pc : (C.setAllocator node dir A).pc = C.pc := rfl

@[simp] theorem obtain_allocator : (C.obtain addr size).allocator node dir = C.allocator node dir := rfl

/-- What a property of all allocators needs after one was replaced. -/
theorem forall_setAllocator {p : LocalAllocator → Prop} (hA : p A) (h : ∀ n d, p (C.allocator n d)) (n d : Nat) :
    p ((C.setAllocator node dir A).allocator n d) := by
  rw [allocator_setAllocator]
  split
  · exact hA
  · exact h n d

/-- Where the new owners take from when the chunk serves a request. -/
def fromUnused (node dir : Nat) : LocalHolder → LocalHolder
  | .block 0 => .unused node dir
  | .block (i + 1) => .block i
  | h => h

theorem fromUnused_eq {j k : LocalHolder} (hjk : j ≠ k) (h : fromUnused node dir j = fromUnused node dir k) :
    j = .block 0 ∧ k = .unused node dir ∨ j = .unused node dir ∧ k = .block 0 := by
  rcases j with (_ | _) | _ | _ | _ <;> rcases k with (_ | _) | _ | _ | _ <;> simp_all [fromUnused]

/-- Where they take from when an entry of the free list does. -/
def fromFree (node dir i : Nat) : LocalHolder → LocalHolder
  | .block 0 => .free node dir i
  | .block (j + 1) => .block j
  | .free n d j => .free n d (if n = node ∧ d = dir then shiftPast i j else j)
  | h => h

theorem fromFree_injective {i : Nat} : Function.Injective (fromFree node dir i) := by
  intro j k h
  rcases j with (_ | _) | ⟨n, d, j⟩ | _ | _ <;> rcases k with (_ | _) | ⟨n', d', k⟩ | _ | _ <;>
    simp only [fromFree, LocalHolder.free.injEq, LocalHolder.block.injEq, LocalHolder.unused.injEq, reduceCtorEq] at h ⊢
  · obtain ⟨rfl, rfl, h⟩ := h
    rw [if_pos ⟨rfl, rfl⟩] at h
    exact shiftPast_ne h.symm
  · exact congrArg _ h
  · obtain ⟨rfl, rfl, h⟩ := h
    rw [if_pos ⟨rfl, rfl⟩] at h
    exact shiftPast_ne h
  · obtain ⟨rfl, rfl, h⟩ := h
    refine ⟨rfl, rfl, ?_⟩
    split at h
    · exact shiftPast_injective h
    · exact h
  · exact h

section

variable {A' : LocalAllocator}

theorem unused_setAllocator (h : A'.unused ⊆ (C.allocator node dir).unused) (n d : Nat) :
    ((C.setAllocator node dir A').allocator n d).unused ⊆ (C.allocator n d).unused := by
  rw [allocator_setAllocator]
  split
  · rename_i heq
    obtain ⟨rfl, rfl⟩ := heq
    exact h
  · exact le_rfl

theorem freeList_setAllocator (h : A'.freeList = (C.allocator node dir).freeList) (n d : Nat) :
    ((C.setAllocator node dir A').allocator n d).freeList = (C.allocator n d).freeList := by
  rw [allocator_setAllocator]
  split
  · rename_i heq
    obtain ⟨rfl, rfl⟩ := heq
    exact h
  · rfl

/-- **A served request** is a transfer to the new block. -/
theorem transfer_obtain (h : (C.allocator node dir).Serves addr size A') :
    Transfer C.region ((C.setAllocator node dir A').obtain addr size).region := by
  cases h with
  | bump list sub bytes disjoint =>
    refine ⟨fromUnused node dir, fun h => ?_, fun j k hjk he => ?_⟩
    · rcases h with (_ | i) | ⟨n, d, i⟩ | ⟨n, d⟩ | _
      · exact nth_cons_zero.subset.trans bytes
      · exact le_rfl
      · simp only [region, fromUnused, obtain_allocator, freeList_setAllocator list]
        exact le_rfl
      · exact unused_setAllocator sub n d
      · exact Set.empty_subset _
    · have hnew : Disjoint (((C.setAllocator node dir A').obtain addr size).region (.unused node dir))
          (((C.setAllocator node dir A').obtain addr size).region (.block 0)) := by
        simp only [region, obtain_allocator, allocator_setAllocator_self]
        exact disjoint.mono_right nth_cons_zero.subset
      rcases fromUnused_eq hjk he with ⟨rfl, rfl⟩ | ⟨rfl, rfl⟩
      · exact hnew.symm
      · exact hnew
  | fit i b entry list sub bytes =>
    refine .of_injective (fromFree node dir i) fromFree_injective fun h => ?_
    rcases h with (_ | j) | ⟨n, d, j⟩ | ⟨n, d⟩ | _
    · exact nth_cons_zero.subset.trans (bytes.trans (nth_eq entry).superset)
    · exact le_rfl
    · simp only [region, fromFree, obtain_allocator, allocator_setAllocator]
      split
      · rename_i h
        obtain ⟨rfl, rfl⟩ := h
        rw [list, nth_eraseIdx]
      · exact le_rfl
    · exact unused_setAllocator sub n d
    · exact Set.empty_subset _

/-- A request that needs a chunk loses memory to the rounding. -/
theorem transfer_need (list : A'.freeList = (C.allocator node dir).freeList)
    (sub : A'.unused ⊆ (C.allocator node dir).unused) :
    Transfer C.region { C.setAllocator node dir A' with pc := .waiting node dir size alignBit }.region := by
  refine .of_subset fun h => ?_
  rcases h with i | ⟨n, d, i⟩ | ⟨n, d⟩ | _
  · exact le_rfl
  · exact (congrArg (nth Block.bytes · i) (freeList_setAllocator list n d)).subset
  · exact unused_setAllocator sub n d
  · exact Set.empty_subset _

end

/-- Where the new owners take from when the chunk that was sent becomes the chunk of the allocator. -/
def fromAnswer (node dir : Nat) : LocalHolder → LocalHolder
  | .unused n d => if n = node ∧ d = dir then .answer else .unused n d
  | h => h

theorem fromAnswer_eq {j k : LocalHolder} (hjk : j ≠ k) (h : fromAnswer node dir j = fromAnswer node dir k) :
    j = .answer ∨ k = .answer := by
  cases j <;> cases k <;> grind [fromAnswer]

/-- The client with the chunk that was sent to it. -/
def takeChunk (C : AllocClient) (node dir : Nat) (chunk : DsmAddress) : AllocClient :=
  { C.setAllocator node dir ((C.allocator node dir).setChunck chunk) with pc := .idle, chunks := chunk :: C.chunks }

theorem takeChunk_allocator {chunk : DsmAddress} :
    (C.takeChunk node dir chunk).allocator node dir = (C.allocator node dir).setChunck chunk :=
  if_pos ⟨rfl, rfl⟩

theorem takeChunk_setAllocator {chunk : DsmAddress} {A' : LocalAllocator} :
    (C.takeChunk node dir chunk).setAllocator node dir A' =
      { C.setAllocator node dir A' with pc := .idle, chunks := chunk :: C.chunks } := by
  simp only [setAllocator, takeChunk, AllocClient.mk.injEq, true_and, and_true]
  funext n d
  split <;> rfl

theorem transfer_takeChunk {chunk : DsmAddress} (hpc : C.pc.bytes = Block.bytes ⟨chunk, kChunkSize⟩) :
    Transfer C.region (C.takeChunk node dir chunk).region := by
  refine ⟨fromAnswer node dir, fun h => ?_, fun j k hjk he => ?_⟩
  · rcases h with i | ⟨n, d, i⟩ | ⟨n, d⟩ | _
    · exact le_rfl
    · have hlist : ((C.setAllocator node dir ((C.allocator node dir).setChunck chunk)).allocator n d).freeList =
          (C.allocator n d).freeList := by
        rw [freeList_setAllocator]
        rfl
      exact (congrArg (nth Block.bytes · i) hlist).subset
    · show ((C.setAllocator node dir ((C.allocator node dir).setChunck chunk)).allocator n d).unused ⊆ _
      rw [allocator_setAllocator, fromAnswer]
      split
      · rintro x ⟨-, hnode, hlow, hhigh⟩
        rw [region, hpc]
        exact ⟨hnode, hlow, hhigh⟩
      · exact le_rfl
    · exact Set.empty_subset _
  · have hempty : (C.takeChunk node dir chunk).region .answer = ∅ := rfl
    rcases fromAnswer_eq hjk he with rfl | rfl
    · rw [hempty]
      exact Set.empty_disjoint _
    · rw [hempty]
      exact Set.disjoint_empty _

/-! ### Requests -/

/-- A block as it was asked for. -/
def Granted (C : AllocClient) (addr : DsmAddress) (size alignBit : Nat) : Prop :=
  2 ^ alignBit ∣ addr.offset ∧ ∃ k ∈ C.chunks, Block.Inside ⟨addr, size⟩ k

theorem Ok.setAllocator {A' : LocalAllocator} (hC : C.Ok P) (hA' : A'.Ok C.chunks) :
    (C.setAllocator node dir A').Ok P :=
  ⟨fun n d => forall_setAllocator hA' hC.allocators n d, hC.blocks, hC.chunks, hC.pc, hC.target⟩

theorem Ok.obtain (hC : C.Ok P) (hin : ∃ k ∈ C.chunks, Block.Inside ⟨addr, size⟩ k) : (C.obtain addr size).Ok P :=
  ⟨hC.allocators, List.forall_mem_cons.2 ⟨hin, hC.blocks⟩, hC.chunks, trivial, hC.target⟩

theorem Ok.retarget (hC : C.Ok P) : (C.retarget P).Ok P where
  allocators := hC.allocators
  blocks := hC.blocks
  chunks := hC.chunks
  pc := hC.pc
  target := by
    have := hC.target
    simp only [AllocClient.retarget, nextTarget]
    split <;> simp_all [nrDirectory]

/-- **The first try**: a block as it was asked for, or a chunk is needed. -/
theorem tryFrom_spec (hC : C.Ok P) (hdir : dir < nrDirectory) (hsize : size ≤ kChunkSize) (ha : alignBit ≤ 30)
    (hfit : (C.allocator node dir).AlignedFit size alignBit) :
    ∃ C' result, C.tryFrom node dir size alignBit = (C', result) ∧ C'.Ok P ∧ Transfer C.region C'.region ∧
      C'.chunks = C.chunks ∧ ∀ addr, result = some addr → C'.Granted addr size alignBit := by
  have hA := hC.allocators node dir
  cases hex : (C.allocator node dir).exhausted size alignBit with
  | false =>
    obtain ⟨A', hmalloc, hA', hserves, hin, halign⟩ := LocalAllocator.malloc_bump hC.chunks hA ha hex
    obtain ⟨hhead, -⟩ := hA.head (LocalAllocator.not_exhausted hex).1
    refine ⟨_, _, by rw [tryFrom, hmalloc], (hC.setAllocator hA').obtain ⟨_, hhead, hin⟩, transfer_obtain hserves, rfl, ?_⟩
    rintro addr ⟨⟩
    exact ⟨halign, _, hhead, hin⟩
  | true =>
    cases hi : (C.allocator node dir).firstFit size with
    | some i =>
      obtain ⟨A', b, hmalloc, hA', hb, hserves, hin⟩ := LocalAllocator.malloc_fit hA ha hex hi
      refine ⟨_, _, by rw [tryFrom, hmalloc], (hC.setAllocator hA').obtain hin, transfer_obtain hserves, rfl, ?_⟩
      rintro addr ⟨⟩
      exact ⟨hfit hex i b hi hb, hin⟩
    | none =>
      obtain ⟨A', addr, hmalloc, hA', hlist, hsub⟩ := LocalAllocator.malloc_need hA ha hex hi
      have hok : (C.setAllocator node dir A').Ok P := hC.setAllocator hA'
      exact ⟨{ C.setAllocator node dir A' with pc := .waiting node dir size alignBit }, none, by rw [tryFrom, hmalloc],
        ⟨hok.allocators, hok.blocks, hok.chunks, ⟨hdir, hsize, ha⟩, hok.target⟩, transfer_need hlist hsub, rfl, nofun⟩

/-- **The second try** succeeds, with the whole chunk and its alignment. -/
theorem retry_spec {chunk : DsmAddress} (hC : C.Ok P) (hpc : C.pc = .answered node dir size alignBit chunk)
    (halign : 2 ^ alignBit ∣ chunk.offset) :
    ∃ C' addr, C.retry node dir size alignBit chunk = (C', addr) ∧ C'.Ok P ∧ Transfer C.region C'.region ∧
      C'.chunks = chunk :: C.chunks ∧ C'.Granted addr size alignBit := by
  obtain ⟨hchunk, hsize, ha⟩ : P.IsChunk chunk ∧ size ≤ kChunkSize ∧ alignBit ≤ 30 := by
    have := hC.pc
    rwa [hpc] at this
  have hbytes : C.pc.bytes = Block.bytes ⟨chunk, kChunkSize⟩ := by rw [hpc, AllocPc.bytes]
  have hA : ((C.allocator node dir).setChunck chunk).Ok (chunk :: C.chunks) := by
    refine ⟨fun _ => ⟨List.mem_cons_self, rfl, le_rfl⟩, fun b hb => ?_, ?_⟩
    · obtain ⟨k, hk, hin⟩ := (hC.allocators node dir).free b hb
      exact ⟨k, List.mem_cons_of_mem _ hk, hin⟩
    · have := hchunk.le
      simp only [LocalAllocator.setChunck]
      omega
  have htake : (C.takeChunk node dir chunk).Ok P := by
    refine ⟨fun n d => forall_setAllocator hA (fun n d => ?_) n d, fun b hb => ?_, ?_, trivial, hC.target⟩
    · exact (hC.allocators n d).mono fun k hk => List.mem_cons_of_mem _ hk
    · obtain ⟨k, hk, hin⟩ := hC.blocks b hb
      exact ⟨k, List.mem_cons_of_mem _ hk, hin⟩
    · exact List.forall_mem_cons.2 ⟨hchunk, hC.chunks⟩
  have hround : ((C.allocator node dir).setChunck chunk).rounded alignBit = chunk := by
    have := hchunk.le
    unfold LocalAllocator.rounded LocalAllocator.setChunck
    split
    · rfl
    · rw [roundUp_of_dvd halign, DsmAddress.setOffset, Nat.mod_eq_of_lt (by omega)]
  have hex : ((C.allocator node dir).setChunck chunk).exhausted size alignBit = false := by
    unfold LocalAllocator.exhausted
    rw [hround]
    have hne : chunk ≠ .null := hchunk.ne_null
    simp [LocalAllocator.setChunck, hne, hsize]
  obtain ⟨A', hmalloc, hA', hserves, hin, haddr⟩ := LocalAllocator.malloc_bump htake.chunks hA ha hex
  rw [hround] at hmalloc hserves hin haddr
  have hserves' : ((C.takeChunk node dir chunk).allocator node dir).Serves chunk size A' := by
    rwa [takeChunk_allocator]
  have heq : C.retry node dir size alignBit chunk =
      (((C.takeChunk node dir chunk).setAllocator node dir A').obtain chunk size, chunk) := by
    rw [retry, hmalloc, takeChunk_setAllocator]
    rfl
  refine ⟨_, _, heq, (htake.setAllocator hA').obtain ⟨_, List.mem_cons_self, hin⟩,
    (transfer_takeChunk hbytes).trans (transfer_obtain hserves'), rfl, haddr, _, List.mem_cons_self, hin⟩

/-! ### `DSM::free` -/

/-- Where the new owners take from when a block is freed: the entry at the end of the free list. -/
def fromBlock (node dir i len : Nat) : LocalHolder → LocalHolder
  | .block j => .block (shiftPast i j)
  | .free n d j => if (n = node ∧ d = dir) ∧ j = len then .block i else .free n d j
  | h => h

theorem fromBlock_injective {i len : Nat} : Function.Injective (fromBlock node dir i len) := by
  intro j k h
  have hne (j : Nat) : shiftPast i j ≠ i := shiftPast_ne
  have hinj (j k : Nat) (he : shiftPast i j = shiftPast i k) : j = k := shiftPast_injective he
  cases j <;> cases k <;> grind [fromBlock]

theorem transfer_free {i : Nat} {b : Block} (hb : C.blocks[i]? = some b) :
    Transfer C.region (C.free i b).region := by
  refine .of_injective (fromBlock b.addr.nodeID 0 i (C.allocator b.addr.nodeID 0).freeList.length) fromBlock_injective
    fun h => ?_
  rcases h with j | ⟨n, d, j⟩ | ⟨n, d⟩ | _
  · exact nth_eraseIdx.subset
  · show nth Block.bytes ((C.setAllocator b.addr.nodeID 0
      ((C.allocator b.addr.nodeID 0).free b.addr b.size)).allocator n d).freeList j ⊆ _
    rw [allocator_setAllocator, fromBlock]
    by_cases hnd : n = b.addr.nodeID ∧ d = 0
    · obtain ⟨rfl, rfl⟩ := hnd
      rw [if_pos ⟨rfl, rfl⟩, LocalAllocator.free, nth_concat]
      by_cases hj : j = (C.allocator b.addr.nodeID 0).freeList.length
      · rw [if_pos hj, if_pos ⟨⟨rfl, rfl⟩, hj⟩]
        exact (nth_eq hb).superset
      · rw [if_neg hj, if_neg fun h => hj h.2]
        exact le_rfl
    · rw [if_neg hnd, if_neg fun h => hnd h.1]
      exact le_rfl
  · refine unused_setAllocator ?_ n d
    exact le_rfl
  · exact le_rfl

theorem Ok.free {i : Nat} {b : Block} (hC : C.Ok P) (hb : C.blocks[i]? = some b) : (C.free i b).Ok P := by
  obtain ⟨k, hk, hin⟩ := hC.blocks b (List.mem_of_getElem? hb)
  have hA := hC.allocators b.addr.nodeID 0
  refine ⟨fun n d => forall_setAllocator ⟨hA.head, fun b' hb' => ?_, hA.cur_le⟩ hC.allocators n d,
    fun b' hb' => hC.blocks b' (List.mem_of_mem_eraseIdx hb'), hC.chunks, hC.pc, hC.target⟩
  rcases List.mem_append.1 hb' with h | h
  · exact hA.free b' h
  · obtain rfl := List.mem_singleton.1 h
    exact ⟨k, hk, hin⟩

end AllocClient

end Chime

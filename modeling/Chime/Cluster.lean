import Chime.Allocation

/-!
# Allocated blocks do not overlap

The memory of the pools is divided among the clients and what the directories have not handed out
(`AllocState.region`). Every step is a `Transfer` (`Inv.step`), as long as the requests meet `AllocOk`; so what is
returned is aligned and inside a chunk, and the blocks that are held never overlap (`allocation_sound`).
-/

namespace Chime

/-! ## The cluster -/

/-- Who holds memory: a client, or a directory that has not handed it out yet. -/
inductive Holder
  | client (c : ThreadId) (h : LocalHolder)
  | rest (node dir : Nat)

namespace AllocState

variable (P : Pools)

/-- What a directory has not handed out. -/
def rest (node dir : Nat) (G : GlobalAllocator) : Set DsmAddress :=
  {x | dir < nrDirectory ∧ x.nodeID = node ∧ P.perDirectory * dir + G.bitmapTail * kChunkSize ≤ x.offset ∧
    x.offset < P.perDirectory * dir + P.perDirectory}

def region (s : AllocState) : Holder → Set DsmAddress
  | .client c h => (s.clients c).region h
  | .rest node dir => rest P node dir (s.directories node dir)

/-- The directories count their chunks. -/
structure DirectoryOk (node dir : Nat) (G : GlobalAllocator) : Prop where
  start : G.start = ⟨node, P.perDirectory * dir % 2 ^ 48⟩
  len : G.bitmapLen = P.perDirectory / kChunkSize
  tail_pos : 0 < G.bitmapTail
  bitmap : ∀ i, G.bitmapTail ≤ i → G.bitmap i = false

/-- **The invariant**: memory is divided among the holders. -/
structure Inv (s : AllocState) : Prop where
  separate : Separate (s.region P)
  clients : ∀ c, (s.clients c).Ok P
  directories : ∀ node dir, DirectoryOk P node dir (s.directories node dir)

/-- What was returned, and what is held. -/
structure Sound (s : AllocState) (h : List AllocEvent) : Prop where
  /-- a returned block is aligned, inside a chunk that the client's allocator was handed, and not in a first chunk -/
  returned : ∀ c addr size alignBit, .returned c addr size alignBit ∈ h → 2 ^ alignBit ∣ addr.offset ∧
    (∃ chunk ∈ (s.clients c).chunks, P.IsChunk chunk ∧ Block.Inside ⟨addr, size⟩ chunk) ∧
    ∀ node dir, dir < nrDirectory → Disjoint (Block.bytes ⟨addr, size⟩) (Block.bytes ⟨P.chunk node dir 0, kChunkSize⟩)
  /-- blocks that are held do not overlap -/
  live : ∀ (c : ThreadId) (i : Nat) (b : Block) (c' : ThreadId) (i' : Nat) (b' : Block), (s.clients c).blocks[i]? =
    some b → (s.clients c').blocks[i']? = some b' →
    (c, i) ≠ (c', i') → Disjoint b.bytes b'.bytes

/-- The requests have sizes of at most a chunk. -/
def SizeOk : AllocAction → Prop
  | .alloc _ size _ => size ≤ kChunkSize
  | _ => True

/-- When a request is served with its alignment: `ROUND_UP` is defined, an entry that is taken from the free list has
the alignment, and so has a new chunk. -/
def AllocOk (s : AllocState) : AllocAction → Prop
  | .alloc c size alignBit => alignBit ≤ 30 ∧
    (((s.clients c).retarget P).allocator ((s.clients c).nextTarget P).1 ((s.clients c).nextTarget P).2).AlignedFit size
      alignBit
  | .resume c => ∀ node dir size alignBit chunk, (s.clients c).pc = .answered node dir size alignBit chunk →
    2 ^ alignBit ∣ chunk.offset
  | _ => True

variable {P} {s s' : AllocState} {c : ThreadId} {C : AllocClient} {h : List AllocEvent}

theorem setClient_self : (s.setClient c C).clients c = C := Function.update_self ..

theorem setClient_of_ne {c' : ThreadId} (hne : c' ≠ c) : (s.setClient c C).clients c' = s.clients c' :=
  Function.update_of_ne hne ..

/-- A transfer inside a client. -/
theorem transfer_setClient (h : Transfer (s.clients c).region C.region) :
    Transfer (s.region P) ((s.setClient c C).region P) := by
  obtain ⟨f, hsub, hsplit⟩ := h
  refine ⟨fun
    | .client c' h => .client c' (if c' = c then f h else h)
    | h => h, fun k => ?_, fun j k hjk he => ?_⟩
  · cases k with
    | client c' h =>
      by_cases hc : c' = c
      · subst hc
        simpa only [region, setClient_self, if_true] using hsub h
      · simp only [region, setClient_of_ne hc, if_neg hc]
        exact le_rfl
    | rest node dir => exact le_rfl
  · cases j with
    | rest => cases k with
      | rest => exact absurd he hjk
      | client => cases he
    | client c₁ h₁ => cases k with
      | rest => cases he
      | client c₂ h₂ =>
        simp only [Holder.client.injEq] at he
        obtain ⟨rfl, he⟩ := he
        by_cases hc : c₁ = c
        · subst hc
          simp only [region, setClient_self]
          exact hsplit h₁ h₂ (fun hh => hjk (hh ▸ rfl)) (by simpa using he)
        · simp only [if_neg hc] at he
          exact absurd (he ▸ rfl) hjk

/-- A step of a client. -/
theorem Inv.setClient (hs : s.Inv P) (hC : C.Ok P) (htr : Transfer (s.clients c).region C.region) :
    (s.setClient c C).Inv P where
  separate := (transfer_setClient htr).separate hs.separate
  clients c' := by
    by_cases hc : c' = c
    · subst hc
      rwa [setClient_self]
    · rw [setClient_of_ne hc]
      exact hs.clients c'
  directories := hs.directories

/-- What a directory hands out. -/
theorem DirectoryOk.allocChunck {node dir : Nat} {G G' : GlobalAllocator} {addr : DsmAddress}
    (hG : DirectoryOk P node dir G) (hd : dir < nrDirectory) (h : G.allocChunck = some (G', addr)) :
    DirectoryOk P node dir G' ∧ P.IsChunk addr ∧ Block.bytes ⟨addr, kChunkSize⟩ ⊆ rest P node dir G ∧
      rest P node dir G' ⊆ rest P node dir G ∧ Disjoint (Block.bytes ⟨addr, kChunkSize⟩) (rest P node dir G') := by
  have hle := Pools.le_of_dir (P := P) hd
  have hlt := P.dsmSize_lt
  unfold GlobalAllocator.allocChunck at h
  split at h
  · cases h
  · rename_i hlen
    have hfull : (G.bitmapTail + 1) * kChunkSize ≤ P.perDirectory := by
      rw [hG.len, not_le] at hlen
      exact (Nat.le_div_iff_mul_le (by decide)).1 hlen
    have hstart : G.start.offset = P.perDirectory * dir := by
      rw [hG.start]
      exact Nat.mod_eq_of_lt (by omega)
    have hnode : G.start.nodeID = node := by rw [hG.start]
    rw [if_pos (hG.bitmap _ le_rfl)] at h
    obtain ⟨rfl, rfl⟩ := Prod.mk.inj (Option.some.inj h)
    have haddr : G.start.setOffset (G.start.offset + G.bitmapTail * kChunkSize) = P.chunk node dir G.bitmapTail := by
      rw [Nat.succ_mul] at hfull
      rw [DsmAddress.setOffset, Nat.mod_eq_of_lt (by omega), hstart, hnode, Pools.chunk]
    have hsucc : (G.bitmapTail + 1) * kChunkSize = G.bitmapTail * kChunkSize + kChunkSize := Nat.succ_mul _ _
    rw [haddr]
    refine ⟨⟨hG.start, hG.len, Nat.succ_pos _, fun i hi => ?_⟩, ⟨node, dir, _, hd, hG.tail_pos, hfull, rfl⟩,
      fun x hx => ⟨hd, hx.1, hx.2.1, ?_⟩, fun x hx => ⟨hd, hx.2.1, ?_, hx.2.2.2⟩,
      Set.disjoint_left.2 fun x hx hx' => ?_⟩
    rotate_left
    · have := hx.2.2
      simp only [Pools.chunk] at this
      omega
    · have := hx.2.2.1
      simp only [hsucc] at this
      omega
    · have h₁ := hx.2.2
      have h₂ := hx'.2.2.1
      simp only [Pools.chunk] at h₁
      simp only [hsucc] at h₂
      omega
    have hi' : G.bitmapTail < i := hi
    show Function.update G.bitmap G.bitmapTail true i = false
    rw [Function.update_of_ne (by omega)]
    exact hG.bitmap i (by omega)

/-- Where the new owners take from when a directory answers. -/
def fromRest (c : ThreadId) (node dir : Nat) : Holder → Holder
  | .client c' .answer => if c' = c then .rest node dir else .client c' .answer
  | h => h

theorem fromRest_eq {node dir : Nat} {j k : Holder} (hjk : j ≠ k) (h : fromRest c node dir j = fromRest c node dir k) :
    j = .client c .answer ∧ k = .rest node dir ∨ j = .rest node dir ∧ k = .client c .answer := by
  rcases j with ⟨c₁, _ | _ | _ | _⟩ | _ <;> rcases k with ⟨c₂, _ | _ | _ | _⟩ | _ <;> grind [fromRest]

/-- **An answer** is a transfer from the directory. -/
theorem Inv.serve {node dir size alignBit : Nat} {G : GlobalAllocator} {addr : DsmAddress} (hs : s.Inv P)
    (hpc : (s.clients c).pc = .waiting node dir size alignBit)
    (halloc : (s.directories node dir).allocChunck = some (G, addr)) :
    ((s.setDirectory node dir G).setClient c
      { s.clients c with pc := .answered node dir size alignBit addr }).Inv P := by
  obtain ⟨hd, hsize, ha⟩ : dir < nrDirectory ∧ size ≤ kChunkSize ∧ alignBit ≤ 30 := by
    have := (hs.clients c).pc
    rwa [hpc] at this
  obtain ⟨hG, hchunk, hsub, hrest, hdisj⟩ := (hs.directories node dir).allocChunck hd halloc
  set C : AllocClient := { s.clients c with pc := .answered node dir size alignBit addr } with hC
  have hanswer : ((s.setDirectory node dir G).setClient c C).region P (.client c .answer) =
      Block.bytes ⟨addr, kChunkSize⟩ := by
    rw [region, setClient_self, hC]
    rfl
  have hdir : ((s.setDirectory node dir G).setClient c C).region P (.rest node dir) = rest P node dir G :=
    congrArg (rest P node dir) (if_pos ⟨rfl, rfl⟩)
  refine ⟨Transfer.separate (R := s.region P) ⟨fromRest c node dir, fun k => ?_, fun j k hjk he => ?_⟩ hs.separate,
    fun c' => ?_, fun n d => ?_⟩
  · rcases k with ⟨c', h⟩ | ⟨n, d⟩
    · by_cases hc : c' = c
      · subst hc
        cases h with
        | answer =>
          rw [hanswer, fromRest, if_pos rfl]
          exact hsub
        | block | free | unused =>
          simp only [region, setClient_self]
          exact le_rfl
      · cases h <;> simp only [region, setClient_of_ne hc, fromRest, if_neg hc] <;> exact le_rfl
    · by_cases hnd : n = node ∧ d = dir
      · obtain ⟨rfl, rfl⟩ := hnd
        rw [hdir]
        exact hrest
      · exact (congrArg (rest P n d) (if_neg hnd)).subset
  · rcases fromRest_eq hjk he with ⟨rfl, rfl⟩ | ⟨rfl, rfl⟩
    · rwa [hanswer, hdir]
    · rw [hanswer, hdir]
      exact hdisj.symm
  · by_cases hc : c' = c
    · subst hc
      rw [setClient_self]
      have hC := hs.clients c'
      exact ⟨hC.allocators, hC.blocks, hC.chunks, ⟨hchunk, hsize, ha⟩, hC.target⟩
    · rw [setClient_of_ne hc]
      exact hs.clients c'
  · show DirectoryOk P n d (if n = node ∧ d = dir then G else s.directories n d)
    split
    · rename_i h
      obtain ⟨rfl, rfl⟩ := h
      exact hG
    · exact hs.directories n d

/-- **Every step** keeps the invariant, and grants what it returns. -/
theorem Inv.step {a : AllocAction} {es : List AllocEvent} (hs : s.Inv P) (hsize : SizeOk a) (hok : AllocOk P s a)
    (he : AllocState.step P s a = some (s', es)) : s'.Inv P ∧
    (∀ c, (s.clients c).chunks ⊆ (s'.clients c).chunks) ∧
    ∀ c addr size alignBit, .returned c addr size alignBit ∈ es → (s'.clients c).Granted addr size alignBit := by
  have hchunks {c : ThreadId} {C : AllocClient} (h : (s.clients c).chunks ⊆ C.chunks) (c' : ThreadId) :
      (s.clients c').chunks ⊆ ((s.setClient c C).clients c').chunks := by
    by_cases hc : c' = c
    · subst hc
      rwa [setClient_self]
    · rw [setClient_of_ne hc]
      exact List.Subset.refl _
  cases a with
  | alloc c size alignBit =>
    simp only [AllocState.step] at he
    split at he
    · obtain ⟨ha, hfit⟩ := hok
      have hdir : ((s.clients c).nextTarget P).2 < nrDirectory := (hs.clients c).retarget.target
      obtain ⟨C', result, htry, hC', htr, hsub, hgranted⟩ :=
        AllocClient.tryFrom_spec (hs.clients c).retarget hdir hsize ha hfit
      rw [AllocClient.tryAlloc, htry] at he
      have hinv := hs.setClient (c := c) hC' htr
      cases result with
      | some addr =>
        cases he
        refine ⟨hinv, hchunks (hsub ▸ List.Subset.refl _), fun c' addr' size' alignBit' hmem => ?_⟩
        cases List.mem_singleton.1 hmem
        rw [setClient_self]
        exact hgranted _ rfl
      | none =>
        cases he
        exact ⟨hinv, hchunks (hsub ▸ List.Subset.refl _), fun _ _ _ _ hmem => absurd hmem List.not_mem_nil⟩
    · cases he
  | serve c =>
    simp only [AllocState.step] at he
    split at he
    · rename_i hpc
      split at he
      · rename_i halloc
        cases he
        refine ⟨hs.serve hpc halloc, hchunks (List.Subset.refl _), fun _ _ _ _ hmem => absurd hmem List.not_mem_nil⟩
      · cases he
    · cases he
  | resume c =>
    simp only [AllocState.step] at he
    split at he
    · rename_i hpc
      obtain ⟨C', addr, hretry, hC', htr, hsub, hgranted⟩ :=
        AllocClient.retry_spec (hs.clients c) hpc (hok _ _ _ _ _ hpc)
      rw [hretry] at he
      cases he
      refine ⟨hs.setClient hC' htr, hchunks (hsub ▸ List.subset_cons_self _ _), fun c' addr' size' alignBit' hmem => ?_⟩
      cases List.mem_singleton.1 hmem
      rwa [setClient_self]
    · cases he
  | free c i =>
    simp only [AllocState.step] at he
    split at he
    · rename_i hpc hb
      cases he
      exact ⟨hs.setClient ((hs.clients c).free hb) (AllocClient.transfer_free hb), hchunks (List.Subset.refl _),
        fun _ _ _ _ hmem => absurd hmem List.not_mem_nil⟩
    · cases he

theorem inv_init : Inv P P.machine.init where
  separate := by
    have hempty (c : ThreadId) (h : LocalHolder) : region P P.machine.init (.client c h) = ∅ := by
      cases h with
      | block i => exact nth_nil
      | free n d i => exact nth_nil
      | unused n d => exact Set.eq_empty_of_forall_notMem fun x hx => hx.1 rfl
      | answer => rfl
    rintro (⟨c, h⟩ | ⟨n, d⟩) (⟨c', h'⟩ | ⟨n', d'⟩) hne
    · rw [hempty c h]
      exact Set.empty_disjoint _
    · rw [hempty c h]
      exact Set.empty_disjoint _
    · rw [hempty c' h']
      exact Set.disjoint_empty _
    · refine Set.disjoint_left.2 fun x hx hx' => hne ?_
      have hd := hx.1
      have hd' := hx'.1
      simp only [nrDirectory, Nat.lt_one_iff] at hd hd'
      rw [← hx.2.1, ← hx'.2.1, hd, hd']
  clients c := ⟨fun _ _ => .init, fun _ h => absurd h List.not_mem_nil, fun _ h => absurd h List.not_mem_nil, trivial,
    Nat.mod_lt _ (by decide)⟩
  directories n d := by
    refine ⟨rfl, rfl, Nat.one_pos, fun i hi => ?_⟩
    have hi' : 1 ≤ i := hi
    exact decide_eq_false (by omega)

/-- The invariant, and what was granted so far. -/
def Granting (P : Pools) (s : AllocState) (h : List AllocEvent) : Prop :=
  s.Inv P ∧ ∀ c addr size alignBit, .returned c addr size alignBit ∈ h → (s.clients c).Granted addr size alignBit

theorem granting_of_run (hrun : P.machine.Run (fun s a => SizeOk a ∧ AllocOk P s a) s h) : Granting P s h := by
  refine hrun.invariant ⟨inv_init, fun _ _ _ _ hmem => absurd hmem List.not_mem_nil⟩ fun {s h a s' es} _ hi hg he => ?_
  obtain ⟨hinv, hgranted⟩ := hi
  obtain ⟨hinv', hchunks, hnew⟩ := hinv.step hg.1 hg.2 he
  refine ⟨hinv', fun c addr size alignBit hmem => ?_⟩
  rcases List.mem_append.1 hmem with hmem | hmem
  · exact hnew c addr size alignBit hmem
  · obtain ⟨halign, k, hk, hin⟩ := hgranted c addr size alignBit hmem
    exact ⟨halign, k, hchunks c hk, hin⟩

/-- Blocks that are held do not overlap. -/
theorem Inv.live (hs : s.Inv P) {i i' : Nat} {b b' : Block} {c' : ThreadId} (hb : (s.clients c).blocks[i]? = some b)
    (hb' : (s.clients c').blocks[i']? = some b') (hne : (c, i) ≠ (c', i')) : Disjoint b.bytes b'.bytes := by
  have hsep := hs.separate (i := .client c (.block i)) (j := .client c' (.block i')) fun he => hne (by
    cases he
    rfl)
  exact hsep.mono (nth_eq hb).superset (nth_eq hb').superset

theorem Granting.sound (hs : Granting P s h) : Sound P s h where
  returned c addr size alignBit hmem := by
    obtain ⟨halign, k, hk, hin⟩ := hs.2 c addr size alignBit hmem
    have hchunk := (hs.1.clients c).chunks k hk
    exact ⟨halign, ⟨k, hk, hchunk, hin⟩, hchunk.not_first hin⟩
  live _ _ _ _ _ _ hb hb' hne := hs.1.live hb hb' hne

/-- **Allocation**: in every run whose requests meet `AllocOk`, what is returned is aligned and inside a chunk of the
client, and the blocks that are held do not overlap. -/
theorem allocation_sound (P : Pools) (s : AllocState) (h : List AllocEvent)
    (hrun : P.machine.Run (fun s a => SizeOk a ∧ AllocOk P s a) s h) : Sound P s h :=
  (granting_of_run hrun).sound

/-! ### Samples -/

/-- One memory node with a pool of 1 GB. -/
def samplePools : Pools := ⟨1, 1, by decide, by decide, by decide⟩

def sampleThread : ThreadId := ⟨0, 0⟩

instance (a : AllocAction) : Decidable (SizeOk a) := by
  cases a <;> unfold SizeOk <;> infer_instance

/-- The request meets the guard. -/
def guardChecked (P : Pools) (s : AllocState) : AllocAction → Bool
  | .alloc c size alignBit =>
    let A := ((s.clients c).retarget P).allocator ((s.clients c).nextTarget P).1 ((s.clients c).nextTarget P).2
    decide (size ≤ kChunkSize) && (decide (alignBit ≤ 30) && (A.firstFit size).all fun i =>
      A.freeList[i]?.all fun b => decide (2 ^ alignBit ∣ b.addr.offset))
  | .resume c =>
    match (s.clients c).pc with
    | .answered _ _ _ alignBit chunk => decide (2 ^ alignBit ∣ chunk.offset)
    | _ => true
  | _ => true

theorem allocOk_of_checked {a : AllocAction} (h : guardChecked P s a = true) : SizeOk a ∧ AllocOk P s a := by
  cases a with
  | alloc c size alignBit =>
    simp only [guardChecked, Bool.and_eq_true, decide_eq_true_eq, Option.all_eq_true] at h
    exact ⟨h.1, h.2.1, fun _ i b hi hb => h.2.2 i hi b hb⟩
  | resume c =>
    refine ⟨trivial, fun node dir size alignBit chunk hpc => ?_⟩
    rw [guardChecked, hpc] at h
    exact of_decide_eq_true h
  | serve | free => exact ⟨trivial, trivial⟩

/-- Two blocks of leaves from a new chunk; one is freed, the chunk used up, and the free block handed out again. -/
def recycledRun : List AllocAction :=
  [.alloc sampleThread 1000 8, .serve sampleThread, .resume sampleThread, .alloc sampleThread 1000 8, .free sampleThread 0,
    .alloc sampleThread kChunkSize 8, .serve sampleThread, .resume sampleThread, .alloc sampleThread 900 8]

def recycledEvents : List AllocEvent :=
  [.returned sampleThread ⟨0, 16777216 + 1024⟩ 900 8, .returned sampleThread ⟨0, 2 * 16777216⟩ 16777216 8,
    .returned sampleThread ⟨0, 16777216 + 1024⟩ 1000 8, .returned sampleThread ⟨0, 16777216⟩ 1000 8]

/-- Three blocks are held; the last one is from the free list. -/
theorem allocation_sound_sample :
    ∃ s, samplePools.machine.Run (fun s a => SizeOk a ∧ AllocOk samplePools s a) s recycledEvents ∧
      (s.clients sampleThread).blocks.length = 3 ∧ Sound samplePools s recycledEvents := by
  have hexec : (samplePools.machine.exec (guardChecked samplePools) samplePools.machine.init [] recycledRun).map
      (fun y => (y.2, (y.1.clients sampleThread).blocks.length)) = some (recycledEvents, 3) := by
    decide +kernel
  obtain ⟨⟨s, h⟩, hexec, heq⟩ := Option.map_eq_some_iff.1 hexec
  obtain ⟨rfl, hblocks⟩ := Prod.mk.inj heq
  have hrun := Machine.Run.of_exec (I := fun _ => True) (fun _ hc => allocOk_of_checked hc) (fun _ _ _ => trivial)
    trivial .init hexec
  exact ⟨s, hrun, hblocks, allocation_sound samplePools s _ hrun⟩

/-- A block of 64 bytes is freed, the chunk used up, and 64 bytes are asked for with another alignment. -/
def misalignedRun : List AllocAction :=
  [.alloc sampleThread 64 8, .serve sampleThread, .resume sampleThread, .alloc sampleThread 64 6, .free sampleThread 0,
    .alloc sampleThread kChunkSize 6, .serve sampleThread, .resume sampleThread, .alloc sampleThread 64 8]

/-- **A misaligned block**: the free list is searched by size only. -/
theorem not_allocation_sound :
    ¬∀ P s h, P.machine.Run (fun _ a => SizeOk a) s h → Sound P s h := by
  intro hall
  have hexec : (samplePools.machine.exec (fun _ a => decide (SizeOk a)) samplePools.machine.init [] misalignedRun).map
      Prod.snd = some [.returned sampleThread ⟨0, 16777216 + 64⟩ 64 8,
        .returned sampleThread ⟨0, 2 * 16777216⟩ 16777216 6,
        .returned sampleThread ⟨0, 16777216 + 64⟩ 64 6, .returned sampleThread ⟨0, 16777216⟩ 64 8] := by
    decide +kernel
  obtain ⟨⟨s, h⟩, hrun, hh⟩ := Option.map_eq_some_iff.1 hexec
  have hsound := hall samplePools s h (Machine.Run.of_exec (I := fun _ => True) (fun _ hg => of_decide_eq_true hg)
    (fun _ _ _ => trivial) trivial .init hrun)
  have hdvd := (hsound.returned sampleThread ⟨0, 16777216 + 64⟩ 64 8
    (by rw [show h = _ from hh]; exact List.mem_cons_self)).1
  exact absurd hdvd (by decide)

end AllocState
end Chime

import Chime.NodeWrites
import Chime.Metadata
import Chime.Lib.Machine
import Mathlib.Data.Nat.Bitwise

/-!
# The remote lock of a node (`Tree.cpp`: `lock_node`, `unlock_node` and the writes that release a node)

A client locks a node by a masked compare-and-swap of its lock word, which sets all bits of the word if its bit 63 is
clear; it keeps the old word in its lock buffer, changes the fields there, and releases the node by one of the writes
of `NodeWrites`, region by region. `NodeLock.machine` has the steps of all clients of one node.
-/

namespace Chime

open Memory

/-- `1ULL << 63`. -/
def lockMask : UInt64 := (1 : UInt64) <<< 63

/-- The word after a masked compare-and-swap. -/
def maskedCompareSwap (w equal val compareMask swapMask : UInt64) : UInt64 :=
  if w &&& compareMask = equal &&& compareMask then (w &&& ~~~swapMask) ||| (val &&& swapMask) else w

/-- The bytes of a lock buffer. -/
def lockBytes (w : UInt64) : Nat → UInt8 := setWord (fun _ => 0) 0 w

namespace Valock

/-- `(VALOCK *)lock_buffer`: `vacancy_bitmap` in the low bits, then `max_key_idx`, and `lock_bit`. -/
def ofWord (L : Layout) (w : UInt64) : Valock L :=
  ⟨BitVec.ofNat _ w.toNat, BitVec.ofNat _ (w.toNat / 2 ^ L.vacancyMapBit)⟩

/-- The word with other fields; the lock bit stays. -/
def toWord {L : Layout} (lock : Valock L) (w : UInt64) : UInt64 :=
  .ofNat (lock.vacancyBitmap.toNat + 2 ^ L.vacancyMapBit * lock.maxKeyIdx.toNat + 2 ^ 63 * (w.toNat / 2 ^ 63))

end Valock

/-- A leaf with replicas, or a node without. -/
inductive NodeKind
  | leaf (S : LeafSizes)
  | node (S : NodeSizes)

/-- `transLeafSize` or `transInternalSize`. -/
def NodeKind.transSize : NodeKind → Nat
  | leaf S => S.transLeafSize
  | node S => S.transSize

/-- The functions that release a node, with what they write. -/
inductive Release : NodeKind → Type
  /-- `unlock_node` -/
  | unlock {kind : NodeKind} : Release kind
  /-- `segment_write_and_unlock` -/
  | segmentWrite {S : LeafSizes} (leaf : RawLeaf) (lIdx rIdx : Nat) (hoppedIdxes : List Nat)
    (rbuf : Nat → Nat → UInt8) :
    Release (.leaf S)
  /-- `entry_write_and_unlock<LeafNode, LeafEntry>` -/
  | leafEntryWrite {S : LeafSizes} (leaf : RawLeaf) (idx : Nat) (kv : Nat → UInt8) (rbuf : Nat → Nat → UInt8) :
    Release (.leaf S)
  /-- `hopscotch_split_and_unlock` -/
  | hopscotchSplit {S : LeafSizes} (splitWriteUnlatch : Bool) (leaf : RawLeaf)
    (rbuf : Nat → Nat → UInt8) : Release (.leaf S)
  /-- `entry_write_and_unlock<InternalNode, InternalEntry>` -/
  | entryWrite {S : NodeSizes} (entry : Nat → UInt8) (idx : Nat) (rbuf : Nat → Nat → UInt8) : Release (.node S)
  /-- `node_write_and_unlock` -/
  | nodeWrite {S : NodeSizes} (splitWriteUnlatch : Bool) (node : Nat → UInt8)
    (rbuf : Nat → Nat → UInt8) : Release (.node S)
  /-- `node_split_and_unlock` -/
  | nodeSplit {S : NodeSizes} (splitWriteUnlatch : Bool) (node : Nat → UInt8)
    (rbuf : Nat → Nat → UInt8) : Release (.node S)

namespace Release

variable {kind : NodeKind}

/-- The regions that are written. -/
def regions (lockBuffer : Nat → UInt8) : Release kind → List Region
  | unlock => unlockNode kind.transSize lockBuffer
  | segmentWrite (S := S) leaf l r hopped rbuf => leaf.segmentWriteAndUnlock S l r hopped lockBuffer rbuf
  | leafEntryWrite (S := S) leaf idx kv rbuf => leaf.entryWriteAndUnlock S idx kv lockBuffer rbuf
  | hopscotchSplit (S := S) latch leaf rbuf => leaf.hopscotchSplitWrite S latch lockBuffer rbuf
  | entryWrite (S := S) entry idx rbuf => S.entryWriteAndUnlock entry idx lockBuffer rbuf
  | nodeWrite (S := S) latch node rbuf => S.nodeWriteAndUnlock latch node lockBuffer rbuf
  | nodeSplit (S := S) latch node rbuf => S.nodeWriteAndUnlock latch node lockBuffer rbuf

/-- The indices are those of slots. -/
def Valid : Release kind → Prop
  | segmentWrite (S := S) _ l r _ _ => l < S.leafSpanSize ∧ r < S.leafSpanSize
  | leafEntryWrite (S := S) _ idx _ _ => idx < S.leafSpanSize
  | entryWrite (S := S) _ idx _ => idx < S.spanSize
  | _ => True

instance : DecidablePred (@Valid kind)
  | segmentWrite _ _ _ _ _ => inferInstanceAs (Decidable (_ ∧ _))
  | leafEntryWrite _ _ _ _ => inferInstanceAs (Decidable (_ < _))
  | entryWrite _ _ _ => inferInstanceAs (Decidable (_ < _))
  | unlock => isTrue trivial
  | hopscotchSplit _ _ _ => isTrue trivial
  | nodeWrite _ _ _ => isTrue trivial
  | nodeSplit _ _ _ => isTrue trivial

/-- `assert(!(*lock_buffer & (1ULL << 63)))` in all but `unlock_node`. -/
def asserts : Release kind → Bool
  | unlock => false
  | _ => true

end Release

/-- The first `n` bytes of a region. -/
def Region.first (r : Region) (n : Nat) : Region := ⟨r.dest, r.source, n⟩

/-- The bytes behind the first `n`. -/
def Region.rest (r : Region) (n : Nat) : Region := ⟨r.dest + n, fun x => r.source (n + x), r.size - n⟩

namespace NodeLock

/-- Where a client is. -/
inductive Pc
  | idle
  /-- in `lock_node`, before an attempt -/
  | locking
  /-- the lock is taken; the lock buffer -/
  | holding (lockBuffer : UInt64)
  /-- the regions that are not written yet -/
  | releasing (lockBuffer : UInt64) (regions : List Region)
  /-- an assertion has failed -/
  | aborted

/-- The memory from the node on, and the clients. -/
structure State where
  memory : Nat → UInt8
  clients : Nat → Pc

inductive Action (kind : NodeKind)
  | lock (c : Nat)
  | attempt (c : Nat)
  /-- `assert(!(*lock_buffer & (1ULL << 63)))` -/
  | check (c : Nat)
  | updateMaxKeyIdx (c maxKeyIdx : Nat)
  | updateVacancy (c l r : Nat) (emptyIdxes : List Nat)
  | release (c : Nat) (release : Release kind)
  /-- the first `n` bytes of a region are written, and none of the lock word -/
  | writeFirst (c n : Nat)
  /-- the rest of a region is written -/
  | write (c : Nat)

/-- What a step shows. -/
inductive Event
  | acquired (c : Nat) (lockBuffer : UInt64)
  | failed (c : Nat) (lockBuffer : UInt64)
  | unlocked (c : Nat) (lockBuffer : UInt64)
  | assertFails (c : Nat)
  deriving DecidableEq

variable (L : Layout) (kind : NodeKind)

/-- The lock word in memory. -/
def lockWord (memory : Nat → UInt8) : UInt64 := word memory (getLockInfo kind.transSize)

/-- `acquire_lock`: `cas_mask_sync(node_addr + lock_offset, 0UL, ~0UL, lock_buffer, 1ULL << 63, ~0ULL)`. -/
def acquireLock (memory : Nat → UInt8) : Bool × UInt64 × (Nat → UInt8) :=
  let w := lockWord kind memory
  (0 &&& lockMask == w &&& lockMask, w,
    setWord memory (getLockInfo kind.transSize) (maskedCompareSwap w 0 (~~~0) lockMask (~~~0)))

/-- The assertion. -/
def checked (s : State) (c : Nat) (lockBuffer : UInt64) (next : Pc) : State × List Event :=
  if lockBuffer &&& lockMask = 0 then ({ s with clients := Function.update s.clients c next }, [])
  else ({ s with clients := Function.update s.clients c .aborted }, [.assertFails c])

/-- A step of a client; `none`: it is not enabled. -/
def step (s : State) : Action kind → Option (State × List Event)
  | .lock c =>
    match s.clients c with
    | .idle => some ({ s with clients := Function.update s.clients c .locking }, [])
    | _ => none
  | .attempt c =>
    match s.clients c with
    | .locking =>
      let (success, lockBuffer, memory) := acquireLock kind s.memory
      if success then some (⟨memory, Function.update s.clients c (.holding lockBuffer)⟩, [.acquired c lockBuffer])
      else some (⟨memory, s.clients⟩, [.failed c lockBuffer])
    | _ => none
  | .check c =>
    match s.clients c with
    | .holding lockBuffer => some (checked s c lockBuffer (.holding lockBuffer))
    | _ => none
  | .updateMaxKeyIdx c maxKeyIdx =>
    match s.clients c with
    | .holding lockBuffer =>
      let lock := (Valock.ofWord L lockBuffer).updateMaxKeyIdx maxKeyIdx
      some ({ s with clients := Function.update s.clients c (.holding (lock.toWord lockBuffer)) }, [])
    | _ => none
  | .updateVacancy c l r emptyIdxes =>
    match s.clients c with
    | .holding lockBuffer =>
      match (Valock.ofWord L lockBuffer).updateVacancy l r emptyIdxes with
      | .ok lock => some ({ s with clients := Function.update s.clients c (.holding (lock.toWord lockBuffer)) }, [])
      | .error _ => none
    | _ => none
  | .release c release =>
    match s.clients c with
    | .holding lockBuffer =>
      let next := .releasing lockBuffer (release.regions (lockBytes lockBuffer))
      if release.asserts then some (checked s c lockBuffer next)
      else some ({ s with clients := Function.update s.clients c next }, [])
    | _ => none
  | .writeFirst c n =>
    match s.clients c with
    | .releasing lockBuffer (region :: regions) =>
      if n < region.size ∧ region.dest + n ≤ getLockInfo kind.transSize then
        some (⟨(region.first n).write s.memory,
          Function.update s.clients c (.releasing lockBuffer (region.rest n :: regions))⟩, [])
      else none
    | _ => none
  | .write c =>
    match s.clients c with
    | .releasing lockBuffer (region :: regions) =>
      let memory := region.write s.memory
      if regions = [] then some (⟨memory, Function.update s.clients c .idle⟩, [.unlocked c lockBuffer])
      else some (⟨memory, Function.update s.clients c (.releasing lockBuffer regions)⟩, [])
    | _ => none

/-- All clients of a node. -/
def machine (memory : Nat → UInt8) : Machine State (Action kind) Event where
  init := ⟨memory, fun _ => .idle⟩
  step := step L kind

/-- A release names slots of the node. -/
def Guard (_ : State) : Action kind → Prop
  | .release _ release => release.Valid
  | _ => True

instance (s : State) : DecidablePred (Guard kind s)
  | .release _ _ => inferInstanceAs (Decidable (Release.Valid _))
  | .lock _ => isTrue trivial
  | .attempt _ => isTrue trivial
  | .check _ => isTrue trivial
  | .updateMaxKeyIdx _ _ => isTrue trivial
  | .updateVacancy _ _ _ _ => isTrue trivial
  | .writeFirst _ _ => isTrue trivial
  | .write _ => isTrue trivial

/-- A client between its successful attempt and its unlocking write. -/
def Pc.Holds : Pc → Prop
  | holding _ | releasing _ _ => True
  | _ => False

instance : DecidablePred Pc.Holds
  | .holding _ => isTrue trivial
  | .releasing _ _ => isTrue trivial
  | .idle => isFalse not_false
  | .locking => isFalse not_false
  | .aborted => isFalse not_false

/-- The word that the last unlock stored, or the initial word. -/
def lastStored (initial : UInt64) : List Event → UInt64
  | [] => initial
  | .unlocked _ lockBuffer :: _ => lockBuffer
  | _ :: h => lastStored initial h

end NodeLock

/-! ## The lock bit -/

theorem and_lockMask_eq_zero {w : UInt64} : w &&& lockMask = 0 ↔ w.toNat < 2 ^ 63 := by
  have hmask : lockMask.toNat = 2 ^ 63 := by decide
  rw [← UInt64.toNat_inj, UInt64.toNat_and, hmask, Nat.and_two_pow]
  have hlt := w.toNat_lt
  rw [Nat.testBit_eq_decide_div_mod_eq]
  simp only [UInt64.toNat_zero, Nat.mul_eq_zero, Bool.toNat_eq_zero, decide_eq_false_iff_not]
  omega

/-- The word of a taken lock. -/
theorem allOnes_lockMask : ~~~(0 : UInt64) &&& lockMask ≠ 0 := by decide

/-- The updates of the fields keep the lock bit. -/
theorem Valock.toWord_lockMask {L : Layout} {lock : Valock L} {w : UInt64} :
    lock.toWord w &&& lockMask = 0 ↔ w &&& lockMask = 0 := by
  have hv := lock.vacancyBitmap.isLt
  have hm := lock.maxKeyIdx.isLt
  have hbits : L.vacancyMapBit + L.maxKeyIdxBit = 63 := by
    have : L.vacancyMapBit ≤ 63 := by
      simp only [Layout.vacancyMapBit]
      omega
    simp only [Layout.maxKeyIdxBit]
    omega
  have hlow : lock.vacancyBitmap.toNat + 2 ^ L.vacancyMapBit * lock.maxKeyIdx.toNat < 2 ^ 63 := by
    rw [← hbits, pow_add]
    calc lock.vacancyBitmap.toNat + 2 ^ L.vacancyMapBit * lock.maxKeyIdx.toNat
        < 2 ^ L.vacancyMapBit * 1 + 2 ^ L.vacancyMapBit * lock.maxKeyIdx.toNat := by omega
      _ = 2 ^ L.vacancyMapBit * (1 + lock.maxKeyIdx.toNat) := (Nat.mul_add ..).symm
      _ ≤ 2 ^ L.vacancyMapBit * 2 ^ L.maxKeyIdxBit := Nat.mul_le_mul_left _ (by omega)
  have hw := w.toNat_lt
  rw [and_lockMask_eq_zero, and_lockMask_eq_zero, toWord, UInt64.toNat_ofNat']
  omega

/-! ## The releases -/

/-- The last region writes the lock word, the others leave it. -/
def WritesLast (lockOffset : Nat) (lockBuffer : UInt64) : List Region → Prop
  | [] => False
  | r :: rs =>
    if rs = [] then ∀ memory, word (r.write memory) lockOffset = lockBuffer
    else (∀ memory, word (r.write memory) lockOffset = word memory lockOffset) ∧ WritesLast lockOffset lockBuffer rs

theorem WritesLast.cons {lockOffset : Nat} {w : UInt64} {r : Region} {rs : List Region} (h : WritesLast lockOffset w rs)
    (hr : ∀ memory, word (r.write memory) lockOffset = word memory lockOffset) : WritesLast lockOffset w (r :: rs) := by
  cases rs with
  | nil => exact h.elim
  | cons r' rs =>
    rw [WritesLast, if_neg nofun]
    exact ⟨hr, h⟩

/-- A region is written in two parts, the first before the lock word. -/
theorem WritesLast.rest {lockOffset n : Nat} {w : UInt64} {r : Region} {rs : List Region}
    (h : WritesLast lockOffset w (r :: rs)) (hn : n ≤ r.size) (hle : r.dest + n ≤ lockOffset) :
    WritesLast lockOffset w (r.rest n :: rs) := by
  have hsame : ∀ memory, word ((r.rest n).write memory) lockOffset = word (r.write memory) lockOffset := by
    intro memory
    refine word_eq_iff.2 fun i _ => ?_
    simp only [Region.write, Region.rest]
    by_cases hin : lockOffset + i < r.dest + r.size
    · rw [copy_apply (by omega), copy_apply (by omega)]
      congr 1
      omega
    · rw [copy_of_not (by omega), copy_of_not (by omega)]
  cases rs with
  | nil =>
    rw [WritesLast, if_pos rfl] at h ⊢
    exact fun memory => (hsame memory).trans (h memory)
  | cons r' rs =>
    rw [WritesLast, if_neg nofun] at h ⊢
    exact ⟨fun memory => (hsame memory).trans (h.1 memory), h.2⟩

theorem word_lockBytes {w : UInt64} : word (lockBytes w) 0 = w := word_setWord

/-- A region of the lock word alone. -/
theorem write_lockRegion {lockOffset : Nat} {w : UInt64} {memory : Nat → UInt8} :
    word ((⟨lockOffset, lockBytes w, lockSize⟩ : Region).write memory) lockOffset = w := by
  calc word ((⟨lockOffset, lockBytes w, lockSize⟩ : Region).write memory) lockOffset = word (lockBytes w) 0 :=
        word_eq_iff.2 fun i hi => by
          rw [Region.write, copy_apply (by simp only [lockSize]; omega), Nat.add_sub_cancel_left]
    _ = w := word_lockBytes

section Releases

variable {transSize rawOffset rawLen : Nat} {encoded : Nat → UInt8} {w : UInt64}

/-- A region of bytes of the node. -/
theorem write_nodeRegion (h : rawOffset + rawLen ≤ transSize) (memory : Nat → UInt8) :
    word ((⟨rawOffset, encoded, rawLen⟩ : Region).write memory) (getLockInfo transSize) =
      word memory (getLockInfo transSize) := by
  have hle : transSize ≤ getLockInfo transSize := le_getLockInfo
  show word (copy memory rawOffset encoded 0 rawLen) _ = _
  exact word_copy (.inr (by omega))

theorem writesLast_unlockNode : WritesLast (getLockInfo transSize) w (unlockNode transSize (lockBytes w)) := by
  rw [unlockNode, WritesLast, if_pos rfl]
  exact fun memory => write_lockRegion

theorem writesLast_partRegions {last : Bool} (h : rawOffset + rawLen ≤ transSize)
    (hlast : last = true → rawOffset + rawLen = transSize) :
    WritesLast (getLockInfo transSize) w (partRegions transSize last rawOffset rawLen encoded (lockBytes w)) := by
  cases last with
  | true =>
    rw [partRegions, if_pos rfl, WritesLast, if_pos rfl]
    intro memory
    have hwritten : Written transSize rawOffset rawLen encoded (lockBytes w) memory _ := written_of_one (hlast rfl) rfl
    calc _ = word (lockBytes w) 0 := word_eq_iff.2 fun i hi => by rw [Nat.zero_add]; exact hwritten.lock i hi
      _ = w := word_lockBytes
  | false =>
    rw [partRegions, if_neg nofun]
    exact writesLast_unlockNode.cons (write_nodeRegion h)

theorem writesLast_nodeRegions {latch : Bool} :
    WritesLast (getLockInfo transSize) w (nodeRegions transSize latch encoded (lockBytes w)) := by
  cases latch with
  | true =>
    rw [nodeRegions, if_pos rfl, WritesLast, if_pos rfl]
    intro memory
    have hwritten : Written transSize 0 transSize encoded (lockBytes w) memory
        (writeBatch (nodeRegions transSize true encoded (lockBytes w)) memory) := nodeRegions_written
    calc _ = word (lockBytes w) 0 := word_eq_iff.2 fun i hi => by rw [Nat.zero_add]; exact hwritten.lock i hi
      _ = w := word_lockBytes
  | false =>
    rw [nodeRegions, if_neg nofun]
    exact writesLast_unlockNode.cons (write_nodeRegion (Nat.zero_add transSize).le)

end Releases
end Chime

import Chime.NodeLock
import Chime.TornNode

/-!
# Exclusion and hand-off under the remote lock of a node

While a client holds the lock of a node the lock word has all bits set, so every attempt fails; the other bytes of a
release are written before the lock word (`Release.writesLast`). The invariant `LockInv` says so, and with it that the
word of a free node is the last one stored. `remote_lock` is for all runs of all clients.
-/

namespace Chime

open Frame Memory NodeLock

/-! ## Every release writes the lock word last -/

section Releases

variable {w : UInt64}

/-- The raw bytes of an entry. -/
theorem VersionManager.getOffsetInfo_eq {S : NodeSizes} {idx num : Nat} :
    (VersionManager.getOffsetInfo S idx num).1 = start blockSize versionSize S.firstOffset (S.entryOffset idx) ∧
      (VersionManager.getOffsetInfo S idx num).2.1 =
        start blockSize versionSize S.firstOffset (S.entryOffset (idx + num)) -
          start blockSize versionSize S.firstOffset (S.entryOffset idx) := by
  have hlen : ((start blockSize versionSize S.firstOffset (S.entryOffset (idx + num)) : Int) - S.firstOffset -
      ((start blockSize versionSize S.firstOffset (S.entryOffset idx) : Int) - S.firstOffset)).toNat =
      start blockSize versionSize S.firstOffset (S.entryOffset (idx + num)) -
        start blockSize versionSize S.firstOffset (S.entryOffset idx) := by omega
  simp only [VersionManager.getOffsetInfo, LeafSizes.getRawDistance_eq, hlen]
  split
  · rename_i h
    exact ⟨(start_of_le blockSize_pos h.le).symm, rfl⟩
  · have hcnt := ceilDiv_eq (a := S.entryOffset idx - S.firstOffset) blockSize_pos
    have hstart : S.entryOffset idx + marks blockSize S.firstOffset (S.entryOffset idx) * versionSize =
        start blockSize versionSize S.firstOffset (S.entryOffset idx) := by rw [start, Nat.mul_comm]
    refine ⟨?_, rfl⟩
    rw [hcnt, ← marks, hstart]

theorem writesLast_entryWrite {S : NodeSizes} {entry : Nat → UInt8} {idx : Nat} {rbuf : Nat → Nat → UInt8}
    (h : idx < S.spanSize) :
    WritesLast (getLockInfo S.transSize) w (S.entryWriteAndUnlock entry idx (lockBytes w) rbuf) := by
  obtain ⟨hoff, hlen⟩ : (VersionManager.getOffsetInfo S idx 1).1 = _ ∧ (VersionManager.getOffsetInfo S idx 1).2.1 = _ :=
    VersionManager.getOffsetInfo_eq
  have hlo : S.entryOffset idx ≤ S.entryOffset (idx + 1) :=
    Nat.add_le_add_left (Nat.mul_le_mul_right _ (Nat.le_succ idx)) _
  have hhi : S.entryOffset (idx + 1) ≤ S.nodeSize := Nat.add_le_add_left (Nat.mul_le_mul_right _ h) _
  have hmono := start_mono (b := blockSize) (w := versionSize) (f := S.firstOffset) hlo
  have hend := start_mono (b := blockSize) (w := versionSize) (f := S.firstOffset) hhi
  have hpart : WritesLast (getLockInfo S.transSize) w (partRegions S.transSize (idx == S.spanSize - 1)
      (VersionManager.getOffsetInfo S idx 1).1 (VersionManager.getOffsetInfo S idx 1).2.1
      (VersionManager.encodeEntryVersions S entry (rbuf 0) (VersionManager.getOffsetInfo S idx 1).2.2)
      (lockBytes w)) := by
    rw [hoff, hlen, NodeSizes.transSize_eq]
    refine writesLast_partRegions (by omega) fun hlast => ?_
    rw [beq_iff_eq] at hlast
    rw [Nat.add_sub_cancel' hmono, NodeSizes.nodeSize, show idx + 1 = S.spanSize by omega]
  exact hpart

/-- The offsets of an encoded segment. -/
theorem encodeSegment_offsets {S : LeafSizes} {leaf : RawLeaf} {hopped : List Nat} {s n : Nat}
    {inter out : Nat → UInt8} :
    (leaf.encodeSegment S hopped s n inter out).1 = S.rawStart s ∧
      (leaf.encodeSegment S hopped s n inter out).2.1 = S.rawStart (s + n) - S.rawStart s :=
  LeafSizes.getOffsetInfo_rawStart

/-- A segment of a leaf. -/
theorem writesLast_segment {S : LeafSizes} {leaf : RawLeaf} {hopped : List Nat} {s n : Nat} {inter out : Nat → UInt8}
    {last : Bool} (h : s + n ≤ S.leafSpanSize) (hlast : last = true → s + n = S.leafSpanSize) :
    WritesLast (getLockInfo S.transLeafSize) w
      (partRegions S.transLeafSize last (leaf.encodeSegment S hopped s n inter out).1
      (leaf.encodeSegment S hopped s n inter out).2.1 (leaf.encodeSegment S hopped s n inter out).2.2
      (lockBytes w)) := by
  obtain ⟨hoff, hlen⟩ :
    (leaf.encodeSegment S hopped s n inter out).1 = _ ∧ (leaf.encodeSegment S hopped s n inter out).2.1 = _ :=
    encodeSegment_offsets
  have hmono : S.rawStart s ≤ S.rawStart (s + n) := LeafSizes.rawStart_mono (Nat.le_add_right s n)
  have hend : S.rawStart (s + n) ≤ S.transLeafSize :=
    LeafSizes.rawStart_leafSpanSize (S := S) ▸ LeafSizes.rawStart_mono h
  refine writesLast_partRegions (by rw [hoff, hlen]; omega) fun hl => ?_
  rw [hoff, hlen, Nat.add_sub_cancel' hmono, hlast hl, LeafSizes.rawStart_leafSpanSize]

theorem writesLast_segmentWrite {S : LeafSizes} {leaf : RawLeaf} {l r : Nat} {hopped : List Nat}
    {rbuf : Nat → Nat → UInt8} (hl : l < S.leafSpanSize) (hr : r < S.leafSpanSize) :
    WritesLast (getLockInfo S.transLeafSize) w (leaf.segmentWriteAndUnlock S l r hopped (lockBytes w) rbuf) := by
  rw [RawLeaf.segmentWriteAndUnlock]
  split
  · exact writesLast_segment (by omega) fun hlast => by
      rw [beq_iff_eq] at hlast
      omega
  · -- the records from the first one on, in a region of their own
    obtain ⟨hoff, hlen⟩ : (leaf.encodeSegment S hopped 0 (r + 1) (rbuf 2) (rbuf 0)).1 = _ ∧
        (leaf.encodeSegment S hopped 0 (r + 1) (rbuf 2) (rbuf 0)).2.1 = _ := encodeSegment_offsets
    have hmono : S.rawStart 0 ≤ S.rawStart (0 + (r + 1)) := LeafSizes.rawStart_mono (Nat.zero_le _)
    have hend : S.rawStart (0 + (r + 1)) ≤ S.transLeafSize :=
      LeafSizes.rawStart_leafSpanSize (S := S) ▸ LeafSizes.rawStart_mono (by omega)
    have hfirst : ∀ memory, word ((⟨(leaf.encodeSegment S hopped 0 (r + 1) (rbuf 2) (rbuf 0)).1,
        (leaf.encodeSegment S hopped 0 (r + 1) (rbuf 2) (rbuf 0)).2.2,
        (leaf.encodeSegment S hopped 0 (r + 1) (rbuf 2) (rbuf 0)).2.1⟩ : Region).write memory)
        (getLockInfo S.transLeafSize) = word memory (getLockInfo S.transLeafSize) :=
      write_nodeRegion (by rw [hoff, hlen]; omega)
    have hlast : WritesLast (getLockInfo S.transLeafSize) w (partRegions S.transLeafSize true
        (leaf.encodeSegment S hopped l (S.leafSpanSize - l) (rbuf 3) (rbuf 1)).1
        (leaf.encodeSegment S hopped l (S.leafSpanSize - l) (rbuf 3) (rbuf 1)).2.1
        (leaf.encodeSegment S hopped l (S.leafSpanSize - l) (rbuf 3) (rbuf 1)).2.2 (lockBytes w)) :=
      writesLast_segment (by omega) fun _ => by omega
    exact hlast.cons hfirst

/-- **Every release** writes the lock buffer to the lock word, and does so last. -/
theorem Release.writesLast {kind : NodeKind} {release : Release kind} (h : release.Valid) :
    WritesLast (getLockInfo kind.transSize) w (release.regions (lockBytes w)) := by
  cases release with
  | unlock => exact writesLast_unlockNode
  | segmentWrite leaf l r hopped rbuf => exact writesLast_segmentWrite h.1 h.2
  | leafEntryWrite leaf idx kv rbuf =>
    rw [regions, RawLeaf.entryWriteAndUnlock_eq]
    exact writesLast_segmentWrite h h
  | hopscotchSplit latch leaf rbuf => exact writesLast_nodeRegions
  | entryWrite entry idx rbuf => exact writesLast_entryWrite h
  | nodeWrite latch node rbuf => exact writesLast_nodeRegions
  | nodeSplit latch node rbuf => exact writesLast_nodeRegions

end Releases

namespace NodeLock

variable {L : Layout} {kind : NodeKind} {s s' : State} {es h : List Event} {memory : Nat → UInt8} {initial : UInt64}

/-! ## An attempt -/

theorem acquireLock_of_free (h : lockWord kind memory &&& lockMask = 0) :
    (acquireLock kind memory).1 = true ∧ lockWord kind (acquireLock kind memory).2.2 = ~~~0 := by
  refine ⟨by simp [acquireLock, h], ?_⟩
  rw [acquireLock, lockWord, word_setWord, maskedCompareSwap, if_pos (by rw [h]; decide)]
  simp

/-- **A failed attempt** leaves the memory. -/
theorem acquireLock_of_taken (h : lockWord kind memory &&& lockMask ≠ 0) :
    (acquireLock kind memory).1 = false ∧ (acquireLock kind memory).2.2 = memory := by
  have hzero : (0 : UInt64) &&& lockMask = 0 := by decide
  refine ⟨by simp [acquireLock, Ne.symm h], ?_⟩
  rw [acquireLock, maskedCompareSwap, if_neg (by rwa [hzero])]
  exact setWord_word

theorem step_attempt_of_free {c : Nat} (hpc : s.clients c = .locking) (h : lockWord kind s.memory &&& lockMask = 0) :
    step L kind s (.attempt c) = some (⟨(acquireLock kind s.memory).2.2,
      Function.update s.clients c (.holding (lockWord kind s.memory))⟩, [.acquired c (lockWord kind s.memory)]) := by
  have hsucc : (acquireLock kind s.memory).1 = true := (acquireLock_of_free h).1
  simp only [step, hpc, hsucc, if_true]
  rfl

theorem step_attempt_of_taken {c : Nat} (hpc : s.clients c = .locking) (h : lockWord kind s.memory &&& lockMask ≠ 0) :
    step L kind s (.attempt c) = some (s, [.failed c (lockWord kind s.memory)]) := by
  obtain ⟨hfail, hsame⟩ := acquireLock_of_taken h
  simp only [step, hpc, hfail, hsame, reduceCtorEq, if_false]
  rfl

/-! ## What a step does -/

variable (kind) in
/-- What a client keeps: the bit of its lock buffer is clear, and the regions that are left end with the lock word. -/
def Pc.Owns : Pc → Prop
  | holding lockBuffer => lockBuffer &&& lockMask = 0
  | releasing lockBuffer regions =>
    lockBuffer &&& lockMask = 0 ∧ WritesLast (getLockInfo kind.transSize) lockBuffer regions
  | aborted => False
  | _ => True

variable (kind) in
/-- What a step of a client does, from a state with its `Owns`. -/
inductive Effect (s : State) (c : Nat) : State → List Event → Prop
  | enter : s.clients c = .idle → Effect s c ⟨s.memory, Function.update s.clients c .locking⟩ []
  | acquired (memory : Nat → UInt8) : s.clients c = .locking → lockWord kind s.memory &&& lockMask = 0 →
      lockWord kind memory = ~~~0 →
      Effect s c ⟨memory, Function.update s.clients c (.holding (lockWord kind s.memory))⟩
        [.acquired c (lockWord kind s.memory)]
  | failed : Effect s c s [.failed c (lockWord kind s.memory)]
  | keep (memory : Nat → UInt8) (pc : Pc) : (s.clients c).Holds → pc.Holds → pc.Owns kind →
      lockWord kind memory = lockWord kind s.memory → Effect s c ⟨memory, Function.update s.clients c pc⟩ []
  | unlocked (memory : Nat → UInt8) (lockBuffer : UInt64) (region : Region) :
      s.clients c = .releasing lockBuffer [region] → lockWord kind memory = lockBuffer →
      Effect s c ⟨memory, Function.update s.clients c .idle⟩ [.unlocked c lockBuffer]

theorem owns_holding {pc : Pc} {b : UInt64} (hown : pc.Owns kind) (hpc : pc = .holding b) : b &&& lockMask = 0 := by
  subst hpc
  exact hown

theorem owns_releasing {pc : Pc} {b : UInt64} {regions : List Region} (hown : pc.Owns kind)
    (hpc : pc = .releasing b regions) : b &&& lockMask = 0 ∧ WritesLast (getLockInfo kind.transSize) b regions := by
  subst hpc
  exact hown

/-- The asserted bit is clear. -/
theorem checked_of_owns {c : Nat} {lockBuffer : UInt64} {next : Pc} (h : lockBuffer &&& lockMask = 0) :
    checked s c lockBuffer next = (⟨s.memory, Function.update s.clients c next⟩, []) := if_pos h

/-- **The steps**, if the clients own what they hold. -/
theorem step_effect {a : Action kind} (hown : ∀ c, (s.clients c).Owns kind) (hg : Guard kind s a)
    (he : step L kind s a = some (s', es)) : ∃ c, Effect kind s c s' es := by
  cases a with
  | lock c =>
    refine ⟨c, ?_⟩
    cases hpc : s.clients c <;> simp only [step, hpc, Option.some.injEq, Prod.mk.injEq, reduceCtorEq] at he
    obtain ⟨rfl, rfl⟩ := he
    exact .enter hpc
  | attempt c =>
    refine ⟨c, ?_⟩
    cases hpc : s.clients c with
    | locking =>
      by_cases hfree : lockWord kind s.memory &&& lockMask = 0
      · rw [step_attempt_of_free hpc hfree, Option.some.injEq, Prod.mk.injEq] at he
        obtain ⟨rfl, rfl⟩ := he
        exact .acquired _ hpc hfree (acquireLock_of_free hfree).2
      · rw [step_attempt_of_taken hpc hfree, Option.some.injEq, Prod.mk.injEq] at he
        obtain ⟨rfl, rfl⟩ := he
        exact .failed
    | _ => simp only [step, hpc, reduceCtorEq] at he
  | check c =>
    refine ⟨c, ?_⟩
    cases hpc : s.clients c with
    | holding b =>
      have hb : b &&& lockMask = 0 := owns_holding (hown c) hpc
      simp only [step, hpc, checked_of_owns hb, Option.some.injEq, Prod.mk.injEq] at he
      obtain ⟨rfl, rfl⟩ := he
      exact .keep _ _ (by rw [hpc]; trivial) trivial hb rfl
    | _ => simp only [step, hpc, reduceCtorEq] at he
  | updateMaxKeyIdx c k =>
    refine ⟨c, ?_⟩
    cases hpc : s.clients c with
    | holding b =>
      have hb : b &&& lockMask = 0 := owns_holding (hown c) hpc
      simp only [step, hpc, Option.some.injEq, Prod.mk.injEq] at he
      obtain ⟨rfl, rfl⟩ := he
      exact .keep _ _ (by rw [hpc]; trivial) trivial (Valock.toWord_lockMask.2 hb) rfl
    | _ => simp only [step, hpc, reduceCtorEq] at he
  | updateVacancy c l r emptyIdxes =>
    refine ⟨c, ?_⟩
    cases hpc : s.clients c with
    | holding b =>
      have hb : b &&& lockMask = 0 := owns_holding (hown c) hpc
      simp only [step, hpc] at he
      split at he
      · rename_i lock _
        rw [Option.some.injEq, Prod.mk.injEq] at he
        obtain ⟨rfl, rfl⟩ := he
        exact .keep _ _ (by rw [hpc]; trivial) trivial (Valock.toWord_lockMask.2 hb) rfl
      · cases he
    | _ => simp only [step, hpc, reduceCtorEq] at he
  | release c release =>
    refine ⟨c, ?_⟩
    cases hpc : s.clients c with
    | holding b =>
      have hb : b &&& lockMask = 0 := owns_holding (hown c) hpc
      simp only [step, hpc, checked_of_owns hb, ite_self, Option.some.injEq, Prod.mk.injEq] at he
      obtain ⟨rfl, rfl⟩ := he
      exact .keep _ _ (by rw [hpc]; trivial) trivial ⟨hb, Release.writesLast hg⟩ rfl
    | _ => simp only [step, hpc, reduceCtorEq] at he
  | writeFirst c n =>
    refine ⟨c, ?_⟩
    cases hpc : s.clients c with
    | releasing b regions =>
      obtain ⟨hb, hlast⟩ := owns_releasing (hown c) hpc
      cases regions with
      | nil => simp only [step, hpc, reduceCtorEq] at he
      | cons r rs =>
        simp only [step, hpc] at he
        split at he
        · rename_i hn
          rw [Option.some.injEq, Prod.mk.injEq] at he
          obtain ⟨rfl, rfl⟩ := he
          refine .keep _ _ (by rw [hpc]; trivial) trivial ⟨hb, hlast.rest hn.1.le hn.2⟩ ?_
          exact word_copy (.inr hn.2)
        · cases he
    | _ => simp only [step, hpc, reduceCtorEq] at he
  | write c =>
    refine ⟨c, ?_⟩
    cases hpc : s.clients c with
    | releasing b regions =>
      obtain ⟨hb, hlast⟩ := owns_releasing (hown c) hpc
      cases regions with
      | nil => simp only [step, hpc, reduceCtorEq] at he
      | cons r rs =>
        simp only [step, hpc] at he
        cases rs with
        | nil =>
          rw [if_pos rfl, Option.some.injEq, Prod.mk.injEq] at he
          obtain ⟨rfl, rfl⟩ := he
          rw [WritesLast, if_pos rfl] at hlast
          exact .unlocked _ b r hpc (hlast s.memory)
        | cons r' rs =>
          rw [if_neg (List.cons_ne_nil _ _), Option.some.injEq, Prod.mk.injEq] at he
          obtain ⟨rfl, rfl⟩ := he
          rw [WritesLast, if_neg (List.cons_ne_nil _ _)] at hlast
          exact .keep _ _ (by rw [hpc]; trivial) trivial ⟨hb, hlast.2⟩ (hlast.1 s.memory)
    | _ => simp only [step, hpc, reduceCtorEq] at he

/-! ## All runs -/

/-- What the events say: every attempt that succeeds gets the last word that was stored, and no assertion fails. -/
structure HandedOver (initial : UInt64) (h : List Event) : Prop where
  acquired : ∀ h₁ h₂ c lockBuffer, h = h₁ ++ .acquired c lockBuffer :: h₂ →
    lockBuffer = lastStored initial h₂ ∧ lockBuffer &&& lockMask = 0
  asserts : ∀ c, .assertFails c ∉ h

theorem HandedOver.cons {e : Event} (hh : HandedOver initial h)
    (hacq : ∀ c lockBuffer, e = .acquired c lockBuffer → lockBuffer = lastStored initial h ∧
      lockBuffer &&& lockMask = 0)
    (hass : ∀ c, e ≠ .assertFails c) : HandedOver initial (e :: h) := by
  refine ⟨fun h₁ h₂ c b heq => ?_, fun c hmem => ?_⟩
  · rcases List.cons_eq_append_iff.1 heq with ⟨-, heq⟩ | ⟨h₁', -, heq⟩
    · obtain ⟨he, rfl⟩ := List.cons.inj heq
      exact hacq c b he.symm
    · exact hh.acquired h₁' h₂ c b heq
  · rcases List.mem_cons.1 hmem with heq | hmem
    · exact hass c heq.symm
    · exact hh.asserts c hmem

variable (kind) in
/-- The invariant of the lock. -/
structure LockInv (initial : UInt64) (s : State) (h : List Event) : Prop where
  owns : ∀ c, (s.clients c).Owns kind
  one : ∀ c d, (s.clients c).Holds → (s.clients d).Holds → c = d
  held : ∀ c, (s.clients c).Holds → lockWord kind s.memory = ~~~0
  free : (∀ c, ¬(s.clients c).Holds) → lockWord kind s.memory = lastStored initial h
  handed : HandedOver initial h

namespace LockInv

variable {c : Nat}

/-- Nobody holds a lock whose bit is clear. -/
theorem not_holds (hi : LockInv kind initial s h) (hfree : lockWord kind s.memory &&& lockMask = 0) :
    ¬(s.clients c).Holds := by
  intro hc
  rw [hi.held c hc] at hfree
  exact allOnes_lockMask hfree

/-- The holders after a step of `c`. -/
theorem holds_update {clients : Nat → Pc} {pc : Pc} {d : Nat} :
    (Function.update clients c pc d).Holds ↔ d = c ∧ pc.Holds ∨ d ≠ c ∧ (clients d).Holds := by
  by_cases hd : d = c
  · subst hd
    rw [Function.update_self]
    simp
  · rw [Function.update_of_ne hd]
    simp [hd]

theorem owns_update {clients : Nat → Pc} {pc : Pc} (hown : ∀ c, (clients c).Owns kind) (hpc : pc.Owns kind) (d : Nat) :
    (Function.update clients c pc d).Owns kind := by
  by_cases hd : d = c
  · subst hd
    rwa [Function.update_self]
  · rw [Function.update_of_ne hd]
    exact hown d

theorem init : LockInv kind (lockWord kind memory) (machine L kind memory).init [] where
  owns _ := trivial
  one _ _ hc _ := hc.elim
  held _ hc := hc.elim
  free _ := rfl
  handed := ⟨fun h₁ _ _ _ heq => by simp at heq, fun _ hmem => by cases hmem⟩

/-- **One step**. -/
theorem step (hi : LockInv kind initial s h) (he : Effect kind s c s' es) : LockInv kind initial s' (es ++ h) := by
  cases he with
  | enter hpc =>
    have hnot : ¬(s.clients c).Holds := by
      rw [hpc]
      exact id
    have hsame : ∀ d, (Function.update s.clients c .locking d).Holds ↔ (s.clients d).Holds := by
      intro d
      rw [holds_update]
      refine ⟨fun hd => hd.elim (fun hd => hd.2.elim) And.right, fun hd => .inr ⟨?_, hd⟩⟩
      rintro rfl
      exact hnot hd
    exact ⟨owns_update hi.owns trivial, fun d e hd he => hi.one d e ((hsame d).1 hd) ((hsame e).1 he),
      fun d hd => hi.held d ((hsame d).1 hd), fun hfree => hi.free fun d hd => hfree d ((hsame d).2 hd), hi.handed⟩
  | acquired memory hpc hfree hword =>
    have hnone : ∀ d, ¬(s.clients d).Holds := fun d => hi.not_holds hfree
    have hholds : ∀ d, (Function.update s.clients c (.holding (lockWord kind s.memory)) d).Holds → d = c := by
      intro d hd
      rcases holds_update.1 hd with ⟨hdc, -⟩ | ⟨-, hd⟩
      · exact hdc
      · exact (hnone d hd).elim
    refine ⟨owns_update hi.owns hfree, fun d e hd he => (hholds d hd).trans (hholds e he).symm, fun _ _ => hword,
      fun hnot => (hnot c (holds_update.2 (.inl ⟨rfl, trivial⟩))).elim, hi.handed.cons (fun d b heq => ?_) nofun⟩
    cases heq
    exact ⟨hi.free hnone, hfree⟩
  | failed => exact ⟨hi.owns, hi.one, hi.held, hi.free, hi.handed.cons nofun nofun⟩
  | keep memory pc hc hpc hown hword =>
    have hsame : ∀ d, (Function.update s.clients c pc d).Holds ↔ (s.clients d).Holds := by
      intro d
      rw [holds_update]
      refine ⟨fun hd => hd.elim (fun hd => hd.1 ▸ hc) And.right, fun hd => ?_⟩
      by_cases hdc : d = c
      · exact .inl ⟨hdc, hpc⟩
      · exact .inr ⟨hdc, hd⟩
    exact ⟨owns_update hi.owns hown, fun d e hd he => hi.one d e ((hsame d).1 hd) ((hsame e).1 he),
      fun d hd => hword.trans (hi.held d ((hsame d).1 hd)), fun hfree => (hfree c ((hsame c).2 hc)).elim, hi.handed⟩
  | unlocked memory b region hpc hword =>
    have hc : (s.clients c).Holds := by
      rw [hpc]
      trivial
    have hnone : ∀ d, ¬(Function.update s.clients c .idle d).Holds := by
      intro d hd
      rcases holds_update.1 hd with ⟨-, hd⟩ | ⟨hne, hd⟩
      · exact hd
      · exact hne (hi.one d c hd hc)
    exact ⟨owns_update hi.owns trivial, fun d _ hd _ => (hnone d hd).elim, fun d hd => (hnone d hd).elim,
      fun _ => hword, hi.handed.cons nofun nofun⟩

/-- **All runs**. -/
theorem of_run (hrun : (machine L kind memory).Run (Guard kind) s h) :
    LockInv kind (lockWord kind memory) s h :=
  Machine.Run.invariant init (fun _ hi hg he =>
    have ⟨_, heff⟩ := step_effect hi.owns hg he
    hi.step heff) hrun

end LockInv
end NodeLock

/-- **The remote lock**: in all runs of all clients of a node at most one client is between its successful attempt and
its unlocking write; the attempt got the word that was stored last, its bit clear; who fails changes nothing, who
unlocks stores its lock buffer, and no assertion fails. -/
theorem remote_lock (L : Layout) (kind : NodeKind) (memory : Nat → UInt8) :
    ∀ s h, (machine L kind memory).Run (Guard kind) s h →
      (∀ c d, (s.clients c).Holds → (s.clients d).Holds → c = d) ∧
      ((∀ c, ¬(s.clients c).Holds) → lockWord kind s.memory = lastStored (lockWord kind memory) h) ∧
      (∀ h₁ h₂ c lockBuffer, h = h₁ ++ .acquired c lockBuffer :: h₂ →
        lockBuffer = lastStored (lockWord kind memory) h₂ ∧ lockBuffer &&& lockMask = 0) ∧
      (∀ c, .assertFails c ∉ h) ∧
      ∀ a s' es, Guard kind s a → step L kind s a = some (s', es) →
        (∀ c lockBuffer, .failed c lockBuffer ∈ es → s' = s) ∧
        ∀ c lockBuffer, .unlocked c lockBuffer ∈ es →
          (∃ regions, s.clients c = .releasing lockBuffer regions) ∧ lockWord kind s'.memory = lockBuffer := by
  intro s h hrun
  have hi := LockInv.of_run hrun
  refine ⟨hi.one, hi.free, hi.handed.acquired, hi.handed.asserts, fun a s' es hg he => ?_⟩
  obtain ⟨c, heff⟩ := step_effect hi.owns hg he
  cases heff with
  | failed => exact ⟨fun _ _ _ => rfl, fun d b hmem => by simp at hmem⟩
  | unlocked memory b region hpc hword =>
    refine ⟨fun d b' hmem => by simp at hmem, fun d b' hmem => ?_⟩
    cases List.mem_singleton.1 hmem
    exact ⟨⟨_, hpc⟩, hword⟩
  | _ => exact ⟨fun d b hmem => by simp at hmem, fun d b hmem => by simp at hmem⟩

/-- Two clients come for the lock. The first one gets it, and the second one fails; the first one changes the lock word,
writes a record and unlocks, and the second one gets the lock. -/
def lockedTwice : List (Action (.leaf sampleSizes)) :=
  [.lock 0, .lock 1, .attempt 0, .attempt 1, .updateMaxKeyIdx 0 3,
    .release 0 (.leafEntryWrite sampleLeaf 1 (fun _ => 7) fun _ _ => 0), .writeFirst 0 5, .write 0, .write 0, .attempt 1]

/-- The second client gets the word that the first one stored. -/
theorem remote_lock_sample : ∃ s, (machine .small (.leaf sampleSizes) fun _ => 0).Run (Guard _) s
      [.acquired 1 48, .unlocked 0 48, .failed 1 (~~~0), .acquired 0 0] ∧
    (∀ c, (s.clients c).Holds → c = 1) ∧ (48 : UInt64) &&& lockMask = 0 := by
  have hevents : (((machine .small (.leaf sampleSizes) fun _ => 0).exec (fun s a => decide (Guard _ s a))
      ⟨fun _ => 0, fun _ => .idle⟩ [] lockedTwice).map fun y => (y.2, decide (y.1.clients 1).Holds)) =
        some ([.acquired 1 48, .unlocked 0 48, .failed 1 (~~~0), .acquired 0 0], true) := by decide +kernel
  obtain ⟨⟨s, h⟩, hexec, heq⟩ := Option.map_eq_some_iff.1 hevents
  obtain ⟨rfl, hholds⟩ := Prod.mk.inj heq
  have hrun := Machine.Run.of_exec (I := fun _ => True) (fun _ ha => of_decide_eq_true ha) (fun _ _ _ => trivial)
    trivial .init hexec
  obtain ⟨hone, -, hacquired, -⟩ := remote_lock .small (.leaf sampleSizes) (fun _ => 0) s _ hrun
  exact ⟨s, hrun, fun c hc => hone c 1 hc (of_decide_eq_true hholds), (hacquired [] _ 1 48 rfl).2⟩

end Chime

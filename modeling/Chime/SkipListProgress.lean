import Chime.SkipListRuns
import Mathlib.Data.Finset.Card
import Mathlib.Order.Interval.Finset.Nat

/-!
# Progress in the skip list

A call takes a bounded number of steps of its own, whatever the other threads do (`skiplist_calls_bounded`). A search
has the levels to go down and the nodes up to its target to go through. A compare-and-swap that fails has lost to a node
between the two of the splice, so that the next splice has fewer nodes in it. The bound is in the number of nodes that
are allocated by the end of the call.
-/

namespace Chime
namespace SkipList

variable {α : Type} [LinearOrder α]

namespace Memory

/-- The nodes between two ranks, and those that are not allocated yet, of `N` nodes. -/
def room (m : Memory α) (N : Nat) (lo : WithBot α) (hi : WithTop (WithBot α)) : Nat :=
  ((Finset.range m.size).filter fun n => lo < m.rank n ∧ (m.rank n : WithTop (WithBot α)) < hi).card + (N - m.size)

/-- Where the node of a link is. -/
def bound (m : Memory α) (nx : Option Node) : WithTop (WithBot α) := nx.elim ⊤ fun n => m.rank n

end Memory

/-- The steps for the links of `r` levels, with `span` nodes in the first splice. -/
def linkSteps (N r span : Nat) : Nat := (r * (N + 1) + span) * (N + 4)

/-- The steps of a call, with `N` nodes. -/
def callSteps (kMaxHeight N : Nat) : Nat := linkSteps N kMaxHeight N + 2 * kMaxHeight + N + 6

/-- The steps that a thread has left. -/
def Pc.stepsLeft (kMaxHeight N : Nat) (m : Memory α) : Pc α → Nat
  | .idle => callSteps kMaxHeight N
  | .load x => linkSteps N (m.height x) N + 2 * kMaxHeight + N + 6
  | .raise x maxHeight => linkSteps N (m.height x) N + kMaxHeight + N + 5 + (kMaxHeight - maxHeight)
  | .recompute x _ i before => linkSteps N (m.height x) N + 3 + i + m.room N (m.rank before) (m.key x : WithBot α)
  | .link x sp i _ => linkSteps N (m.height x - i) (m.room N (m.rank (sp.prev i)) (m.bound (sp.next i))) + 2
  | .cas x sp i _ => linkSteps N (m.height x - i) (m.room N (m.rank (sp.prev i)) (m.bound (sp.next i))) + 1
  | .refind x sp i before _ =>
    linkSteps N (m.height x - i) (m.room N (m.rank (sp.prev i)) (m.bound (sp.next i)) - 1) + 3 +
      m.room N (m.rank before) (m.key x : WithBot α)
  | .height _ => kMaxHeight + N + 2
  | .seek target x level _ => level + m.room N (m.rank x) (target : WithBot α) + 1
  | .advance _ => 1
  | .inserted _ _ | .found _ _ | .failed => 0

variable {kMaxHeight N : Nat} {m m' : Memory α} {S S' : Levels} {n x before : Node} {i : Nat} {sp : Splice}
  {pc pc' : Pc α} {valid : Bool} {maxHeight loaded level : Nat} {target : α} {lastBigger : Option Node}
  {lo lo' : WithBot α} {hi hi' : WithTop (WithBot α)}

/-! ## Nodes between -/

theorem room_le (lo : WithBot α) (hi : WithTop (WithBot α)) (hN : m.size ≤ N) : m.room N lo hi ≤ N := by
  refine (Nat.add_le_add_right (Finset.card_filter_le _ _) _).trans ?_
  rw [Finset.card_range]
  omega

/-- Fewer nodes are between closer bounds. -/
theorem room_lt (hlo : lo ≤ lo') (hhi : hi' ≤ hi) (hn : n < m.size) (hin : lo < m.rank n)
    (hin' : (m.rank n : WithTop (WithBot α)) < hi) (hout : lo' < m.rank n → hi' ≤ m.rank n) :
    m.room N lo' hi' < m.room N lo hi := by
  refine Nat.add_lt_add_right (Finset.card_lt_card ⟨fun j hj => ?_, fun hsub => ?_⟩) _
  · rw [Finset.mem_filter] at hj ⊢
    exact ⟨hj.1, hlo.trans_lt hj.2.1, hj.2.2.trans_le hhi⟩
  · have := hsub (Finset.mem_filter.2 ⟨Finset.mem_range.2 hn, hin, hin'⟩)
    rw [Finset.mem_filter] at this
    exact (hout this.2.1).not_gt this.2.2

theorem lt_bound {nx : Option Node} (h : ∀ n', nx = some n' → m.rank n < m.rank n') :
    (m.rank n : WithTop (WithBot α)) < m.bound nx := by
  cases nx with
  | none => exact WithTop.coe_lt_top _
  | some n' => exact WithTop.coe_lt_coe.2 (h n' rfl)

/-- The nodes that come were counted. -/
theorem Grows.room (hg : Grows m S m' S') (hN : m'.size ≤ N) : m'.room N lo hi ≤ m.room N lo hi := by
  have hsub : ((Finset.range m'.size).filter fun n => lo < m'.rank n ∧ (m'.rank n : WithTop (WithBot α)) < hi) ⊆
      ((Finset.range m.size).filter fun n => lo < m.rank n ∧ (m.rank n : WithTop (WithBot α)) < hi) ∪
        Finset.Ico m.size m'.size := by
    intro n hn
    rw [Finset.mem_filter, Finset.mem_range] at hn
    rw [Finset.mem_union, Finset.mem_filter, Finset.mem_range, Finset.mem_Ico]
    by_cases hlt : n < m.size
    · rw [hg.rank hlt] at hn
      exact .inl ⟨hlt, hn.2⟩
    · exact .inr ⟨not_lt.1 hlt, hn.1⟩
  have hcard := (Finset.card_le_card hsub).trans (Finset.card_union_le _ _)
  rw [Nat.card_Ico] at hcard
  have := hg.size
  rw [Memory.room, Memory.room]
  omega

omit [LinearOrder α] in
theorem Grows.bound (hg : Grows m S m' S') {nx : Option Node} (h : ∀ n, nx = some n → n < m.size) :
    m'.bound nx = m.bound nx := by
  cases nx with
  | none => rfl
  | some n => exact congrArg _ (hg.rank (h n rfl))

/-- One level less. -/
theorem linkSteps_level (span : Nat) {r r' span' : Nat} (hr : r' < r) (hs : span' ≤ N) :
    linkSteps N r' span' + (N + 4) ≤ linkSteps N r span := by
  have hle : r' * (N + 1) + span' + 1 ≤ r * (N + 1) + span := by
    have := Nat.mul_le_mul_right (N + 1) (Nat.succ_le_of_lt hr)
    rw [Nat.succ_mul] at this
    omega
  calc linkSteps N r' span' + (N + 4) = (r' * (N + 1) + span' + 1) * (N + 4) := by rw [linkSteps, Nat.succ_mul]
    _ ≤ linkSteps N r span := Nat.mul_le_mul_right _ hle

/-- One node less in the splice. -/
theorem linkSteps_span {r span span' : Nat} (hs : span' < span) :
    linkSteps N r span' + (N + 4) ≤ linkSteps N r span := by
  calc linkSteps N r span' + (N + 4) = (r * (N + 1) + span' + 1) * (N + 4) := by rw [linkSteps, Nat.succ_mul]
    _ ≤ linkSteps N r span := Nat.mul_le_mul_right _ (by omega)

theorem linkSteps_mono {r r' span span' : Nat} (hr : r' ≤ r) (hs : span' ≤ span) :
    linkSteps N r' span' ≤ linkSteps N r span :=
  Nat.mul_le_mul_right _ (Nat.add_le_add (Nat.mul_le_mul_right _ hr) hs)

/-! ## Steps of the thread -/

/-- A turn of `FindSpliceForLevel` that goes on. -/
theorem Passed.room_lt (hm : m.Ok kMaxHeight S) {start : Node} (h : Passed m S x start i before) {after : Option Node}
    (he : m.findSpliceForLevel (m.key x) (m.next before i) after = some n) :
    m.room N (m.rank n) (m.key x : WithBot α) < m.room N (m.rank before) (m.key x : WithBot α) := by
  obtain ⟨hmem, hlt, -⟩ := hm.next h.mem (findSplice_some he).1
  have hin := (h.pass hm he).lt
  exact SkipList.room_lt hlt.le le_rfl (hm.lt_size hmem) hlt (WithTop.coe_lt_coe.2 hin) fun h => absurd h (lt_irrefl _)

/-- **A new splice** after a compare-and-swap that has failed has fewer nodes in it. -/
theorem Passed.span_lt (hm : m.Ok kMaxHeight S) (h : Passed m S x (sp.prev i) i before) (hat : SpliceAt m S x sp i)
    (hn : n ∈ S i) (hlt : m.rank (sp.prev i) < m.rank n) (hlt' : ∀ n', sp.next i = some n' → m.rank n < m.rank n') :
    m.room N (m.rank before) (m.bound (m.next before i)) < m.room N (m.rank (sp.prev i)) (m.bound (sp.next i)) := by
  have hle : m.rank (sp.prev i) ≤ m.rank before := by
    rcases h.start with he | hlt
    · rw [he]
    · exact hlt.le
  refine SkipList.room_lt hle ?_ (hm.lt_size hn) hlt ?_ fun hb => ?_
  · cases hnext : sp.next i with
    | none => exact le_top
    | some n' =>
      obtain ⟨hmem, -, hge⟩ := hat.next n' hnext
      cases he : m.next before i with
      | none => exact absurd hge ((hm.linked i).none_first h.mem h.lt he hmem).not_ge
      | some n'' => exact WithTop.coe_le_coe.2 ((hm.linked i).first h.mem h.lt he hmem hge)
  · exact lt_bound hlt'
  · cases he : m.next before i with
    | none => exact absurd hb ((hm.linked i).last h.mem he hn).not_gt
    | some n'' => exact WithTop.coe_le_coe.2 ((hm.linked i).between h.mem he hn hb)

/-- `max_height_` is loaded and raised until it is the height of the new node or more. -/
theorem stepsLeft_raise (hm : m.Ok kMaxHeight S) (hown : Owns kMaxHeight m S (.raise x maxHeight))
    (h : PcOk m S (.raise x maxHeight)) (hN : m.size ≤ N)
    (he : m.step loaded false (.raise x maxHeight) = some (m', pc')) :
    pc'.stepsLeft kMaxHeight N m' < (Pc.raise x maxHeight).stepsLeft kMaxHeight N m := by
  obtain ⟨hpos, hle⟩ := h
  obtain ⟨-, -, hheight, -⟩ := hown x 0 rfl
  have hmax := hm.maxHeight
  simp only [Memory.step, Bool.not_false, and_true] at he
  split at he
  · split at he
    · cases he
      simp only [Pc.stepsLeft]
      omega
    · cases he
      simp only [Pc.stepsLeft]
      omega
  · split at he
    · cases he
      have := room_le (m.rank head) (m.key x : WithBot α) hN
      simp only [Pc.stepsLeft]
      omega
    · cases he
      simp only [Pc.stepsLeft]
      omega

/-- `RecomputeSpliceLevels` passes a node, or goes down a level. -/
theorem stepsLeft_recompute (hm : m.Ok kMaxHeight S) (h : PcOk m S (.recompute x sp i before)) (hN : m.size ≤ N)
    (he : m.step loaded false (.recompute x sp i before) = some (m', pc')) :
    pc'.stepsLeft kMaxHeight N m' < (Pc.recompute x sp i before).stepsLeft kMaxHeight N m := by
  obtain ⟨hi, hsp, hb⟩ := h
  simp only [Memory.step, if_pos (hb.checks hm)] at he
  split at he
  · rename_i n hn
    cases he
    have := hb.room_lt (N := N) hm hn
    simp only [Pc.stepsLeft]
    omega
  · cases i with
    | zero =>
      cases he
      have hspan := room_le (m.rank before) (m.bound (m.next before 0)) hN
      have := linkSteps_mono (N := N) (Nat.sub_le (m.height x) 0) hspan
      simp only [Pc.stepsLeft, Splice.set_prev, Splice.set_next]
      omega
    | succ i =>
      cases he
      simp only [Pc.stepsLeft, Splice.set_prev]
      omega

theorem stepsLeft_link (he : m.step loaded false (.link x sp i valid) = some (m', pc')) :
    pc'.stepsLeft kMaxHeight N m' < (Pc.link x sp i valid).stepsLeft kMaxHeight N m := by
  simp only [Memory.step] at he
  split at he
  · split at he
    · cases he
      exact Nat.succ_pos _
    · split at he
      · cases he
        exact Nat.lt_succ_self _
      · cases he
        exact Nat.succ_pos _
  · split at he
    · cases he
      exact Nat.succ_pos _
    · cases he
      exact Nat.succ_pos _

/-- A compare-and-swap ends a level, or a node has come into the splice. -/
theorem stepsLeft_cas (hm : m.Ok kMaxHeight S) (h : PcOk m S (.cas x sp i valid)) (hN : m.size ≤ N)
    (he : m.step loaded false (.cas x sp i valid) = some (m', pc')) :
    pc'.stepsLeft kMaxHeight N m' < (Pc.cas x sp i valid).stepsLeft kMaxHeight N m := by
  obtain ⟨hi, hsp, -⟩ := h
  simp only [Memory.step] at he
  split at he
  · cases he
    have hlevel : m.height x - (i + 1) < m.height x - i := by omega
    have := linkSteps_level (m.room N (m.rank (sp.prev i)) (m.bound (sp.next i))) hlevel
      (room_le (m.rank (sp.prev (i + 1))) (m.bound (sp.next (i + 1))) hN)
    simp only [Pc.stepsLeft]
    exact (Nat.add_lt_add_left (show 2 < N + 4 + 1 by omega) _).trans_le (Nat.add_le_add_right this 1)
  · rename_i hcas
    cases he
    obtain ⟨n, hn, hlt, hlt'⟩ := (hsp.level i (Nat.zero_le i) (hi.le.trans hsp.height)).newer hm hcas
    have hpos : 0 < m.room N (m.rank (sp.prev i)) (m.bound (sp.next i)) :=
      (Nat.zero_le _).trans_lt
        (SkipList.room_lt le_rfl (lt_bound hlt').le (hm.lt_size hn) hlt (lt_bound hlt') fun _ => le_rfl)
    have hless := linkSteps_span (N := N) (r := m.height x - i) (Nat.sub_lt hpos Nat.one_pos)
    have := room_le (m.rank (sp.prev i)) (m.key x : WithBot α) hN
    simp only [Pc.stepsLeft]
    omega

/-- The search for a new splice passes a node, or finds a splice with fewer nodes. -/
theorem stepsLeft_refind (hm : m.Ok kMaxHeight S) (h : PcOk m S (.refind x sp i before valid))
    (he : m.step loaded false (.refind x sp i before valid) = some (m', pc')) :
    pc'.stepsLeft kMaxHeight N m' < (Pc.refind x sp i before valid).stepsLeft kMaxHeight N m := by
  obtain ⟨hi, hsp, hb, n, hn, hlt, hlt'⟩ := h
  simp only [Memory.step, if_pos (hb.checks hm)] at he
  split at he
  · rename_i n hn
    cases he
    have := hb.room_lt (N := N) hm hn
    simp only [Pc.stepsLeft]
    omega
  · cases he
    have hspan := hb.span_lt (N := N) hm (hsp.level i (Nat.zero_le i) (hi.le.trans hsp.height)) hn hlt hlt'
    have := linkSteps_mono (N := N) (le_refl (m.height x - i)) (Nat.le_sub_one_of_lt hspan)
    simp only [Pc.stepsLeft, Splice.set_prev, Splice.set_next]
    omega

/-- `FindGreaterOrEqual` goes to the right or down. -/
theorem stepsLeft_seek (hm : m.Ok kMaxHeight S) (h : PcOk m S (.seek target x level lastBigger))
    (he : m.step loaded false (.seek target x level lastBigger) = some (m', pc')) :
    pc'.stepsLeft kMaxHeight N m' < (Pc.seek target x level lastBigger).stepsLeft kMaxHeight N m := by
  obtain ⟨hx, hlt, hbig⟩ := h
  simp only [Memory.step, if_pos (hm.ordered hx hlt)] at he
  split at he
  · cases he
    exact Nat.succ_pos _
  · rename_i hcmp
    split at he
    · -- to the right
      rename_i n hlt' hn
      cases he
      obtain ⟨hmem, hgt, hne⟩ := hm.next hx hn
      rw [hn, cmp_some hne hbig, compare_lt_iff_lt] at hlt'
      have := SkipList.room_lt (N := N) hgt.le le_rfl (hm.lt_size hmem) hgt
        (WithTop.coe_lt_coe.2 ((Memory.rank_lt hne).2 hlt')) fun h => absurd h (lt_irrefl _)
      simp only [Pc.stepsLeft]
      omega
    · -- down: the search is not at the level 0, where it would end
      rename_i hno
      cases he
      have hpos : level ≠ 0 := by
        rintro rfl
        refine hcmp ?_
        cases hc : m.cmp target (m.next x 0) lastBigger with
        | eq => exact .inl rfl
        | gt => exact .inr ⟨rfl, rfl⟩
        | lt =>
          cases hn : m.next x 0 with
          | none => rw [hn] at hc; cases hc
          | some n => exact absurd hn (hno n hc)
      simp only [Pc.stepsLeft]
      omega

/-- **A step of the thread**: it has one step less left. -/
theorem stepsLeft_step (hm : m.Ok kMaxHeight S) (hown : Owns kMaxHeight m S pc) (h : PcOk m S pc) (hN : m.size ≤ N)
    (he : m.step loaded false pc = some (m', pc')) : pc'.stepsLeft kMaxHeight N m' < pc.stepsLeft kMaxHeight N m := by
  cases pc with
  | idle | inserted | found | failed => cases he
  | load x =>
    simp only [Memory.step] at he
    split at he
    · cases he
      simp only [Pc.stepsLeft]
      omega
    · cases he
  | raise x maxHeight => exact stepsLeft_raise hm hown h hN he
  | recompute x sp i before => exact stepsLeft_recompute hm h hN he
  | link x sp i valid => exact stepsLeft_link he
  | cas x sp i valid => exact stepsLeft_cas hm h hN he
  | refind x sp i before valid => exact stepsLeft_refind hm h he
  | height target =>
    simp only [Memory.step] at he
    split at he
    · rename_i hload
      cases he
      have := room_le (m.rank head) (target : WithBot α) hN
      have := hm.maxHeight
      simp only [Pc.stepsLeft]
      omega
    · cases he
  | seek target x level lastBigger => exact stepsLeft_seek hm h he
  | advance n =>
    cases he
    exact Nat.one_pos

/-! ## Runs -/

/-- **The steps of others** leave a thread as many steps as it had. -/
theorem stepsLeft_mono (hm : m.Ok kMaxHeight S) (hg : Grows m S m' S') (hN : m'.size ≤ N)
    (hown : Owns kMaxHeight m S pc) (h : PcOk m S pc) : pc.stepsLeft kMaxHeight N m' ≤ pc.stepsLeft kMaxHeight N m := by
  have hroom : ∀ lo hi, m'.room N lo hi ≤ m.room N lo hi := fun _ _ => hg.room hN
  have hsame : ∀ {x i}, pc.inserting = some (x, i) → m'.key x = m.key x ∧ m'.height x = m.height x := fun hx =>
    hg.same _ (hown _ _ hx).lt_size
  have hsplice : ∀ {x sp i}, SpliceAt m S x sp i → m'.rank (sp.prev i) = m.rank (sp.prev i) ∧
      m'.bound (sp.next i) = m.bound (sp.next i) := fun hat =>
    ⟨hg.rank (hm.lt_size hat.prev_mem), hg.bound fun n hn => hm.lt_size (hat.next n hn).1⟩
  cases pc with
  | idle | inserted | found | failed | height | advance => exact le_rfl
  | load x | raise x => exact le_of_eq (by simp only [Pc.stepsLeft, (hsame rfl).2])
  | recompute x sp i before =>
    simp only [Pc.stepsLeft, (hsame rfl).1, (hsame rfl).2, hg.rank (hm.lt_size h.2.2.mem)]
    exact Nat.add_le_add_left (hroom _ _) _
  | link x sp i valid =>
    obtain ⟨hprev, hnext⟩ := hsplice (h.2.level i (Nat.zero_le i) (h.1.trans h.2.height))
    simp only [Pc.stepsLeft, (hsame rfl).2, hprev, hnext]
    exact Nat.add_le_add_right (linkSteps_mono le_rfl (hroom _ _)) _
  | cas x sp i valid =>
    obtain ⟨hprev, hnext⟩ := hsplice (h.2.1.level i (Nat.zero_le i) (h.1.le.trans h.2.1.height))
    simp only [Pc.stepsLeft, (hsame rfl).2, hprev, hnext]
    exact Nat.add_le_add_right (linkSteps_mono le_rfl (hroom _ _)) _
  | refind x sp i before valid =>
    obtain ⟨hi, hsp, hb, -⟩ := h
    obtain ⟨hprev, hnext⟩ := hsplice (hsp.level i (Nat.zero_le i) (hi.le.trans hsp.height))
    simp only [Pc.stepsLeft, (hsame rfl).1, (hsame rfl).2, hprev, hnext, hg.rank (hm.lt_size hb.mem)]
    have := linkSteps_mono (N := N) (le_refl (m.height x - i))
      (Nat.sub_le_sub_right (hroom (m.rank (sp.prev i)) (m.bound (sp.next i))) 1)
    exact Nat.add_le_add (Nat.add_le_add_right this 3) (hroom _ _)
  | seek target x level lastBigger =>
    simp only [Pc.stepsLeft, hg.rank (hm.lt_size h.1)]
    exact Nat.add_le_add_right (Nat.add_le_add_left (hroom _ _) _) 1

/-- The action is a step of thread `t`. -/
def Action.isStep (t : Nat) : Action α → Bool
  | .step t' _ _ => t' = t
  | _ => false

/-- Thread `t` does not return, and its weak compare-and-swap does not fail without a reason. -/
def Action.within (t : Nat) : Action α → Bool
  | .step t' _ fails => t' ≠ t ∨ !fails
  | .ret t' => t' ≠ t
  | _ => true

variable {s s' : State α} {t : Nat} {a : Action α} {h h' es : List (Call (Op α) (Res α))}

/-- A call begins with as many steps as a thread has. -/
theorem Inv.stepsLeft_call (hI : Inv kMaxHeight s S) {t' : Nat} (hpc : s.pcs t' = .idle)
    (hs' : s'.pcs = Function.update s.pcs t' pc) (hg : Grows s.mem S s'.mem S) (hN : s'.mem.size ≤ N)
    (hle : pc.stepsLeft kMaxHeight N s'.mem ≤ callSteps kMaxHeight N) :
    (s'.pcs t).stepsLeft kMaxHeight N s'.mem ≤ (s.pcs t).stepsLeft kMaxHeight N s.mem := by
  rcases eq_or_ne t t' with rfl | hne
  · rw [hs', Function.update_self, hpc]
    exact hle
  · rw [hs', Function.update_of_ne hne]
    exact stepsLeft_mono hI.mem hg hN (hI.owns t) (hI.ok t)

/-- **A step of any thread**: thread `t` has one step less left if it is its own, and not more otherwise. -/
theorem Inv.stepsLeft (hmax : kMaxHeight < kMaxPossibleHeight) (hI : Inv kMaxHeight s S) (hw : a.within t = true)
    (he : step kMaxHeight s a = some (s', es)) :
    s.mem.size ≤ s'.mem.size ∧ ∀ N, s'.mem.size ≤ N →
      (s'.pcs t).stepsLeft kMaxHeight N s'.mem + (if a.isStep t then 1 else 0) ≤
        (s.pcs t).stepsLeft kMaxHeight N s.mem := by
  cases step_cases he with
  | @insert t' height key hpc hheight =>
    refine ⟨Nat.le_succ _, fun N hN => hI.stepsLeft_call hpc rfl (hI.mem.allocate key height).2 hN ?_⟩
    have := linkSteps_mono (N := N) hheight.2 (le_refl N)
    simp only [Pc.stepsLeft, Memory.allocate, Function.update_self, callSteps]
    omega
  | seek hpc =>
    refine ⟨le_rfl, fun N hN => hI.stepsLeft_call hpc rfl .refl hN ?_⟩
    simp only [Pc.stepsLeft, callSteps]
    omega
  | next hpc =>
    refine ⟨le_rfl, fun N hN => hI.stepsLeft_call hpc rfl .refl hN ?_⟩
    simp only [Pc.stepsLeft, callSteps]
    omega
  | @step t' loaded fails m' pc' hstep =>
    obtain ⟨S', hmv⟩ := hI.mem.step hmax (hI.owns t') (hI.ok t') hstep
    refine ⟨hmv.grows.size, fun N hN => ?_⟩
    rcases eq_or_ne t' t with rfl | hne
    · obtain rfl : fails = false := by simpa [Action.within] using hw
      have := stepsLeft_step hI.mem (hI.owns t') (hI.ok t') (hmv.grows.size.trans hN) hstep
      simp only [Action.isStep, Function.update_self, decide_true, if_true]
      omega
    · have := stepsLeft_mono hI.mem hmv.grows hN (hI.owns t) (hI.ok t)
      simp only [Action.isStep, Function.update_of_ne hne.symm, hne, decide_false, Bool.false_eq_true, if_false]
      omega
  | @inserted t' | @found t' =>
    have hne : t ≠ t' := fun h => by simp [Action.within, h] at hw
    exact ⟨le_rfl, fun N _ => le_of_eq (by simp only [Function.update_of_ne hne]; rfl)⟩

/-- The thread is in no call, or its call can return. -/
def Pc.returning : Pc α → Bool
  | .idle | .inserted _ _ | .found _ _ => true
  | _ => false

/-- **A thread in a call is never blocked.** -/
theorem Memory.Ok.enabled (hm : m.Ok kMaxHeight S) (h : PcOk m S pc) (hr : pc.returning = false) :
    (m.step m.maxHeight false pc).isSome = true := by
  cases pc with
  | idle | inserted | found => cases hr
  | failed => exact h.elim
  | load | height =>
    have hload : 1 ≤ m.maxHeight ∧ m.maxHeight ≤ m.maxHeight := ⟨hm.maxHeight.1, le_rfl⟩
    simp only [Memory.step, if_pos hload, Option.isSome_some]
  | raise x maxHeight =>
    simp only [Memory.step]
    split_ifs <;> rfl
  | recompute x sp i before =>
    simp only [Memory.step, if_pos (h.2.2.checks hm)]
    split
    · rfl
    · cases i <;> rfl
  | link x sp i valid =>
    simp only [Memory.step]
    split_ifs <;> rfl
  | cas x sp i valid =>
    simp only [Memory.step]
    split_ifs <;> rfl
  | refind x sp i before valid =>
    simp only [Memory.step, if_pos (h.2.2.1.checks hm)]
    split <;> rfl
  | seek target x level lastBigger =>
    simp only [Memory.step, if_pos (hm.ordered h.1 h.2.1)]
    split
    · rfl
    · split <;> rfl
  | advance n => rfl

/-- The steps of thread `t` come out of those that it has left. -/
theorem stepsLeft_of_exec (h1 : 1 ≤ kMaxHeight) (hmax : kMaxHeight < kMaxPossibleHeight) {unset : α}
    {as : List (Action α)} : ∀ {s h}, (machine kMaxHeight unset).Run (fun _ _ => True) s h →
      (machine kMaxHeight unset).exec (fun _ a => a.within t) s h as = some (s', h') →
        (machine kMaxHeight unset).Run (fun _ _ => True) s' h' ∧ s.mem.size ≤ s'.mem.size ∧
          (s'.pcs t).stepsLeft kMaxHeight s'.mem.size s'.mem + as.countP (Action.isStep t) ≤
            (s.pcs t).stepsLeft kMaxHeight s'.mem.size s.mem := by
  induction as with
  | nil =>
    intro s h hrun he
    cases he
    exact ⟨hrun, le_rfl, le_rfl⟩
  | cons a as ih =>
    intro s h hrun he
    rw [Machine.exec] at he
    split at he
    · rename_i hw
      split at he
      · cases he
      · rename_i s₁ es hstep
        obtain ⟨-, -, S, hI, -⟩ := sim_of_run h1 hmax hrun
        obtain ⟨hsize, hleft⟩ := hI.stepsLeft hmax hw hstep
        obtain ⟨hrun', hsize', hleft'⟩ := ih (.step a hrun trivial hstep) he
        have := hleft s'.mem.size hsize'
        refine ⟨hrun', hsize.trans hsize', ?_⟩
        rw [List.countP_cons]
        omega
    · cases he

/-- **A call waits for no one**: however the steps of other threads come in between, it makes at most `callSteps` steps,
for the number of nodes that are allocated at the end, and until it returns its thread can always make one. The weak
compare-and-swaps of the call are taken to fail only for a reason. -/
theorem skiplist_calls_bounded (h1 : 1 ≤ kMaxHeight) (hmax : kMaxHeight < kMaxPossibleHeight) {unset : α}
    (hrun : (machine kMaxHeight unset).Run (fun _ _ => True) s h) (hidle : s.pcs t = .idle) {as : List (Action α)}
    (he : (machine kMaxHeight unset).exec (fun _ a => a.within t) s h as = some (s', h')) :
    as.countP (Action.isStep t) ≤ callSteps kMaxHeight s'.mem.size ∧
      ((s'.pcs t).returning = true ∨ ∃ y, step kMaxHeight s' (.step t s'.mem.maxHeight false) = some y) := by
  obtain ⟨hrun', -, hleft⟩ := stepsLeft_of_exec h1 hmax hrun he
  constructor
  · rw [hidle] at hleft
    exact (Nat.le_add_left _ _).trans hleft
  · obtain ⟨-, -, S, hI, -⟩ := sim_of_run h1 hmax hrun'
    cases hr : (s'.pcs t).returning with
    | true => exact .inl rfl
    | false =>
      obtain ⟨x, hx⟩ := Option.isSome_iff_exists.1 (hI.mem.enabled (hI.ok t) hr)
      exact .inr ⟨_, Option.map_eq_some_iff.2 ⟨x, hx, rfl⟩⟩

/-- The thread 1 of that run makes seven steps, and its call can return. -/
theorem skiplist_calls_bounded_two : ∃ (s' : State Nat) (h' : List (Call (Op Nat) (Res Nat))),
    (machine 21 0).exec (fun _ a => a.within 1) (machine 21 0).init [] (twoInserts.take 16) = some (s', h') ∧
      (twoInserts.take 16).countP (Action.isStep 1) = 7 ∧ 7 ≤ callSteps 21 s'.mem.size ∧
      ((s'.pcs 1).returning = true ∨ ∃ y, step 21 s' (.step 1 s'.mem.maxHeight false) = some y) := by
  have hsome : ((machine 21 0).exec (fun _ a => a.within 1) (machine 21 0).init []
      (twoInserts.take 16)).isSome = true := by decide +kernel
  obtain ⟨⟨s', h'⟩, hexec⟩ := Option.isSome_iff_exists.1 hsome
  have hcount : (twoInserts.take 16).countP (Action.isStep 1) = 7 := by decide +kernel
  obtain ⟨hle, hgo⟩ := skiplist_calls_bounded (by decide) (by decide) .init rfl hexec
  exact ⟨s', h', hexec, hcount, hcount ▸ hle, hgo⟩

end SkipList
end Chime

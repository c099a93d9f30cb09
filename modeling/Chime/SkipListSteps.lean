import Chime.Lib.LinkedSet
import Chime.SkipList
import Mathlib.Order.WithBot

/-!
# Steps of the skip list

At each level the nodes that are linked are in the order of their keys, and a splice of an insertion is a place in that
order. A step of a thread keeps this, passes the assertions, and leaves the new nodes of others as they are; the call
goes on or takes effect (`Moved`): an insert with its link of the level 0 or where it finds the key, a search with the
last link that it reads.
-/

namespace Chime
namespace SkipList

open SeqObject

variable {α : Type} [LinearOrder α]

/-! ## The nodes of the levels -/

/-- The nodes that are linked at a level. -/
abbrev Levels := Nat → Set Node

/-- The order of the nodes: `head_` is before the others. -/
def Memory.rank (m : Memory α) (n : Node) : WithBot α := if n = head then ⊥ else m.key n

/-- At each level the links go through its nodes in their order, and the nodes of a level are also at the one below. -/
structure Memory.Ok (kMaxHeight : Nat) (m : Memory α) (S : Levels) : Prop where
  head_mem : ∀ l, head ∈ S l
  allocated : ∀ {n}, n ∈ S 0 → n < m.size
  nested : ∀ l, S (l + 1) ⊆ S l
  linked : ∀ l, Linked m.rank (S l) fun n => m.next n l
  maxHeight : 1 ≤ m.maxHeight ∧ m.maxHeight ≤ kMaxHeight

variable {kMaxHeight : Nat} {m m' : Memory α} {S S' : Levels} {n n' x before : Node} {l i : Nat} {key k : α}
  {nx after : Option Node} {sp : Splice} {pc pc' : Pc α} {valid : Bool}

omit [LinearOrder α] in
@[simp] theorem Memory.rank_head : m.rank head = ⊥ := if_pos rfl

omit [LinearOrder α] in
theorem Memory.rank_of_ne (h : n ≠ head) : m.rank n = m.key n := if_neg h

theorem Memory.ne_head_of_lt {r : WithBot α} (h : r < m.rank n) : n ≠ head := by
  rintro rfl
  rw [rank_head] at h
  exact not_lt_bot h

theorem Memory.ne_head_of_le (h : (k : WithBot α) ≤ m.rank n) : n ≠ head :=
  ne_head_of_lt ((WithBot.bot_lt_coe k).trans_le h)

/-- The order of the nodes is that of their keys. -/
theorem Memory.rank_lt (h : n ≠ head) : m.rank n < k ↔ m.key n < k := by
  rw [rank_of_ne h, WithBot.coe_lt_coe]

theorem Memory.lt_rank (h : n ≠ head) : (k : WithBot α) < m.rank n ↔ k < m.key n := by
  rw [rank_of_ne h, WithBot.coe_lt_coe]

theorem Memory.le_rank (h : n ≠ head) : (k : WithBot α) ≤ m.rank n ↔ k ≤ m.key n := by
  rw [rank_of_ne h, WithBot.coe_le_coe]

namespace Memory.Ok

theorem mem_zero (hm : m.Ok kMaxHeight S) (h : n ∈ S l) : n ∈ S 0 := by
  induction l with
  | zero => exact h
  | succ l ih => exact ih (hm.nested l h)

theorem lt_size (hm : m.Ok kMaxHeight S) (h : n ∈ S l) : n < m.size := hm.allocated (hm.mem_zero h)

/-- Two nodes of any levels are in the order of their keys. -/
theorem inj (hm : m.Ok kMaxHeight S) {l' : Nat} (h : n ∈ S l) (h' : n' ∈ S l') (he : m.rank n = m.rank n') : n = n' :=
  (hm.linked 0).inj (hm.mem_zero h) (hm.mem_zero h') he

/-- A link leads to another node of the level. -/
theorem next (hm : m.Ok kMaxHeight S) (h : n ∈ S l) (he : m.next n l = some n') :
    n' ∈ S l ∧ m.rank n < m.rank n' ∧ n' ≠ head := by
  obtain ⟨hmem, hlt⟩ := (hm.linked l).step h he
  exact ⟨hmem, hlt, ne_head_of_lt hlt⟩

/-- **The assertions about a link** that is read hold. -/
theorem ordered (hm : m.Ok kMaxHeight S) (h : n ∈ S l) (hlt : m.rank n < k) : m.ordered k n (m.next n l) = true := by
  rw [Memory.ordered, decide_eq_true_eq]
  by_cases hn : n = head
  · exact .inl hn
  · refine .inr ⟨?_, (rank_lt hn).1 hlt⟩
    rw [Option.all_eq_true]
    intro n' he
    obtain ⟨-, hlt', hne⟩ := hm.next h he
    rw [rank_of_ne hn, lt_rank hne] at hlt'
    exact decide_eq_true hlt'

end Memory.Ok

/-! ## Splices -/

/-- The splice of a level: a node before the key of `x` and one that is not. -/
structure SpliceAt (m : Memory α) (S : Levels) (x : Node) (sp : Splice) (i : Nat) : Prop where
  prev_mem : sp.prev i ∈ S i
  prev_lt : m.rank (sp.prev i) < m.key x
  next : ∀ n, sp.next i = some n → n ∈ S i ∧ n ≠ x ∧ m.key x ≤ m.rank n

/-- The splice of a level is within that of the next one. -/
structure NestedAt (m : Memory α) (sp : Splice) (i : Nat) : Prop where
  prev : sp.prev (i + 1) = sp.prev i ∨ m.rank (sp.prev (i + 1)) < m.rank (sp.prev i)
  next : sp.next (i + 1) = sp.next i ∨ ∃ n, sp.next i = some n ∧ ∀ n', sp.next (i + 1) = some n' → m.rank n < m.rank n'

/-- The splice from a level on. -/
structure SpliceOk (m : Memory α) (S : Levels) (x : Node) (sp : Splice) (l : Nat) (valid : Bool) : Prop where
  height : m.height x ≤ sp.height
  top : sp.prev sp.height = head ∧ sp.next sp.height = none
  level : ∀ i, l ≤ i → i ≤ sp.height → SpliceAt m S x sp i
  nested : valid = true → ∀ i, l ≤ i → i < sp.height → NestedAt m sp i

/-- A node from which `FindSpliceForLevel` goes on. -/
structure Passed (m : Memory α) (S : Levels) (x : Node) (start : Node) (i : Nat) (before : Node) : Prop where
  mem : before ∈ S i
  lt : m.rank before < m.key x
  start : start = before ∨ m.rank start < m.rank before

theorem findSplice_some (h : m.findSpliceForLevel k nx after = some n) : nx = some n ∧ m.key n < k := by
  rw [Memory.findSpliceForLevel, Option.filter_eq_some_iff, decide_eq_true_eq] at h
  exact ⟨h.1, h.2.2⟩

theorem findSplice_none (h : m.findSpliceForLevel k nx after = none) (he : nx = some n) :
    after = some n ∨ k ≤ m.key n := by
  subst he
  rw [Memory.findSpliceForLevel, Option.filter_eq_none_iff] at h
  have := h n rfl
  rw [decide_eq_true_eq] at this
  by_contra hcon
  rw [not_or, not_le] at hcon
  exact this ⟨fun he => hcon.1 he.symm, hcon.2⟩

/-- The search goes on. -/
theorem Passed.pass (hm : m.Ok kMaxHeight S) {start : Node} (h : Passed m S x start i before)
    (he : m.findSpliceForLevel (m.key x) (m.next before i) after = some n) : Passed m S x start i n := by
  obtain ⟨hn, hlt⟩ := findSplice_some he
  obtain ⟨hmem, hlt', hne⟩ := hm.next h.mem hn
  refine ⟨hmem, (Memory.rank_lt hne).2 hlt, .inr ?_⟩
  rcases h.start with rfl | hs
  · exact hlt'
  · exact hs.trans hlt'

/-- Where the search ends is the place of the key. -/
theorem Passed.next (hm : m.Ok kMaxHeight S) {start : Node} (h : Passed m S x start i before)
    (hafter : ∀ n, after = some n → m.key x ≤ m.rank n)
    (he : m.findSpliceForLevel (m.key x) (m.next before i) after = none) (hn : m.next before i = some n) :
    n ∈ S i ∧ m.key x ≤ m.rank n := by
  obtain ⟨hmem, -, hne⟩ := hm.next h.mem hn
  rcases findSplice_none he hn with hn' | hle
  · exact ⟨hmem, hafter n hn'⟩
  · exact ⟨hmem, (Memory.le_rank hne).2 hle⟩

section Set

variable (sp : Splice) (i : Nat) (before : Node) (nx : Option Node)

@[simp] theorem Splice.set_prev : (sp.set i before nx).prev i = before := Function.update_self ..

@[simp] theorem Splice.set_next : (sp.set i before nx).next i = nx := Function.update_self ..

theorem Splice.set_prev_of_ne {j : Nat} (h : j ≠ i) : (sp.set i before nx).prev j = sp.prev j :=
  Function.update_of_ne h ..

theorem Splice.set_next_of_ne {j : Nat} (h : j ≠ i) : (sp.set i before nx).next j = sp.next j :=
  Function.update_of_ne h ..

end Set

/-- A splice that is found at a level is within that of the next level. -/
theorem Passed.nestedAt (hm : m.Ok kMaxHeight S) {start : Node} (h : Passed m S x start i before)
    (hstart : sp.prev (i + 1) = start ∨ m.rank (sp.prev (i + 1)) < m.rank start)
    (hat : SpliceAt m S x sp (i + 1)) : NestedAt m (sp.set i before (m.next before i)) i := by
  have hne : i + 1 ≠ i := by omega
  constructor
  · rw [Splice.set_prev, Splice.set_prev_of_ne _ _ _ _ hne]
    rcases hstart with rfl | hlt
    · exact h.start
    · rcases h.start with rfl | hlt'
      · exact .inr hlt
      · exact .inr (hlt.trans hlt')
  · rw [Splice.set_next, Splice.set_next_of_ne _ _ _ _ hne]
    cases hafter : sp.next (i + 1) with
    | none =>
      cases hn : m.next before i with
      | none => exact .inl rfl
      | some n => exact .inr ⟨n, rfl, fun n' hn' => by cases hn'⟩
    | some n' =>
      -- the node of the next level is at this level, and not before the key
      obtain ⟨hmem, -, hle⟩ := hat.next n' hafter
      have hmem' := hm.nested i hmem
      cases hn : m.next before i with
      | none => exact absurd hle ((hm.linked i).none_first h.mem h.lt hn hmem').not_ge
      | some n =>
        rcases ((hm.linked i).first h.mem h.lt hn hmem' hle).eq_or_lt with heq | hlt
        · exact .inl (congrArg some (hm.inj hmem' ((hm.next h.mem hn).1) heq.symm))
        · refine .inr ⟨n, rfl, fun j hj => ?_⟩
          cases hj
          exact hlt

/-- The splice with the level that was searched. -/
theorem Passed.set (sp : Splice) (hm : m.Ok kMaxHeight S) {start : Node} (h : Passed m S x start i before)
    (hx : x ∉ S i) (hafter : ∀ n, after = some n → m.key x ≤ m.rank n)
    (he : m.findSpliceForLevel (m.key x) (m.next before i) after = none) :
    SpliceAt m S x (sp.set i before (m.next before i)) i := by
  refine ⟨by rw [Splice.set_prev]; exact h.mem, by rw [Splice.set_prev]; exact h.lt, fun n hn => ?_⟩
  rw [Splice.set_next] at hn
  obtain ⟨hmem, hle⟩ := h.next hm hafter he hn
  exact ⟨hmem, fun heq => hx (heq ▸ hmem), hle⟩

theorem SpliceAt.set_of_ne {j : Nat} (hne : j ≠ i) (h : SpliceAt m S x sp j) :
    SpliceAt m S x (sp.set i before nx) j := by
  constructor
  · rw [Splice.set_prev_of_ne _ _ _ _ hne]
    exact h.prev_mem
  · rw [Splice.set_prev_of_ne _ _ _ _ hne]
    exact h.prev_lt
  · rw [Splice.set_next_of_ne _ _ _ _ hne]
    exact h.next

theorem NestedAt.set_of_ne {j : Nat} (hne : j ≠ i) (hne' : j + 1 ≠ i) (h : NestedAt m sp j) :
    NestedAt m (sp.set i before nx) j := by
  constructor
  · rw [Splice.set_prev_of_ne _ _ _ _ hne, Splice.set_prev_of_ne _ _ _ _ hne']
    exact h.prev
  · rw [Splice.set_next_of_ne _ _ _ _ hne, Splice.set_next_of_ne _ _ _ _ hne']
    exact h.next

/-! ## Threads -/

/-- The new node of an insertion, and the number of levels at which it is linked. -/
def Pc.inserting : Pc α → Option (Node × Nat)
  | .load x | .raise x _ | .recompute x _ _ _ => some (x, 0)
  | .link x _ i _ | .cas x _ i _ | .refind x _ i _ _ => some (x, i)
  | _ => none

/-- The call of a thread; an insertion takes effect at the level 0. -/
def Pc.phase (m : Memory α) : Pc α → Option (Phase (Op α) (Res α))
  | .load x | .raise x _ | .recompute x _ _ _ => some (.pending (.insert (m.key x)))
  | .link x _ i _ | .cas x _ i _ | .refind x _ i _ _ =>
    if i = 0 then some (.pending (.insert (m.key x))) else some (.taken (.insert (m.key x)) (.inserted true))
  | .inserted key res => some (.taken (.insert key) (.inserted res))
  | .height target | .seek target _ _ _ => some (.pending (.seek target))
  | .advance n => some (.pending (.next (m.key n)))
  | .found op n => some (.taken op (.at (n.map m.key)))
  | .idle | .failed => none

/-- A new node that is linked at the levels below `i`. -/
structure Own (kMaxHeight : Nat) (m : Memory α) (S : Levels) (x : Node) (i : Nat) : Prop where
  ne_head : x ≠ head
  lt_size : x < m.size
  height : 1 ≤ m.height x ∧ m.height x ≤ kMaxHeight
  linked : ∀ l, x ∈ S l ↔ l < i

/-- The new node of a thread. -/
def Owns (kMaxHeight : Nat) (m : Memory α) (S : Levels) (pc : Pc α) : Prop :=
  ∀ x i, pc.inserting = some (x, i) → Own kMaxHeight m S x i

/-- What holds where a thread stands. -/
def PcOk (m : Memory α) (S : Levels) : Pc α → Prop
  | .raise _ maxHeight => 1 ≤ maxHeight ∧ maxHeight ≤ m.maxHeight
  | .recompute x sp i before =>
    i < sp.height ∧ SpliceOk m S x sp (i + 1) true ∧ Passed m S x (sp.prev (i + 1)) i before
  | .link x sp i valid => i ≤ m.height x ∧ SpliceOk m S x sp 0 valid
  | .cas x sp i valid =>
    i < m.height x ∧ SpliceOk m S x sp 0 valid ∧ m.next x i = sp.next i ∧
      ∀ n, sp.next i = some n → m.rank x < m.rank n
  | .refind x sp i before valid =>
    i < m.height x ∧ SpliceOk m S x sp 0 valid ∧ Passed m S x (sp.prev i) i before ∧
      ∃ n ∈ S i, m.rank (sp.prev i) < m.rank n ∧ ∀ n', sp.next i = some n' → m.rank n < m.rank n'
  | .seek target x level lastBigger =>
    x ∈ S level ∧ m.rank x < target ∧ ∀ n, lastBigger = some n → n ∈ S 0 ∧ target < m.rank n
  | .advance n => n ∈ S 0 ∧ n ≠ head
  | .found _ n => ∀ n', n = some n' → n' ∈ S 0 ∧ n' ≠ head
  | .failed => False
  | .idle | .load _ | .inserted _ _ | .height _ => True

/-- Nodes keep what is in them, and their links stay. -/
structure Grows (m : Memory α) (S : Levels) (m' : Memory α) (S' : Levels) : Prop where
  same : ∀ n < m.size, m'.key n = m.key n ∧ m'.height n = m.height n
  size : m.size ≤ m'.size
  maxHeight : m.maxHeight ≤ m'.maxHeight
  le : ∀ l, S l ⊆ S' l

omit [LinearOrder α] in
theorem Grows.rank (hg : Grows m S m' S') (h : n < m.size) : m'.rank n = m.rank n := by
  rw [Memory.rank, Memory.rank, (hg.same n h).1]

section Mono

variable (hm : m.Ok kMaxHeight S) (hg : Grows m S m' S') (hx : x < m.size)

include hm hg hx

theorem SpliceAt.mono (h : SpliceAt m S x sp i) : SpliceAt m' S' x sp i := by
  refine ⟨hg.le i h.prev_mem, ?_, fun n hn => ?_⟩
  · rw [hg.rank (hm.lt_size h.prev_mem), (hg.same x hx).1]
    exact h.prev_lt
  · obtain ⟨hmem, hne, hle⟩ := h.next n hn
    rw [hg.rank (hm.lt_size hmem), (hg.same x hx).1]
    exact ⟨hg.le i hmem, hne, hle⟩

theorem SpliceOk.mono (h : SpliceOk m S x sp l valid) : SpliceOk m' S' x sp l valid := by
  refine ⟨by rw [(hg.same x hx).2]; exact h.height, h.top, fun i hi hi' => (h.level i hi hi').mono hm hg hx,
    fun hv i hi hi' => ?_⟩
  -- the nodes of the splice are allocated, so that their order stays
  have hat := h.level i hi hi'.le
  have hat' := h.level (i + 1) (by omega) hi'
  obtain ⟨hprev, hnext⟩ := h.nested hv i hi hi'
  constructor
  · rw [hg.rank (hm.lt_size hat.prev_mem), hg.rank (hm.lt_size hat'.prev_mem)]
    exact hprev
  · refine hnext.imp_right fun ⟨n, hn, hlt⟩ => ⟨n, hn, fun n' hn' => ?_⟩
    rw [hg.rank (hm.lt_size (hat.next n hn).1), hg.rank (hm.lt_size (hat'.next n' hn').1)]
    exact hlt n' hn'

theorem Passed.mono {start : Node} (hs : start < m.size) (h : Passed m S x start i before) :
    Passed m' S' x start i before := by
  have hlt := hm.lt_size h.mem
  refine ⟨hg.le i h.mem, ?_, ?_⟩
  · rw [hg.rank hlt, (hg.same x hx).1]
    exact h.lt
  · rw [hg.rank hlt, hg.rank hs]
    exact h.start

end Mono

/-- The steps of others keep it. -/
theorem PcOk.mono (hm : m.Ok kMaxHeight S) (hg : Grows m S m' S')
    (hown : Owns kMaxHeight m S pc) (hnext : ∀ x i, pc.inserting = some (x, i) → m'.next x i = m.next x i)
    (h : PcOk m S pc) : PcOk m' S' pc := by
  cases pc with
  | recompute x sp i before =>
    obtain ⟨hi, hsp, hb⟩ := h
    have hx := (hown x 0 rfl).lt_size
    have hs := hm.lt_size (hsp.level (i + 1) le_rfl hi).prev_mem
    exact ⟨hi, hsp.mono hm hg hx, hb.mono hm hg hx hs⟩
  | link x sp i valid =>
    have hx := (hown x i rfl).lt_size
    exact ⟨(hg.same x hx).2 ▸ h.1, h.2.mono hm hg hx⟩
  | cas x sp i valid =>
    obtain ⟨hi, hsp, he, hlt⟩ := h
    have hx := (hown x i rfl).lt_size
    have hi' := hi.le.trans hsp.height
    refine ⟨(hg.same x hx).2 ▸ hi, hsp.mono hm hg hx, (hnext x i rfl).trans he, fun n hn => ?_⟩
    rw [hg.rank hx, hg.rank (hm.lt_size ((hsp.level i (Nat.zero_le i) hi').next n hn).1)]
    exact hlt n hn
  | refind x sp i before valid =>
    obtain ⟨hi, hsp, hb, n, hn, hlt, hlt'⟩ := h
    have hx := (hown x i rfl).lt_size
    have hat := hsp.level i (Nat.zero_le i) (hi.le.trans hsp.height)
    have hs := hm.lt_size hat.prev_mem
    refine ⟨(hg.same x hx).2 ▸ hi, hsp.mono hm hg hx, hb.mono hm hg hx hs, n, hg.le i hn, ?_, fun n' hn' => ?_⟩
    · rw [hg.rank hs, hg.rank (hm.lt_size hn)]
      exact hlt
    · rw [hg.rank (hm.lt_size hn), hg.rank (hm.lt_size (hat.next n' hn').1)]
      exact hlt' n' hn'
  | seek target x level lastBigger =>
    obtain ⟨hmem, hlt, hbig⟩ := h
    refine ⟨hg.le level hmem, by rw [hg.rank (hm.lt_size hmem)]; exact hlt, fun n hn => ?_⟩
    obtain ⟨hn0, hgt⟩ := hbig n hn
    exact ⟨hg.le 0 hn0, by rw [hg.rank (hm.allocated hn0)]; exact hgt⟩
  | advance n => exact ⟨hg.le 0 h.1, h.2⟩
  | found op n => exact fun n' hn' => (h n' hn').imp_left (hg.le 0 ·)
  | failed => exact h
  | raise => exact ⟨h.1, h.2.trans hg.maxHeight⟩
  | idle | load | inserted | height => trivial

/-! ## What a step does -/

/-- The list of the keys, in their order. -/
def Lists (m : Memory α) (S : Levels) (keys : List α) : Prop :=
  keys.Pairwise (· < ·) ∧ ∀ k, k ∈ keys ↔ ∃ n ∈ S 0, n ≠ head ∧ m.key n = k

/-- A call goes on, or it takes effect. -/
inductive Effect (m : Memory α) (S : Levels) (pc : Pc α) (m' : Memory α) (S' : Levels) (pc' : Pc α) : Prop
  | silent : pc'.phase m' = pc.phase m → (∀ keys, Lists m S keys → Lists m' S' keys) → Effect m S pc m' S' pc'
  | point (op : Op α) (res : Res α) : pc.phase m = some (.pending op) → pc'.phase m' = some (.taken op res) →
      (∀ keys, Lists m S keys → ∃ keys', (orderedList α).apply op keys = some (keys', res) ∧ Lists m' S' keys') →
      Effect m S pc m' S' pc'

/-- **What a step of a thread does**, to itself and to the others. -/
structure Moved (kMaxHeight : Nat) (m : Memory α) (S : Levels) (pc : Pc α) (m' : Memory α) (S' : Levels) (pc' : Pc α) :
    Prop where
  mem : m'.Ok kMaxHeight S'
  ok : PcOk m' S' pc'
  owns : Owns kMaxHeight m' S' pc'
  /-- the new node is the same, or there is none any more -/
  same : ∀ x i, pc'.inserting = some (x, i) → ∃ j, pc.inserting = some (x, j)
  grows : Grows m S m' S'
  /-- the new nodes of others -/
  frame : ∀ n l, (∀ i, pc.inserting ≠ some (n, i)) → (n ∈ S' l ↔ n ∈ S l) ∧ (n ∉ S l → m'.next n l = m.next n l)
  effect : Effect m S pc m' S' pc'

omit [LinearOrder α] in
theorem Grows.refl : Grows m S m S := ⟨fun _ _ => ⟨rfl, rfl⟩, le_rfl, le_rfl, fun _ => le_rfl⟩

/-- A step that only reads, and leaves the call as it is. -/
theorem Moved.quiet (hm : m.Ok kMaxHeight S) (hown : Owns kMaxHeight m S pc) (h : PcOk m S pc')
    (hi : pc'.inserting = pc.inserting) (hphase : pc'.phase m = pc.phase m) : Moved kMaxHeight m S pc m S pc' where
  mem := hm
  ok := h
  owns x i he := hown x i (hi ▸ he)
  same _ i he := ⟨i, hi ▸ he⟩
  grows := .refl
  frame _ _ _ := ⟨Iff.rfl, fun _ => rfl⟩
  effect := .silent hphase fun _ h => h

/-- A step that only reads, and ends an insertion or a search. -/
theorem Moved.ends (hm : m.Ok kMaxHeight S) (h : PcOk m S pc') (hi : pc'.inserting = none)
    (heffect : Effect m S pc m S pc') : Moved kMaxHeight m S pc m S pc' where
  mem := hm
  ok := h
  owns x i he := by
    rw [hi] at he
    cases he
  same x i he := by
    rw [hi] at he
    cases he
  grows := .refl
  frame _ _ _ := ⟨Iff.rfl, fun _ => rfl⟩
  effect := heffect

/-! ### Insertions -/

/-- The steps before the search of the splices. -/
theorem moved_raise (hmax : kMaxHeight < kMaxPossibleHeight) (hm : m.Ok kMaxHeight S) {maxHeight : Nat}
    (hown : Owns kMaxHeight m S (.raise x maxHeight)) (h : 1 ≤ maxHeight ∧ maxHeight ≤ m.maxHeight) {loaded : Nat}
    {fails : Bool} (he : m.step loaded fails (.raise x maxHeight) = some (m', pc')) :
    Moved kMaxHeight m S (.raise x maxHeight) m' S pc' := by
  simp only [Memory.step] at he
  split at he
  · split at he
    · rename_i hlt hcas
      cases he
      obtain ⟨hne, hx, hheight, hlinked⟩ := hown x 0 rfl
      have hg : Grows m S { m with maxHeight := m.height x } S :=
        ⟨fun _ _ => ⟨rfl, rfl⟩, le_rfl, hcas.1.trans_le hlt.le, fun _ => le_rfl⟩
      refine ⟨⟨hm.head_mem, hm.allocated, hm.nested, hm.linked, hheight⟩, ⟨hheight.1, le_rfl⟩, fun y i hy => ?_,
        fun y i hy => ⟨i, hy⟩, hg, fun _ _ _ => ⟨Iff.rfl, fun _ => rfl⟩, .silent rfl fun _ h => h⟩
      cases hy
      exact ⟨hne, hx, hheight, hlinked⟩
    · cases he
      exact .quiet hm hown ⟨hm.maxHeight.1, le_rfl⟩ rfl rfl
  · rename_i hle
    split at he
    · cases he
      have hrank : m.rank head < m.key x := by
        rw [Memory.rank_head]
        exact WithBot.bot_lt_coe _
      have hsp : SpliceOk m S x ⟨maxHeight, fun _ => head, fun _ => none⟩ (maxHeight - 1 + 1) true := by
        refine ⟨not_lt.1 hle, ⟨rfl, rfl⟩, fun i _ _ => ⟨hm.head_mem i, hrank, fun n hn => by cases hn⟩,
          fun _ i hi hi' => ?_⟩
        simp only at hi'
        omega
      exact .quiet hm hown ⟨by simp only; omega, hsp, hm.head_mem _, hrank, .inl rfl⟩ rfl rfl
    · exact absurd ((h.2.trans hm.maxHeight.2).trans_lt hmax) ‹_›

/-- The assertions of `FindSpliceForLevel` hold. -/
theorem Passed.checks (hm : m.Ok kMaxHeight S) {start : Node} (h : Passed m S x start i before) :
    m.ordered (m.key x) before (m.next before i) = true ∧ m.next before i ≠ some head :=
  ⟨hm.ordered h.mem h.lt, fun he => (hm.next h.mem he).2.2 rfl⟩

/-- The top of a splice is not set. -/
theorem Splice.set_top (h : sp.prev sp.height = head ∧ sp.next sp.height = none) (hi : i < sp.height) :
    (sp.set i before nx).prev sp.height = head ∧ (sp.set i before nx).next sp.height = none := by
  rwa [Splice.set_prev_of_ne _ _ _ _ hi.ne', Splice.set_next_of_ne _ _ _ _ hi.ne']

/-- **The search of a splice**, from the one of the next level on. -/
theorem moved_recompute (hm : m.Ok kMaxHeight S) (hown : Owns kMaxHeight m S (.recompute x sp i before))
    (h : PcOk m S (.recompute x sp i before)) {loaded : Nat} {fails : Bool}
    (he : m.step loaded fails (.recompute x sp i before) = some (m', pc')) :
    Moved kMaxHeight m S (.recompute x sp i before) m' S pc' := by
  obtain ⟨hi, hsp, hb⟩ := h
  have hx : x ∉ S i := fun hx => absurd (((hown x 0 rfl).linked i).1 hx) (Nat.not_lt_zero i)
  have hat := hsp.level (i + 1) le_rfl hi
  simp only [Memory.step, if_pos (hb.checks hm)] at he
  split at he
  · rename_i n hn
    cases he
    exact .quiet hm hown ⟨hi, hsp, hb.pass hm hn⟩ rfl rfl
  · rename_i hn
    have hset := hb.set sp hm hx (fun n hn => (hat.next n hn).2.2) hn
    have hsp' : SpliceOk m S x (sp.set i before (m.next before i)) i true := by
      refine ⟨hsp.height, Splice.set_top hsp.top hi, fun j hj hj' => ?_, fun _ j hj hj' => ?_⟩
      · rcases hj.eq_or_lt with rfl | hlt
        · exact hset
        · exact (hsp.level j hlt hj').set_of_ne hlt.ne'
      · rcases hj.eq_or_lt with rfl | hlt
        · exact hb.nestedAt hm (.inl rfl) hat
        · exact (hsp.nested rfl j hlt hj').set_of_ne hlt.ne' (by omega)
    cases i with
    | zero =>
      cases he
      exact .quiet hm hown ⟨Nat.zero_le _, hsp'⟩ rfl rfl
    | succ i =>
      cases he
      refine .quiet hm hown ⟨Nat.lt_of_succ_lt hi, hsp', hm.nested i ?_, ?_, .inl rfl⟩ rfl rfl
      · rw [Splice.set_prev]
        exact hb.mem
      · rw [Splice.set_prev]
        exact hb.lt

/-- **The search of a splice again**, from the old one on. -/
theorem moved_refind (hm : m.Ok kMaxHeight S) (hown : Owns kMaxHeight m S (.refind x sp i before valid))
    (h : PcOk m S (.refind x sp i before valid)) {loaded : Nat} {fails : Bool}
    (he : m.step loaded fails (.refind x sp i before valid) = some (m', pc')) :
    Moved kMaxHeight m S (.refind x sp i before valid) m' S pc' := by
  obtain ⟨hi, hsp, hb, hnew⟩ := h
  have hx : x ∉ S i := fun hx => absurd (((hown x i rfl).linked i).1 hx) (Nat.lt_irrefl i)
  have hi' := hi.trans_le hsp.height
  simp only [Memory.step, if_pos (hb.checks hm)] at he
  split at he
  · rename_i n hn
    cases he
    exact .quiet hm hown ⟨hi, hsp, hb.pass hm hn, hnew⟩ rfl rfl
  · rename_i hn
    cases he
    have hset := hb.set sp hm hx (fun n hn => by cases hn) hn
    refine .quiet hm hown ⟨hi.le, hsp.height, Splice.set_top hsp.top hi', fun j _ hj => ?_, fun hv j _ hj => ?_⟩ rfl rfl
    · rcases eq_or_ne j i with rfl | hne
      · exact hset
      · exact (hsp.level j (Nat.zero_le j) hj).set_of_ne hne
    · -- the splice of the level 0 is still within that of the level 1
      obtain ⟨hvalid, rfl⟩ : valid = true ∧ i = 0 := by simpa using hv
      have hnested := hsp.nested hvalid
      cases j with
      | zero => exact hb.nestedAt hm (hnested 0 le_rfl hi').prev (hsp.level 1 (Nat.zero_le 1) hi')
      | succ j => exact (hnested _ (Nat.zero_le _) hj).set_of_ne (Nat.succ_ne_zero j) (Nat.succ_ne_zero _)

/-! ### Links -/

omit [LinearOrder α] in
theorem Memory.setNext_of_ne {j : Nat} (h : n' ≠ n ∨ j ≠ i) : (m.setNext n i nx).next n' j = m.next n' j := by
  rcases eq_or_ne n' n with rfl | hne
  · simp only [setNext, Function.update_self]
    exact Function.update_of_ne (h.resolve_left (fun hn => hn rfl)) ..
  · simp only [setNext, Function.update_of_ne hne]

omit [LinearOrder α] in
@[simp] theorem Memory.setNext_self : (m.setNext n i nx).next n i = nx := by
  simp only [setNext, Function.update_self]

omit [LinearOrder α] in
/-- A link of a node changes, and no node gets out of a level. -/
theorem Grows.setNext (h : ∀ l, S l ⊆ S' l) : Grows m S (m.setNext n i nx) S' :=
  ⟨fun _ _ => ⟨rfl, rfl⟩, le_rfl, le_rfl, h⟩

/-- A link of a node that is not at the level. -/
theorem Memory.Ok.setNext (hm : m.Ok kMaxHeight S) (hx : x ∉ S i) : (m.setNext x i nx).Ok kMaxHeight S where
  head_mem := hm.head_mem
  allocated := hm.allocated
  nested := hm.nested
  linked l := by
    refine (hm.linked l).congr (fun _ _ => rfl) fun n hn => Memory.setNext_of_ne ?_
    rcases eq_or_ne n x with rfl | hne
    · refine .inr ?_
      rintro rfl
      exact hx hn
    · exact .inl hne
  maxHeight := hm.maxHeight

/-- Once the new node is linked, the nodes after it have other keys. -/
theorem SpliceAt.lt_next (hm : m.Ok kMaxHeight S) (hx : x ∈ S 0) {j : Nat} (h : SpliceAt m S x sp j) (hne : x ≠ head)
    (hn : sp.next j = some n) : m.rank x < m.rank n := by
  obtain ⟨hmem, hnx, hle⟩ := h.next n hn
  rw [← Memory.rank_of_ne hne] at hle
  exact hle.lt_of_ne fun he => hnx (hm.inj hx hmem he).symm

/-- A key that is found as a duplicate is in the list. -/
theorem SpliceAt.duplicate (h : SpliceAt m S x sp 0) (hd : m.duplicate x sp = true) :
    ∃ n ∈ S 0, n ≠ head ∧ m.key n = m.key x := by
  rw [Memory.duplicate, decide_eq_true_eq, Option.any_eq_true] at hd
  rcases hd with ⟨n, hn, hle⟩ | ⟨hne, hle⟩
  · obtain ⟨hmem, -, hge⟩ := h.next n hn
    have hne := Memory.ne_head_of_le hge
    exact ⟨n, hmem, hne, le_antisymm (of_decide_eq_true hle) ((Memory.le_rank hne).1 hge)⟩
  · exact absurd ((Memory.rank_lt hne).1 h.prev_lt) hle.not_gt

/-- Otherwise the key of the next node is another one. -/
theorem SpliceAt.lt_of_not_duplicate (h : SpliceAt m S x sp 0) (hd : ¬m.duplicate x sp = true) (hx : x ≠ head)
    (hn : sp.next 0 = some n) : m.rank x < m.rank n := by
  rw [Memory.duplicate, decide_eq_true_eq, Option.any_eq_true, not_or] at hd
  have hne := Memory.ne_head_of_le (h.next n hn).2.2
  rw [Memory.rank_of_ne hx, Memory.lt_rank hne]
  exact not_le.1 fun hle => hd.1 ⟨n, hn, decide_eq_true hle⟩

/-- **The assertions before a link** hold. -/
theorem SpliceAt.brackets (h : SpliceAt m S x sp i) (hx : x ≠ head)
    (hlt : ∀ n, sp.next i = some n → m.rank x < m.rank n) : m.brackets x sp i = true := by
  rw [Memory.brackets, decide_eq_true_eq, Option.all_eq_true]
  constructor
  · intro n hn
    have hlt := hlt n hn
    rw [Memory.rank_of_ne hx, Memory.lt_rank (Memory.ne_head_of_lt hlt)] at hlt
    exact decide_eq_true hlt
  · by_cases hp : sp.prev i = head
    · exact .inl hp
    · exact .inr ((Memory.rank_lt hp).1 h.prev_lt)

/-- **The assertions about the splice** after the insertion hold. -/
theorem SpliceOk.bracketed (hm : m.Ok kMaxHeight S) (hx : x ∈ S 0) (hne : x ≠ head) (h : SpliceOk m S x sp 0 true) :
    m.bracketed x { sp with prev := fun i => if i < m.height x then x else sp.prev i } = true := by
  rw [Memory.bracketed, decide_eq_true_eq]
  refine ⟨(if_neg h.height.not_gt).trans h.top.1, h.top.2, fun i hi => ⟨?_, ?_, ?_, ?_⟩⟩
  · have hb := (h.level i (Nat.zero_le i) (le_of_lt hi)).brackets hne fun n hn =>
      (h.level i (Nat.zero_le i) (le_of_lt hi)).lt_next hm hx hne hn
    rw [Memory.brackets, decide_eq_true_eq] at hb
    exact hb.1
  · simp only
    split
    · exact .inr le_rfl
    · by_cases hp : sp.prev i = head
      · exact .inl hp
      · exact .inr ((Memory.rank_lt hp).1 (h.level i (Nat.zero_le i) (le_of_lt hi)).prev_lt).le
  · -- the levels of the new node, the level above them, and the others
    simp only
    by_cases hi' : i < m.height x
    · rw [if_pos hi']
      split
      · exact .inl rfl
      · by_cases hp : sp.prev (i + 1) = head
        · exact .inr (.inl hp)
        · exact .inr (.inr ((Memory.rank_lt hp).1 (h.level (i + 1) (Nat.zero_le _) hi).prev_lt))
    · rw [if_neg hi', if_neg (by omega)]
      refine (h.nested rfl i (Nat.zero_le i) hi).prev.imp_right fun hlt => ?_
      by_cases hp : sp.prev (i + 1) = head
      · exact .inl hp
      · rw [Memory.rank_of_ne hp, Memory.lt_rank (Memory.ne_head_of_lt hlt)] at hlt
        exact .inr hlt
  · refine (h.nested rfl i (Nat.zero_le i) hi).next.imp_right fun ⟨n, hn, hlt⟩ => ?_
    rw [Option.all_eq_true]
    intro n' hn'
    have hlt := hlt n' hn'
    have hn0 := Memory.ne_head_of_le ((h.level i (Nat.zero_le i) (le_of_lt hi)).next n hn).2.2
    rw [Memory.rank_of_ne hn0, Memory.lt_rank (Memory.ne_head_of_lt hlt)] at hlt
    simp only [hn, Option.any_some]
    exact decide_eq_true hlt

/-- **The tests and the link of the new node**, or the end of the insertion. -/
theorem moved_link (hm : m.Ok kMaxHeight S) (hown : Owns kMaxHeight m S (.link x sp i valid))
    (h : PcOk m S (.link x sp i valid)) {loaded : Nat} {fails : Bool}
    (he : m.step loaded fails (.link x sp i valid) = some (m', pc')) :
    Moved kMaxHeight m S (.link x sp i valid) m' S pc' := by
  obtain ⟨hi, hsp⟩ := h
  obtain ⟨hne, hlt, hheight, hlinked⟩ := hown x i rfl
  have hat : ∀ j, j ≤ sp.height → SpliceAt m S x sp j := fun j => hsp.level j (Nat.zero_le j)
  simp only [Memory.step] at he
  split at he
  · rename_i hi'
    split at he
    · -- the key is in the list
      rename_i hd
      obtain ⟨rfl, hd⟩ := hd
      cases he
      obtain ⟨n, hn, hn', hkey⟩ := (hat 0 (Nat.zero_le _)).duplicate hd
      refine .ends hm trivial rfl (.point (.insert (m.key x)) (.inserted false) rfl rfl fun keys hk => ⟨keys, ?_, hk⟩)
      exact if_pos ((hk.2 _).2 ⟨n, hn, hn', hkey⟩)
    · rename_i hd
      have hat' := hat i (hi.trans hsp.height)
      have hgt : ∀ n, sp.next i = some n → m.rank x < m.rank n := by
        intro n hn
        rcases Nat.eq_zero_or_pos i with rfl | hpos
        · exact hat'.lt_of_not_duplicate (fun h => hd ⟨rfl, h⟩) hne hn
        · exact hat'.lt_next hm ((hlinked 0).2 hpos) hne hn
      rw [if_pos (hat'.brackets hne hgt)] at he
      cases he
      have hx : x ∉ S i := fun hx => Nat.lt_irrefl i ((hlinked i).1 hx)
      have hgrows : Grows m S (m.setNext x i (sp.next i)) S := .setNext fun _ => le_rfl
      refine ⟨hm.setNext hx, ⟨hi', hsp.mono hm hgrows hlt, m.setNext_self, hgt⟩, fun y j hy => ?_,
        fun y j hy => ⟨j, hy⟩, hgrows, fun n l hn => ⟨Iff.rfl, fun _ => Memory.setNext_of_ne (.inl ?_)⟩, .silent rfl fun _ h => h⟩
      · cases hy
        exact ⟨hne, hlt, hheight, hlinked⟩
      · rintro rfl
        exact hn i rfl
  · rename_i hi'
    have hx : x ∈ S 0 := (hlinked 0).2 (hheight.1.trans (not_lt.1 hi'))
    have hvalid : ¬(valid = true ∧ ¬m.bracketed x
        { sp with prev := fun i => if i < m.height x then x else sp.prev i } = true) := by
      rintro ⟨rfl, hb⟩
      exact hb (hsp.bracketed hm hx hne)
    rw [if_neg hvalid] at he
    cases he
    refine .ends hm trivial rfl (.silent ?_ fun _ h => h)
    have hi0 : i ≠ 0 := ((hlinked 0).1 hx).ne'
    simp only [Pc.phase, if_neg hi0]

/-- The levels after a link. -/
def linkAt (S : Levels) (x : Node) (i : Nat) : Levels := Function.update S i (insert x (S i))

omit [LinearOrder α] in
theorem mem_linkAt {y : Node} : y ∈ linkAt S x i l ↔ (l = i ∧ y = x) ∨ y ∈ S l := by
  rw [linkAt]
  rcases eq_or_ne l i with rfl | hne
  · rw [Function.update_self, Set.mem_insert_iff]
    exact or_congr_left (and_iff_right rfl).symm
  · rw [Function.update_of_ne hne]
    exact (or_iff_right fun h => hne h.1).symm

/-- **The link to the new node** keeps the levels in their order. -/
theorem Memory.Ok.link (hm : m.Ok kMaxHeight S) (hown : Own kMaxHeight m S x i) (hat : SpliceAt m S x sp i)
    (hx : m.next x i = m.next (sp.prev i) i) (hgt : ∀ n, m.next x i = some n → m.rank x < m.rank n) :
    (m.setNext (sp.prev i) i (some x)).Ok kMaxHeight (linkAt S x i) where
  head_mem l := mem_linkAt.2 (.inr (hm.head_mem l))
  allocated h := by
    rcases mem_linkAt.1 h with ⟨-, rfl⟩ | h
    · exact hown.lt_size
    · exact hm.allocated h
  nested l y h := by
    rcases mem_linkAt.1 h with ⟨rfl, rfl⟩ | h
    · exact mem_linkAt.2 (.inr ((hown.linked l).2 (Nat.lt_succ_self l)))
    · exact mem_linkAt.2 (.inr (hm.nested l h))
  linked l := by
    have hprev : sp.prev i ≠ x := fun he => Nat.lt_irrefl i ((hown.linked i).1 (he ▸ hat.prev_mem))
    rcases eq_or_ne l i with rfl | hne
    · have hnot : x ∉ S l := fun hx => Nat.lt_irrefl l ((hown.linked l).1 hx)
      have hlt : m.rank (sp.prev l) < m.rank x := by
        rw [rank_of_ne hown.ne_head]
        exact hat.prev_lt
      rw [linkAt, Function.update_self]
      exact (hm.linked l).insert hat.prev_mem hnot hlt (fun n hn => hgt n (hx.trans hn))
        (fun j _ hj => setNext_of_ne (.inl hj)) setNext_self ((setNext_of_ne (.inl hprev.symm)).trans hx)
    · rw [linkAt, Function.update_of_ne hne]
      exact (hm.linked l).congr (fun _ _ => rfl) fun _ _ => setNext_of_ne (.inr hne)
  maxHeight := hm.maxHeight

/-- After a compare-and-swap that has failed there is a new node between those of the splice. -/
theorem SpliceAt.newer (hm : m.Ok kMaxHeight S) (h : SpliceAt m S x sp i) (hcas : m.next (sp.prev i) i ≠ sp.next i) :
    ∃ n ∈ S i, m.rank (sp.prev i) < m.rank n ∧ ∀ n', sp.next i = some n' → m.rank n < m.rank n' := by
  have hafter : ∀ n', sp.next i = some n' → m.rank (sp.prev i) < m.rank n' := fun n' hn' =>
    h.prev_lt.trans_le (h.next n' hn').2.2
  cases hn : m.next (sp.prev i) i with
  | none =>
    cases hn' : sp.next i with
    | none => exact absurd (hn.trans hn'.symm) hcas
    | some n' => exact absurd (hafter n' hn') ((hm.linked i).last h.prev_mem hn (h.next n' hn').1).not_gt
  | some n =>
    obtain ⟨hmem, hlt⟩ := (hm.linked i).step h.prev_mem hn
    refine ⟨n, hmem, hlt, fun n' hn' => ?_⟩
    have hmem' := (h.next n' hn').1
    refine ((hm.linked i).between h.prev_mem hn hmem' (hafter n' hn')).lt_of_ne fun he => hcas ?_
    rw [hn, hn', hm.inj hmem hmem' he]

/-- A new key in a sorted list. -/
theorem pairwise_orderedInsert {keys : List α} (h : keys.Pairwise (· < ·)) (hk : k ∉ keys) :
    (keys.orderedInsert (· ≤ ·) k).Pairwise (· < ·) := by
  have hle := (h.imp le_of_lt).orderedInsert k keys
  have hne : (keys.orderedInsert (· ≤ ·) k).Nodup :=
    (List.perm_orderedInsert _ k keys).nodup_iff.2 (List.nodup_cons.2 ⟨hk, h.imp ne_of_lt⟩)
  exact (hle.and hne).imp fun h => lt_of_le_of_ne h.1 h.2

/-- **The compare-and-swap** of the link to the new node. -/
theorem moved_cas (hm : m.Ok kMaxHeight S) (hown : Owns kMaxHeight m S (.cas x sp i valid))
    (h : PcOk m S (.cas x sp i valid)) {loaded : Nat} {fails : Bool}
    (he : m.step loaded fails (.cas x sp i valid) = some (m', pc')) :
    ∃ S', Moved kMaxHeight m S (.cas x sp i valid) m' S' pc' := by
  obtain ⟨hi, hsp, hnext, hgt⟩ := h
  have hownx := hown x i rfl
  have hat := hsp.level i (Nat.zero_le i) (hi.le.trans hsp.height)
  simp only [Memory.step] at he
  split at he
  · rename_i hcas
    cases he
    have hm' := hm.link hownx hat (hnext.trans hcas.symm) fun n hn => hgt n (hnext.symm.trans hn)
    have hgrows : Grows m S (m.setNext (sp.prev i) i (some x)) (linkAt S x i) :=
      .setNext fun l y hy => mem_linkAt.2 (.inr hy)
    refine ⟨linkAt S x i, hm', ⟨hi, hsp.mono hm hgrows hownx.lt_size⟩, fun y j hy => ?_, fun y j hy => ?_, hgrows,
      fun n l hn => ⟨?_, fun hnS => Memory.setNext_of_ne ?_⟩, ?_⟩
    · cases hy
      refine ⟨hownx.ne_head, hownx.lt_size, hownx.height, fun l => ?_⟩
      rw [mem_linkAt, hownx.linked, Nat.lt_succ_iff_lt_or_eq, or_comm]
      exact or_congr_right (and_iff_left rfl)
    · cases hy
      exact ⟨i, rfl⟩
    · rw [mem_linkAt]
      refine or_iff_right fun ⟨_, hnx⟩ => ?_
      subst hnx
      exact hn i rfl
    · rcases eq_or_ne n (sp.prev i) with rfl | hne
      · refine .inr ?_
        rintro rfl
        exact hnS hat.prev_mem
      · exact .inl hne
    · rcases Nat.eq_zero_or_pos i with rfl | hpos
      · -- the call takes effect
        refine .point (.insert (m.key x)) (.inserted true) rfl rfl fun keys hk => ?_
        have hnot : m.key x ∉ keys := by
          intro hmem
          obtain ⟨n, hn, hne, hkey⟩ := (hk.2 _).1 hmem
          have hrank : (m.setNext (sp.prev 0) 0 (some x)).rank n = (m.setNext (sp.prev 0) 0 (some x)).rank x := by
            rw [Memory.rank_of_ne hne, Memory.rank_of_ne hownx.ne_head]
            exact congrArg _ hkey
          cases hm'.inj (mem_linkAt.2 (.inr hn)) (mem_linkAt.2 (.inl ⟨rfl, rfl⟩)) hrank
          exact absurd ((hownx.linked 0).1 hn) (Nat.lt_irrefl 0)
        refine ⟨_, if_neg hnot, pairwise_orderedInsert hk.1 hnot, fun k => ?_⟩
        rw [List.mem_orderedInsert, hk.2]
        constructor
        · rintro (rfl | ⟨n, hn, hne, hkey⟩)
          · exact ⟨x, mem_linkAt.2 (.inl ⟨rfl, rfl⟩), hownx.ne_head, rfl⟩
          · exact ⟨n, mem_linkAt.2 (.inr hn), hne, hkey⟩
        · rintro ⟨n, hn, hne, hkey⟩
          rcases mem_linkAt.1 hn with ⟨-, rfl⟩ | hn
          · exact .inl hkey.symm
          · exact .inr ⟨n, hn, hne, hkey⟩
      · refine .silent ?_ fun keys hk => ⟨hk.1, fun k => (hk.2 k).trans ?_⟩
        · simp only [Pc.phase, if_neg hpos.ne', if_neg (Nat.succ_ne_zero i)]
          rfl
        · have hS : linkAt S x i 0 = S 0 := Function.update_of_ne hpos.ne ..
          rw [hS]
          rfl
  · rename_i hcas
    cases he
    refine ⟨S, .quiet hm hown ⟨hi, hsp, ⟨hat.prev_mem, hat.prev_lt, .inl rfl⟩, hat.newer hm hcas⟩ rfl rfl⟩

/-! ### Searches -/

/-- The first key of a sorted list with a property is the least one. -/
theorem find?_least {keys : List α} (h : keys.Pairwise (· < ·)) {p : α → Bool} (hk : k ∈ keys) (hp : p k = true)
    (hleast : ∀ j ∈ keys, p j = true → k ≤ j) : keys.find? p = some k := by
  induction keys with
  | nil => cases hk
  | cons j keys ih =>
    rw [List.pairwise_cons] at h
    rw [List.find?_cons]
    rcases List.mem_cons.1 hk with rfl | hk
    · rw [hp]
    · have hj : ¬p j = true := fun hj => (h.1 k hk).not_ge (hleast j List.mem_cons_self hj)
      rw [Bool.not_eq_true] at hj
      rw [hj]
      exact ih h.2 hk fun j hj => hleast j (List.mem_cons_of_mem _ hj)

/-- **A search ends** at the first node with a property, or there is none. -/
theorem Moved.found (hm : m.Ok kMaxHeight S) {op : Op α} {p : α → Bool} (hphase : pc.phase m = some (.pending op))
    (happly : ∀ keys, (orderedList α).apply op keys = some (keys, .at (keys.find? p)))
    (hfirst : ∀ n, nx = some n → n ∈ S 0 ∧ n ≠ head ∧ p (m.key n) = true ∧
      ∀ n' ∈ S 0, n' ≠ head → p (m.key n') = true → m.key n ≤ m.key n')
    (hnone : nx = none → ∀ n' ∈ S 0, n' ≠ head → ¬p (m.key n') = true) :
    Moved kMaxHeight m S pc m S (.found op nx) := by
  refine .ends hm (fun n hn => ⟨(hfirst n hn).1, (hfirst n hn).2.1⟩) rfl
    (.point op (.at (nx.map m.key)) hphase rfl fun keys hk => ⟨keys, ?_, hk⟩)
  rw [happly]
  cases hnx : nx with
  | none =>
    have hno : keys.find? p = none := List.find?_eq_none.2 fun k hmem => by
      obtain ⟨n, hn, hne, rfl⟩ := (hk.2 k).1 hmem
      exact hnone hnx n hn hne
    rw [hno]
    rfl
  | some n =>
    obtain ⟨hn, hne, hp, hleast⟩ := hfirst n hnx
    rw [find?_least hk.1 ((hk.2 _).2 ⟨n, hn, hne, rfl⟩) hp fun k hmem hpk => ?_]
    · rfl
    · obtain ⟨n', hn', hne', rfl⟩ := (hk.2 k).1 hmem
      exact hleast n' hn' hne' hpk

/-- The comparison with the next node. -/
theorem cmp_some {target : α} {lastBigger : Option Node} (hne : n ≠ head)
    (hbig : ∀ n, lastBigger = some n → n ∈ S 0 ∧ target < m.rank n) :
    m.cmp target (some n) lastBigger = compare (m.key n) target := by
  rw [Memory.cmp]
  split
  · rename_i he
    have hlt := (hbig n he.symm).2
    rw [Memory.lt_rank hne] at hlt
    exact (compare_gt_iff_gt.2 hlt).symm
  · rfl

/-- **A turn of `FindGreaterOrEqual`**. -/
theorem moved_seek (hm : m.Ok kMaxHeight S) {target : α} {level : Nat} {lastBigger : Option Node}
    (h : PcOk m S (.seek target x level lastBigger)) {loaded : Nat} {fails : Bool}
    (he : m.step loaded fails (.seek target x level lastBigger) = some (m', pc')) :
    Moved kMaxHeight m S (.seek target x level lastBigger) m' S pc' := by
  obtain ⟨hx, hlt, hbig⟩ := h
  have hown : Owns kMaxHeight m S (.seek target x level lastBigger) := fun y i hy => by cases hy
  have hdown : ∀ {l}, level = l + 1 → x ∈ S l := fun hl => hm.nested _ (hl ▸ hx)
  simp only [Memory.step, if_pos (hm.ordered hx hlt)] at he
  cases hn : m.next x level with
  | none =>
    -- all keys of the level are smaller
    rw [hn] at he
    simp only [Memory.cmp, reduceCtorEq, false_or, true_and] at he
    cases level with
    | zero =>
      cases he
      refine .found hm rfl (fun _ => rfl) (fun n hn => by cases hn) fun _ n hn' hne => ?_
      have := (hm.linked 0).none_first hx hlt hn hn'
      rw [decide_eq_true_eq, not_le]
      exact (Memory.rank_lt hne).1 this
    | succ l =>
      cases he
      exact .quiet hm hown ⟨hdown rfl, hlt, fun n hn => by cases hn⟩ rfl rfl
  | some n =>
    obtain ⟨hmem, -, hne⟩ := hm.next hx hn
    rw [hn, cmp_some hne hbig] at he
    have hleast : target ≤ m.key n → ∀ n' ∈ S 0, n' ≠ head → decide (target ≤ m.key n') = true →
        (level = 0 ∨ m.key n = target) → m.key n ≤ m.key n' := by
      rintro hle n' hn' hne' hp (rfl | heq)
      · have := (hm.linked 0).first hx hlt hn hn' ((Memory.le_rank hne').2 (of_decide_eq_true hp))
        rwa [Memory.rank_of_ne hne, Memory.rank_of_ne hne', WithBot.coe_le_coe] at this
      · rw [heq]
        exact of_decide_eq_true hp
    cases hcmp : compare (m.key n) target with
    | lt =>
      rw [hcmp] at he
      simp only [reduceCtorEq, false_or, false_and, if_false] at he
      cases he
      exact .quiet hm hown ⟨hmem, (Memory.rank_lt hne).2 (compare_lt_iff_lt.1 hcmp), hbig⟩ rfl rfl
    | eq =>
      have heq := compare_eq_iff_eq.1 hcmp
      rw [hcmp] at he
      simp only [true_or, if_true] at he
      cases he
      refine .found hm rfl (fun _ => rfl) (fun n' hn' => ?_) fun h => by cases h
      cases hn'
      exact ⟨hm.mem_zero hmem, hne, decide_eq_true heq.ge, fun n' h1 h2 h3 => hleast heq.ge n' h1 h2 h3 (.inr heq)⟩
    | gt =>
      have hgt := compare_gt_iff_gt.1 hcmp
      rw [hcmp] at he
      simp only [reduceCtorEq, false_or, true_and] at he
      cases level with
      | zero =>
        cases he
        refine .found hm rfl (fun _ => rfl) (fun n' hn' => ?_) fun h => by cases h
        cases hn'
        exact ⟨hmem, hne, decide_eq_true hgt.le, fun n' h1 h2 h3 => hleast hgt.le n' h1 h2 h3 (.inl rfl)⟩
      | succ l =>
        cases he
        refine .quiet hm hown ⟨hdown rfl, hlt, fun n' hn' => ?_⟩ rfl rfl
        cases hn'
        exact ⟨hm.mem_zero hmem, (Memory.lt_rank hne).2 hgt⟩

/-- `Iterator::Next`. -/
theorem moved_advance (hm : m.Ok kMaxHeight S) (h : PcOk m S (.advance n)) :
    Moved kMaxHeight m S (.advance n) m S (.found (.next (m.key n)) (m.next n 0)) := by
  obtain ⟨hmem, hne⟩ := h
  refine .found hm rfl (fun _ => rfl) (fun n' hn' => ?_) fun hn n' hmem' hne' => ?_
  · obtain ⟨hmem', hlt, hne'⟩ := hm.next hmem hn'
    rw [Memory.rank_of_ne hne, Memory.lt_rank hne'] at hlt
    refine ⟨hmem', hne', decide_eq_true hlt, fun j hj hnej hp => ?_⟩
    have hlt' : m.rank n < m.rank j := by
      rw [Memory.rank_of_ne hne, Memory.lt_rank hnej]
      exact of_decide_eq_true hp
    have := (hm.linked 0).between hmem hn' hj hlt'
    rwa [Memory.rank_of_ne hne', Memory.rank_of_ne hnej, WithBot.coe_le_coe] at this
  · have := (hm.linked 0).last hmem hn hmem'
    rw [Memory.rank_of_ne hne, Memory.rank_of_ne hne', WithBot.coe_le_coe] at this
    rw [decide_eq_true_eq, not_lt]
    exact this

/-- **A step of a thread**. -/
theorem Memory.Ok.step (hmax : kMaxHeight < kMaxPossibleHeight) (hm : m.Ok kMaxHeight S) (hown : Owns kMaxHeight m S pc)
    (h : PcOk m S pc) {loaded : Nat} {fails : Bool} (he : m.step loaded fails pc = some (m', pc')) :
    ∃ S', Moved kMaxHeight m S pc m' S' pc' := by
  cases pc with
  | idle | inserted | found | failed => cases he
  | load x =>
    simp only [Memory.step] at he
    split at he
    · rename_i hload
      cases he
      exact ⟨S, .quiet hm hown hload rfl rfl⟩
    · cases he
  | raise x maxHeight => exact ⟨S, moved_raise hmax hm hown h he⟩
  | recompute x sp i before => exact ⟨S, moved_recompute hm hown h he⟩
  | link x sp i valid => exact ⟨S, moved_link hm hown h he⟩
  | cas x sp i valid => exact moved_cas hm hown h he
  | refind x sp i before valid => exact ⟨S, moved_refind hm hown h he⟩
  | height target =>
    simp only [Memory.step] at he
    split at he
    · cases he
      refine ⟨S, .quiet hm hown ⟨hm.head_mem _, ?_, fun n hn => by cases hn⟩ rfl rfl⟩
      rw [Memory.rank_head]
      exact WithBot.bot_lt_coe _
    · cases he
  | seek target x level lastBigger => exact ⟨S, moved_seek hm h he⟩
  | advance n =>
    cases he
    exact ⟨S, moved_advance hm h⟩

end SkipList
end Chime

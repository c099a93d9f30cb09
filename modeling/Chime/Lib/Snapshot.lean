import Chime.Lib.Frame
import Chime.Lib.Machine

/-!
# Images that are written and read block by block

A memory consists of `n` blocks of `w` bytes. Images are written into it one after another, the blocks of each in any
order, while a reader fetches the blocks in any order. Each block that it gets is from an image that was in the memory
during the read (`reads_window`), and every choice between the first and the last one is possible (`exists_read`). If
the images are framed bytes with versions, the reader can check that all its blocks have one version
(`Frame.block_of_checked`).
-/

open Memory

namespace Snapshot

structure State (ν : Type) where
  memory : Nat → UInt8
  /-- what was written as the image of this number -/
  nodes : Nat → ν
  /-- the number of the image that is written, or was written last -/
  last : Nat
  /-- the blocks of it that are in the memory -/
  landed : Nat → Bool
  /-- the buffer of the reader -/
  buffer : Nat → UInt8
  /-- the blocks that the reader has -/
  fetched : Nat → Bool

inductive Action (ν : Type)
  /-- the next image is going to be written -/
  | write (node : ν)
  /-- a block of it arrives in the memory -/
  | land (b : Nat)
  /-- a read begins -/
  | read
  /-- the reader gets a block -/
  | fetch (b : Nat)

variable {ν : Type} (n w : Nat) (encode : ν → Nat → UInt8)

/-- The image is in the memory. -/
def State.settled (s : State ν) : Prop := ∀ b < n, s.landed b = true

instance (s : State ν) : Decidable (s.settled n) := inferInstanceAs (Decidable (∀ b < n, s.landed b = true))

/-- The oldest image in the memory. -/
def State.oldest (s : State ν) : Nat := if s.settled n then s.last else s.last - 1

def step (s : State ν) : Action ν → Option (State ν × List Empty)
  | .write node =>
    if s.settled n then
      some ({ s with
        nodes := Function.update s.nodes (s.last + 1) node
        last := s.last + 1
        landed := fun _ => false }, [])
    else none
  | .land b =>
    if b < n ∧ s.landed b = false then
      some ({ s with memory := copy s.memory (b * w) (encode (s.nodes s.last)) (b * w) w,
                     landed := Function.update s.landed b true }, [])
    else none
  | .read => some ({ s with fetched := fun _ => false }, [])
  | .fetch b =>
    if b < n then
      some ({ s with
        buffer := copy s.buffer (b * w) s.memory (b * w) w
        fetched := Function.update s.fetched b true }, [])
    else none

/-- The memory with its first image. -/
def machine (first : ν) : Machine (State ν) (Action ν) Empty :=
  ⟨⟨encode first, fun _ => first, 0, fun _ => true, 0, fun _ => false⟩, step n w encode⟩

/-- Each block of the memory is from the image that is written, or from the one before. -/
structure Shown (s : State ν) : Prop where
  memory : ∀ b < n, ∀ x, x / w = b → s.memory x = encode (s.nodes (if s.landed b then s.last else s.last - 1)) x

/-- The blocks of the reader and those of the memory are from the images from `i` on. -/
structure Since (i : Nat) (s : State ν) : Prop where
  last : i ≤ s.last
  memory : ∀ b < n, s.landed b = false → i < s.last
  buffer : ∀ b < n, s.fetched b = true →
    ∃ k, i ≤ k ∧ k ≤ s.last ∧ ∀ x, x / w = b → s.buffer x = encode (s.nodes k) x

variable {n w encode} {s s' : State ν} {a : Action ν} {es h h' : List Empty} {first : ν} {i b x : Nat}

theorem copy_block {m m' : Nat → UInt8} (hw : 0 < w) :
    copy m (b * w) m' (b * w) w x = if x / w = b then m' x else m x := by
  have hblock : (b * w ≤ x ∧ x < b * w + w) ↔ x / w = b := by
    rw [Nat.div_eq_iff hw]
    omega
  rw [copy]
  simp only [hblock]
  split
  · rename_i hx
    rw [show b * w + (x - b * w) = x by have := hblock.2 hx; omega]
  · rfl

/-- A step leaves the images as they are. -/
theorem step_nodes (hs : step n w encode s a = some (s', es)) :
    s.last ≤ s'.last ∧ ∀ k ≤ s.last, s'.nodes k = s.nodes k := by
  cases a with
  | write node =>
    simp only [step] at hs
    split at hs
    · cases hs
      exact ⟨Nat.le_succ _, fun k hk => Function.update_of_ne (by omega) _ _⟩
    · cases hs
  | land b =>
    simp only [step] at hs
    split at hs
    · cases hs
      exact ⟨le_rfl, fun _ _ => rfl⟩
    · cases hs
  | read =>
    cases hs
    exact ⟨le_rfl, fun _ _ => rfl⟩
  | fetch b =>
    simp only [step] at hs
    split at hs
    · cases hs
      exact ⟨le_rfl, fun _ _ => rfl⟩
    · cases hs

theorem Shown.step (h : Shown n w encode s) (hw : 0 < w) (hs : step n w encode s a = some (s', es)) :
    Shown n w encode s' := by
  cases a with
  | write node =>
    simp only [Snapshot.step] at hs
    split at hs
    · rename_i hsettled
      cases hs
      refine ⟨fun b hb x hx => ?_⟩
      have hold := h.memory b hb x hx
      rw [hsettled b hb, if_pos rfl] at hold
      simp only [Bool.false_eq_true, if_false, Nat.add_sub_cancel]
      rwa [Function.update_of_ne (by omega)]
    · cases hs
  | land b =>
    simp only [Snapshot.step] at hs
    split at hs
    · cases hs
      refine ⟨fun c hc x hx => ?_⟩
      simp only [copy_block hw]
      rcases eq_or_ne c b with rfl | hcb
      · rw [if_pos hx, Function.update_self, if_pos rfl]
      · rw [if_neg (hx.trans_ne hcb), Function.update_of_ne hcb]
        exact h.memory c hc x hx
    · cases hs
  | read =>
    cases hs
    exact ⟨h.memory⟩
  | fetch b =>
    simp only [Snapshot.step] at hs
    split at hs
    · cases hs
      exact ⟨h.memory⟩
    · cases hs

theorem init_shown : Shown n w encode (machine n w encode first).init := ⟨fun _ _ _ _ => rfl⟩

/-- A read begins. -/
theorem Since.of_oldest (hshown : s.settled n ∨ 0 < s.last) (hfresh : ∀ b, s.fetched b = false) :
    Since n w encode (s.oldest n) s := by
  refine ⟨?_, fun b hb hland => ?_, fun b _ hf => by rw [hfresh b] at hf; cases hf⟩
  · rw [State.oldest]
    split <;> omega
  · have hno : ¬s.settled n := fun hall => by
      rw [hall b hb] at hland
      cases hland
    have := hshown.resolve_left hno
    rw [State.oldest, if_neg hno]
    omega

theorem Since.step (h : Since n w encode i s) (hshown : Shown n w encode s) (hw : 0 < w)
    (hs : step n w encode s a = some (s', es)) : Since n w encode i s' := by
  obtain ⟨hlast, hnodes⟩ := step_nodes hs
  -- what the reader has stays
  have hkeep : ∀ b < n, s.fetched b = true → (∀ x, x / w = b → s'.buffer x = s.buffer x) →
      ∃ k, i ≤ k ∧ k ≤ s'.last ∧ ∀ x, x / w = b → s'.buffer x = encode (s'.nodes k) x := by
    intro b hb hf hbuffer
    obtain ⟨k, hik, hk, hx⟩ := h.buffer b hb hf
    exact ⟨k, hik, hk.trans hlast, fun x hxb => by rw [hbuffer x hxb, hx x hxb, hnodes k hk]⟩
  cases a with
  | write node =>
    simp only [Snapshot.step] at hs
    split at hs
    · cases hs
      exact ⟨h.last.trans (Nat.le_succ _), fun b hb _ => Nat.lt_succ_of_le h.last, fun b hb hf =>
        hkeep b hb hf fun _ _ => rfl⟩
    · cases hs
  | land b =>
    simp only [Snapshot.step] at hs
    split at hs
    · cases hs
      refine ⟨h.last, fun c hc hland => ?_, fun c hc hf => hkeep c hc hf fun _ _ => rfl⟩
      rcases eq_or_ne c b with rfl | hcb
      · simp only [Function.update_self] at hland
        cases hland
      · simp only [Function.update_of_ne hcb] at hland
        exact h.memory c hc hland
    · cases hs
  | read =>
    cases hs
    exact ⟨h.last, h.memory, fun b hb hf => by cases hf⟩
  | fetch b =>
    simp only [Snapshot.step] at hs
    split at hs
    · rename_i hb
      cases hs
      refine ⟨h.last, h.memory, fun c hc hf => ?_⟩
      rcases eq_or_ne c b with rfl | hcb
      · refine ⟨if s.landed c then s.last else s.last - 1, ?_, ?_, fun x hx => ?_⟩
        · have hlow := h.last
          have hmem := h.memory c hc
          cases hl : s.landed c with
          | true => exact hlow
          | false =>
            have := hmem hl
            simp only [Bool.false_eq_true, if_false]
            omega
        · show (if s.landed c then s.last else s.last - 1) ≤ s.last
          split <;> omega
        · simp only [copy_block hw, if_pos hx]
          exact hshown.memory c hc x hx
      · simp only [Function.update_of_ne hcb] at hf
        exact hkeep c hc hf fun x hx => by simp only [copy_block hw, if_neg (hx.trans_ne hcb)]
    · cases hs

/-- An unfinished image is not the first. -/
theorem pos_of_not_settled {G : State ν → Action ν → Prop} (hrun : (machine n w encode first).Run G s h) :
    s.settled n ∨ 0 < s.last := by
  refine hrun.invariant (I := fun s _ => s.settled n ∨ 0 < s.last) (.inl fun _ _ => rfl) ?_
  intro s h a s' es _ hI _ hs
  cases a with
  | write node =>
    simp only [machine, Snapshot.step] at hs
    split at hs
    · cases hs
      exact .inr (Nat.succ_pos _)
    · cases hs
  | land b =>
    simp only [machine, Snapshot.step] at hs
    split at hs
    · cases hs
      refine hI.imp_left fun hall c hc => ?_
      rcases eq_or_ne c b with rfl | hcb
      · exact Function.update_self ..
      · exact (Function.update_of_ne hcb ..).trans (hall c hc)
    · cases hs
  | read =>
    cases hs
    exact hI
  | fetch b =>
    simp only [machine, Snapshot.step] at hs
    split at hs
    · cases hs
      exact hI
    · cases hs

/-- **Reads**: each block that a reader gets is from an image that was in the memory at the beginning of the read or was
written during it. -/
theorem reads_window {G : State ν → Action ν → Prop} (hw : 0 < w) (hrun : (machine n w encode first).Run G s h)
    (hfresh : ∀ b, s.fetched b = false) (hsteps : (machine n w encode first).Steps G s h s' h')
    (hall : ∀ b < n, s'.fetched b = true) : ∃ τ : Nat → Nat, (∀ b, s.oldest n ≤ τ b ∧ τ b ≤ s'.last) ∧
      ∀ x, x / w < n → s'.buffer x = encode (s'.nodes (τ (x / w))) x := by
  have hshown : Shown n w encode s := hrun.invariant (I := fun s _ => Shown n w encode s) init_shown
    fun _ hI _ hs => hI.step hw hs
  have hsince : Shown n w encode s' ∧ Since n w encode (s.oldest n) s' := by
    clear hall
    induction hsteps with
    | refl => exact ⟨hshown, .of_oldest (pos_of_not_settled hrun) hfresh⟩
    | step a _ _ hs ih => exact ⟨ih.1.step hw hs, ih.2.step ih.1 hw hs⟩
  have hblock : ∀ b, ∃ k, s.oldest n ≤ k ∧ k ≤ s'.last ∧
      (b < n → ∀ x, x / w = b → s'.buffer x = encode (s'.nodes k) x) := by
    intro b
    by_cases hb : b < n
    · obtain ⟨k, hik, hk, hx⟩ := hsince.2.buffer b hb (hall b hb)
      exact ⟨k, hik, hk, fun _ => hx⟩
    · exact ⟨s.oldest n, le_rfl, hsince.2.last, fun hb' => absurd hb' hb⟩
  choose τ hlow hhigh hτ using hblock
  exact ⟨τ, fun b => ⟨hlow b, hhigh b⟩, fun x hx => hτ _ hx x rfl⟩

/-! ## Reads that get old and new blocks -/

section Mixed

variable {G : State ν → Action ν → Prop}

theorem step_write {node : ν} (hs : s.settled n) : (machine n w encode first).step s (.write node) =
    some ({ s with
      nodes := Function.update s.nodes (s.last + 1) node
      last := s.last + 1
      landed := fun _ => false }, []) :=
  if_pos hs

theorem step_land (hb : b < n) (hl : s.landed b = false) : (machine n w encode first).step s (.land b) =
    some ({ s with memory := copy s.memory (b * w) (encode (s.nodes s.last)) (b * w) w,
                   landed := Function.update s.landed b true }, []) :=
  if_pos ⟨hb, hl⟩

theorem step_fetch (hb : b < n) : (machine n w encode first).step s (.fetch b) =
    some ({ s with
      buffer := copy s.buffer (b * w) s.memory (b * w) w
      fetched := Function.update s.fetched b true }, []) :=
  if_pos hb

variable (w encode first) in
/-- The blocks of an image can arrive. -/
theorem exists_land (hG : ∀ s b, G s (.land b)) (s : State ν) (h : List Empty) (m : Nat) (hm : m ≤ n) :
    ∃ memory landed, (machine n w encode first).Steps G s h { s with memory, landed } h ∧ ∀ b < m, landed b = true := by
  induction m with
  | zero => exact ⟨s.memory, s.landed, .refl, fun b hb => absurd hb (Nat.not_lt_zero b)⟩
  | succ m ih =>
    obtain ⟨memory, landed, hsteps, hlanded⟩ := ih (by omega)
    cases hl : landed m with
    | true =>
      refine ⟨memory, landed, hsteps, fun b hb => ?_⟩
      rcases Nat.lt_succ_iff_lt_or_eq.1 hb with hb | rfl
      · exact hlanded b hb
      · exact hl
    | false =>
      refine ⟨_, _, .step (.land m) hsteps (hG _ _) (step_land (by omega) hl), fun b hb => ?_⟩
      rcases Nat.lt_succ_iff_lt_or_eq.1 hb with hb | rfl
      · exact (Function.update_of_ne (by omega) ..).trans (hlanded b hb)
      · exact Function.update_self ..

variable (w encode first) in
/-- Images can be written one after another. -/
theorem exists_write (hG : ∀ s b, G s (.land b)) {W : Nat → ν}
    (hW : ∀ s : State ν, s.nodes s.last = W s.last → G s (.write (W (s.last + 1)))) {s : State ν} (h : List Empty)
    (hsettled : s.settled n) (hnode : s.nodes s.last = W s.last) (k : Nat) :
    ∃ s', (machine n w encode first).Steps G s h s' h ∧ s'.settled n ∧ s'.last = s.last + k ∧
      s'.buffer = s.buffer ∧ s'.fetched = s.fetched ∧ s'.nodes s'.last = W s'.last ∧
      ∀ i, s'.nodes i = if s.last < i ∧ i ≤ s.last + k then W i else s.nodes i := by
  induction k with
  | zero => exact ⟨s, .refl, hsettled, rfl, rfl, rfl, hnode, fun i => by rw [if_neg (by omega)]⟩
  | succ k ih =>
    obtain ⟨s₁, hsteps, hsettled₁, hlast, hbuffer, hfetched, hnode₁, hnodes⟩ := ih
    have hwrite := Machine.Steps.step (.write (W (s₁.last + 1))) hsteps (hW s₁ hnode₁) (step_write hsettled₁)
    obtain ⟨memory, landed, hland, hall⟩ := exists_land w encode first hG
      { s₁ with nodes := Function.update s₁.nodes (s₁.last + 1) (W (s₁.last + 1)), last := s₁.last + 1,
                landed := fun _ => false } h n le_rfl
    refine ⟨_, .trans hwrite hland, hall, by simp only [hlast]; omega, hbuffer, hfetched, Function.update_self .., ?_⟩
    intro i
    simp only [hlast]
    rcases eq_or_ne i (s.last + k + 1) with rfl | hi
    · rw [Function.update_self, if_pos (by omega)]
    · rw [Function.update_of_ne hi, hnodes]
      have hiff : (s.last < i ∧ i ≤ s.last + k) ↔ (s.last < i ∧ i ≤ s.last + (k + 1)) := by omega
      simp only [hiff]

variable (encode first) in
/-- A reader can get some of the blocks. -/
theorem exists_fetch (hw : 0 < w) (hG : ∀ s b, G s (.fetch b)) (A : Nat → Bool) (s : State ν) (h : List Empty) (m : Nat)
    (hm : m ≤ n) : ∃ buffer fetched, (machine n w encode first).Steps G s h { s with buffer, fetched } h ∧
      (∀ b, fetched b = (s.fetched b || (A b && decide (b < m)))) ∧
      ∀ x, buffer x = if A (x / w) ∧ x / w < m then s.memory x else s.buffer x := by
  induction m with
  | zero => exact ⟨s.buffer, s.fetched, .refl, fun b => by simp, fun x => by simp⟩
  | succ m ih =>
    obtain ⟨buffer, fetched, hsteps, hfetched, hbuffer⟩ := ih (by omega)
    cases hA : A m with
    | false =>
      have hne : ∀ b, A b = true → (b < m ↔ b < m + 1) := by
        intro b hb
        have : b ≠ m := by
          rintro rfl
          rw [hA] at hb
          cases hb
        omega
      refine ⟨buffer, fetched, hsteps, fun b => ?_, fun x => ?_⟩
      · rw [hfetched]
        cases hb : A b with
        | true => simp [hne b hb]
        | false => rfl
      · rw [hbuffer]
        have hiff : (A (x / w) = true ∧ x / w < m) ↔ (A (x / w) = true ∧ x / w < m + 1) :=
          and_congr_right fun hb => hne _ hb
        simp only [hiff]
    | true =>
      refine ⟨_, _, .step (.fetch m) hsteps (hG _ _) (step_fetch (by omega)), fun b => ?_, fun x => ?_⟩
      · rcases eq_or_ne b m with rfl | hb
        · simp [hA]
        · have hlt : b < m ↔ b < m + 1 := by omega
          simp [hb, hfetched, hlt]
      · simp only [copy_block hw]
        rcases eq_or_ne (x / w) m with hx | hx
        · rw [if_pos hx, if_pos ⟨by rw [hx]; exact hA, by omega⟩]
        · have hlt : x / w < m ↔ x / w < m + 1 := by omega
          rw [if_neg hx, hbuffer]
          simp only [hlt]

variable (encode) in
/-- **Mixed reads**: a reader can get some blocks of the first image, and the others of the last one. -/
theorem exists_read (hw : 0 < w) {W : Nat → ν} (hland : ∀ s b, G s (.land b)) (hfetch : ∀ s b, G s (.fetch b))
    (hwrite : ∀ s : State ν, s.nodes s.last = W s.last → G s (.write (W (s.last + 1)))) (A : Nat → Bool) (k : Nat) :
    ∃ s, (machine n w encode (W 0)).Steps G (machine n w encode (W 0)).init [] s [] ∧ s.last = k ∧
      (∀ b < n, s.fetched b = true) ∧ (∀ i ≤ k, s.nodes i = W i) ∧
      ∀ x, x / w < n → s.buffer x = encode (if A (x / w) then W 0 else W k) x := by
  let M := machine n w encode (W 0)
  obtain ⟨buffer₁, fetched₁, hsteps₁, hfetched₁, hbuffer₁⟩ := exists_fetch encode (W 0) hw hfetch A M.init [] n
    le_rfl
  obtain ⟨s₂, hsteps₂, hsettled, hlast, hbuffer₂, hfetched₂, hnode, hnodes⟩ := exists_write w encode (W 0) hland
    hwrite (s := { M.init with buffer := buffer₁, fetched := fetched₁ }) [] (fun _ _ => rfl) rfl k
  obtain ⟨buffer₃, fetched₃, hsteps₃, hfetched₃, hbuffer₃⟩ := exists_fetch encode (W 0) hw hfetch (fun b => !A b) s₂
    [] n le_rfl
  have hlast' : s₂.last = k := hlast.trans (Nat.zero_add k)
  have hsteps := hsteps₁.trans (hsteps₂.trans hsteps₃)
  have hshown : Shown n w encode s₂ := (Machine.Run.of_steps .init (hsteps₁.trans hsteps₂)).invariant
    (I := fun s _ => Shown n w encode s) init_shown fun _ hI _ hs => hI.step hw hs
  refine ⟨_, hsteps, hlast', fun b hb => ?_, fun i hi => ?_, fun x hx => ?_⟩
  · simp only [hfetched₃, hfetched₂, hfetched₁]
    cases A b <;> simp [hb]
  · simp only [hnodes]
    rcases Nat.eq_zero_or_pos i with rfl | hi0
    · rw [if_neg (by simp [M, machine])]
      rfl
    · rw [if_pos ⟨hi0, by simpa [M, machine] using hi⟩]
  · simp only [hbuffer₃, hbuffer₂, hbuffer₁]
    cases hA : A (x / w) with
    | true => simp [hx, M, machine]
    | false =>
      have hmem := hshown.memory _ hx x rfl
      rw [hsettled _ hx, if_pos rfl, hnode, hlast'] at hmem
      simp [hx, hmem]

end Mixed

end Snapshot

namespace Frame

/-- **Blocks with one version**: if the blocks of framed bytes are from images whose marks have the version of the first
byte of a slice, and an accepted slice has marks with the version of its first byte, then its blocks are from images of
one version. -/
theorem block_of_checked {β : Type} {b f len e s : Nat} {raw : Nat → UInt8} {d : Nat → Nat → UInt8}
    {c : Nat → Nat → Nat → UInt8} (hb : 0 < b) (ver : UInt8 → β) {v : Nat → β} (hf : f = min (b + 1) len) (he : e ≤ len)
    (hse : s < e) (hraw : ∀ x < start b 1 f len, raw x = frame b 1 f (d (x / (b + 1))) (c (x / (b + 1))) x)
    (hs : ∀ l, ver (d l s) = v l)
    (hmark : ∀ k, s ≤ boundary b f k → boundary b f k < e → (∀ l, ver (c l (boundary b f k) 0) = v l) ∧
      ver (raw (markPos b 1 f k)) = ver (unframe b 1 f raw s)) :
    ∃ l₀, ∀ p, s ≤ p → p < e → ∃ l, v l = v l₀ ∧ unframe b 1 f raw p = d l p := by
  have hpos : ∀ p < len, unframe b 1 f raw p = d (marks b f (p + 1)) p := by
    intro p hp
    rw [unframe, hraw _ (pos_lt_start hp), frame_pos hb, pos_div hb hf hp]
  refine ⟨marks b f (s + 1), fun p hsp hpe => ⟨marks b f (p + 1), ?_, hpos p (by omega)⟩⟩
  have hfirst : ver (unframe b 1 f raw s) = v (marks b f (s + 1)) := by rw [hpos s (by omega), hs]
  have hmono := marks_mono (b := b) (f := f) (show s + 1 ≤ p + 1 by omega)
  rcases Nat.eq_or_lt_of_le hmono with heq | hlt
  · rw [heq]
  · -- the block of `p` begins behind `s`
    obtain ⟨k, hk⟩ : ∃ k, marks b f (p + 1) = k + 1 := ⟨marks b f (p + 1) - 1, by omega⟩
    have hkp : boundary b f k < p + 1 := (boundary_lt_iff hb).2 (by omega)
    have hks : s ≤ boundary b f k := by
      by_contra hlt'
      have := (boundary_lt_iff hb).1 (show boundary b f k < s + 1 by omega)
      omega
    have hkl : boundary b f k < len := by omega
    obtain ⟨hc, hm⟩ := hmark k hks (by omega)
    have hmp : markPos b 1 f k < start b 1 f len := markPos_lt_start hb Nat.one_pos hkl
    have hframe : frame b 1 f (d (k + 1)) (c (k + 1)) (markPos b 1 f k) = c (k + 1) (boundary b f k) 0 :=
      frame_mark Nat.one_pos
    rw [hraw _ hmp, markPos_div hf hkl Nat.one_pos, hframe, hc, hfirst] at hm
    rw [hk]
    exact hm

end Frame

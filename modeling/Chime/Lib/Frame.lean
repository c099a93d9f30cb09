import Chime.Lib.Memory
import Mathlib.Data.Nat.Basic

/-!
# Framed bytes

A framing puts a mark of `w` bytes in front of every block of `b` payload bytes, the first mark at position `f`.
`Frame.frame` gives the raw bytes of a payload with its marks: payload position `p` is at raw position `pos p`
(`frame_pos`), the mark of the `k`-th boundary at `markPos k` (`frame_mark`). The raw bytes of a slice of the payload
are those from `start s` on, and they are framed themselves (`frame_slice`). `encode` and `decode` are the loops that
copy block by block (`encode_apply`, `decode_spec`); `decodeOut` is what a decoder leaves in its output, accepted or
not.
-/

open Memory

namespace Frame

variable (b w f : Nat)

/-- The number of boundaries below a payload position. -/
def marks (p : Nat) : Nat := (p - f + (b - 1)) / b

/-- The payload position of a boundary. -/
def boundary (k : Nat) : Nat := f + b * k

/-- The raw position of the mark at a boundary. -/
def markPos (k : Nat) : Nat := f + (b + w) * k

/-- The raw size of the payload below a position; a slice that begins there begins there in the raw bytes. -/
def start (p : Nat) : Nat := p + w * marks b f p

/-- The raw position of a payload position. -/
def pos (p : Nat) : Nat := p + w * marks b f (p + 1)

/-- The raw bytes of a payload `d`; `c p` is the mark in front of position `p`. -/
def frame (d : Nat → UInt8) (c : Nat → Nat → UInt8) (x : Nat) : UInt8 :=
  if x < f then d x
  else if (x - f) % (b + w) < w then c (boundary b f ((x - f) / (b + w))) ((x - f) % (b + w))
  else d (boundary b f ((x - f) / (b + w)) + ((x - f) % (b + w) - w))

/-- The payload of raw bytes. -/
def unframe (r : Nat → UInt8) (p : Nat) : UInt8 := r (pos b w f p)

variable {b w f} {p k o x s e r : Nat}

/-! ## Positions -/

section Positions

variable (hb : 0 < b)

include hb

theorem marks_of_le (h : p ≤ f) : marks b f p = 0 := by
  rw [marks, Nat.sub_eq_zero_of_le h, Nat.zero_add]
  exact Nat.div_eq_of_lt (by omega)

theorem marks_boundary : marks b f (boundary b f k) = k := by
  rw [marks, boundary, Nat.add_sub_cancel_left, Nat.mul_add_div hb, Nat.div_eq_of_lt (by omega), Nat.add_zero]

theorem marks_boundary_add (hr : 0 < r) (hle : r ≤ b) : marks b f (boundary b f k + r) = k + 1 := by
  have h : boundary b f k + r - f + (b - 1) = b * (k + 1) + (r - 1) := by
    rw [boundary, Nat.mul_succ]
    omega
  rw [marks, h, Nat.mul_add_div hb, Nat.div_eq_of_lt (by omega), Nat.add_zero]

/-- A payload position is in front of the first boundary, or behind one. -/
theorem pos_cases (f p : Nat) : p < f ∨ ∃ k r, r < b ∧ p = boundary b f k + r := by
  rcases Nat.lt_or_ge p f with h | h
  · exact .inl h
  · refine .inr ⟨(p - f) / b, (p - f) % b, Nat.mod_lt _ hb, ?_⟩
    have := Nat.div_add_mod (p - f) b
    rw [boundary]
    omega

theorem pos_of_lt (h : p < f) : pos b w f p = p := by
  rw [pos, marks_of_le hb (by omega), Nat.mul_zero, Nat.add_zero]

theorem pos_boundary_add (hr : r < b) : pos b w f (boundary b f k + r) = markPos b w f k + w + r := by
  rw [pos, Nat.add_assoc (boundary b f k) r 1, marks_boundary_add hb (by omega) (by omega), boundary, markPos,
    Nat.add_mul,
    Nat.mul_succ]
  omega

theorem start_boundary : start b w f (boundary b f k) = markPos b w f k := by
  rw [start, marks_boundary hb, boundary, markPos, Nat.add_mul]
  omega

theorem start_of_le (h : p ≤ f) : start b w f p = p := by rw [start, marks_of_le hb h, Nat.mul_zero, Nat.add_zero]

/-- Behind a boundary a slice begins at its payload. -/
theorem start_boundary_add (hr : 0 < r) (hle : r ≤ b) :
    start b w f (boundary b f k + r) = markPos b w f k + w + r := by
  rw [start, marks_boundary_add hb hr hle, boundary, markPos, Nat.add_mul, Nat.mul_succ]
  omega

omit hb in
theorem marks_mono (h : p ≤ r) : marks b f p ≤ marks b f r := Nat.div_le_div_right (by omega)

omit hb in
theorem start_mono (h : p ≤ r) : start b w f p ≤ start b w f r :=
  Nat.add_le_add h (Nat.mul_le_mul_left _ (marks_mono h))

/-- A boundary is below a position if its number is. -/
theorem boundary_lt_iff : boundary b f k < p ↔ k < marks b f p := by
  rw [marks, Nat.lt_div_iff_mul_lt hb, boundary, Nat.mul_comm]
  omega

omit hb in
theorem start_le_pos : start b w f p ≤ pos b w f p :=
  Nat.add_le_add le_rfl (Nat.mul_le_mul_left _ (marks_mono (by omega)))

omit hb in
theorem pos_lt_start (h : p < e) : pos b w f p < start b w f e := by
  have := Nat.mul_le_mul_left w (marks_mono (b := b) (f := f) (show p + 1 ≤ e by omega))
  rw [pos, start]
  omega

omit hb in
theorem pos_lt_start_iff : pos b w f p < start b w f e ↔ p < e := by
  refine ⟨fun h => Nat.lt_of_not_le fun hle => ?_, pos_lt_start⟩
  have := start_mono (b := b) (w := w) (f := f) hle
  have := start_le_pos (b := b) (w := w) (f := f) (p := p)
  omega

theorem markPos_lt_start (ho : o < w) (hk : boundary b f k < e) : markPos b w f k + o < start b w f e := by
  have := pos_lt_start (b := b) (w := w) (f := f) hk
  rw [← Nat.add_zero (boundary b f k), pos_boundary_add hb hb] at this
  omega

/-- The raw bytes are the payload and the marks. -/
theorem raw_cases (h : x < start b w f e) :
    (∃ p, p < e ∧ x = pos b w f p) ∨ ∃ k o, o < w ∧ boundary b f k < e ∧ x = markPos b w f k + o := by
  rcases Nat.lt_or_ge x f with hx | hx
  · refine .inl ⟨x, ?_, (pos_of_lt hb hx).symm⟩
    by_contra hle
    rw [start_of_le hb (by omega)] at h
    omega
  · obtain ⟨k, o, ho, rfl⟩ : ∃ k o, o < b + w ∧ x = markPos b w f k + o :=
      ⟨(x - f) / (b + w), (x - f) % (b + w), Nat.mod_lt _ (by omega), by
        have := Nat.div_add_mod (x - f) (b + w)
        rw [markPos]
        omega⟩
    have hk : boundary b f k < e := by
      by_contra hle
      have := start_mono (b := b) (w := w) (f := f) (show e ≤ boundary b f k by omega)
      rw [start_boundary hb] at this
      omega
    rcases Nat.lt_or_ge o w with how | how
    · exact .inr ⟨k, o, how, hk, rfl⟩
    · refine .inl ⟨boundary b f k + (o - w), ?_, ?_⟩
      · by_contra hle
        have hr : 0 < e - boundary b f k := by omega
        have := start_boundary_add (w := w) (f := f) (k := k) hb hr (by omega)
        rw [show boundary b f k + (e - boundary b f k) = e by omega] at this
        omega
      · rw [pos_boundary_add hb (by omega)]
        omega

end Positions

/-! ## Raw bytes -/

section Raw

variable {d d' : Nat → UInt8} {c c' : Nat → Nat → UInt8} (hb : 0 < b)

include hb

theorem frame_pos : frame b w f d c (pos b w f p) = d p := by
  rcases pos_cases hb f p with h | ⟨k, r, hr, rfl⟩
  · rw [pos_of_lt hb h, frame, if_pos h]
  · have hdiv : (markPos b w f k + w + r - f) / (b + w) = k := by
      rw [show markPos b w f k + w + r - f = (b + w) * k + (w + r) by rw [markPos]; omega, Nat.mul_add_div (by omega),
        Nat.div_eq_of_lt (by omega), Nat.add_zero]
    have hmod : (markPos b w f k + w + r - f) % (b + w) = w + r := by
      rw [show markPos b w f k + w + r - f = (b + w) * k + (w + r) by rw [markPos]; omega, Nat.mul_add_mod,
        Nat.mod_eq_of_lt (by omega)]
    rw [pos_boundary_add hb hr, frame, if_neg (by rw [markPos]; omega), hdiv, hmod, if_neg (by omega),
      Nat.add_sub_cancel_left]

omit hb in
theorem frame_mark (ho : o < w) : frame b w f d c (markPos b w f k + o) = c (boundary b f k) o := by
  have hsub : markPos b w f k + o - f = (b + w) * k + o := by
    rw [markPos]
    omega
  rw [frame, if_neg (by rw [markPos]; omega), hsub, Nat.mul_add_mod, Nat.mod_eq_of_lt (by omega), if_pos ho,
    Nat.mul_add_div (by omega), Nat.div_eq_of_lt (by omega), Nat.add_zero]

/-- Payload and marks do not overlap. -/
theorem pos_ne_markPos (ho : o < w) : pos b w f p ≠ markPos b w f k + o := fun h => by
  have hpos : frame b w f (fun _ => 0) (fun _ _ => 1) (pos b w f p) = 0 := frame_pos hb
  have hmark : frame b w f (fun _ => 0) (fun _ _ => 1) (markPos b w f k + o) = 1 := frame_mark ho
  rw [h, hmark] at hpos
  exact absurd hpos (by decide)

omit hb in
theorem pos_inj {p' : Nat} : pos b w f p = pos b w f p' ↔ p = p' := by
  refine ⟨fun h => ?_, fun h => by rw [h]⟩
  have hle : p < p' + 1 := by
    rw [← pos_lt_start_iff (b := b) (w := w) (f := f), h]
    exact pos_lt_start (Nat.lt_succ_self p')
  have hge : p' < p + 1 := by
    rw [← pos_lt_start_iff (b := b) (w := w) (f := f), ← h]
    exact pos_lt_start (Nat.lt_succ_self p)
  omega

/-- Framing and back. -/
theorem unframe_frame : unframe b w f (frame b w f d c) = d := funext fun _ => frame_pos hb

/-- Raw bytes up to a position depend on the payload and the marks below it. -/
theorem frame_congr (hd : ∀ p < e, d p = d' p)
    (hc : ∀ k, boundary b f k < e → ∀ o < w, c (boundary b f k) o = c' (boundary b f k) o)
    (hx : x < start b w f e) : frame b w f d c x = frame b w f d' c' x := by
  rcases raw_cases hb hx with ⟨p, hp, rfl⟩ | ⟨k, o, ho, hk, rfl⟩
  · rw [frame_pos hb, frame_pos hb, hd p hp]
  · rw [frame_mark ho, frame_mark ho, hc k hk o ho]

/-- Raw bytes outside a slice do not depend on the slice. -/
theorem frame_congr_outside (hd : ∀ p, p < s ∨ e ≤ p → d p = d' p)
    (hc : ∀ k, boundary b f k < s ∨ e ≤ boundary b f k → ∀ o < w, c (boundary b f k) o = c' (boundary b f k) o)
    (hx : x < start b w f s ∨ start b w f e ≤ x) : frame b w f d c x = frame b w f d' c' x := by
  have hlt : x < start b w f (x + 1) := Nat.lt_of_lt_of_le (Nat.lt_succ_self x) (Nat.le_add_right _ _)
  rcases raw_cases hb hlt with ⟨p, -, rfl⟩ | ⟨k, o, ho, -, rfl⟩
  · rw [frame_pos hb, frame_pos hb]
    refine hd p (hx.imp pos_lt_start_iff.1 fun hle => Nat.le_of_not_lt fun hp => ?_)
    have := pos_lt_start (b := b) (w := w) (f := f) hp
    omega
  · rw [frame_mark ho, frame_mark ho]
    refine hc k (hx.imp (fun hlt => Nat.lt_of_not_le fun hle => ?_) fun hle => Nat.le_of_not_lt fun hk => ?_) o ho
    · have := start_mono (b := b) (w := w) (f := f) hle
      rw [start_boundary hb] at this
      omega
    · have := markPos_lt_start hb ho hk
      omega

omit hb in
/-- Raw bytes that agree have the same payload. -/
theorem unframe_congr {r r' : Nat → UInt8} (h : ∀ x < start b w f e, r x = r' x) (hp : p < e) :
    unframe b w f r p = unframe b w f r' p := h _ (pos_lt_start hp)

end Raw

/-! ## Slices -/

section Slices

variable (b f) in
/-- The position of the first mark in the slice from `s` to `e`. -/
def first (s e : Nat) : Nat := min (boundary b f (marks b f s) - s) (e - s)

variable (hb : 0 < b)

include hb

theorem le_boundary_marks : s ≤ boundary b f (marks b f s) := by
  by_contra h
  exact Nat.lt_irrefl _ ((boundary_lt_iff hb).1 (Nat.lt_of_not_le h))

/-- The boundaries in a slice. -/
theorem slice_boundary (hs : s ≤ boundary b f k) (he : boundary b f k < e) :
    ∃ i, k = marks b f s + i ∧ boundary b (first b f s e) i + s = boundary b f k ∧
      markPos b w f k = start b w f s + markPos b w (first b f s e) i := by
  have hk : marks b f s ≤ k := by
    by_contra hlt
    exact absurd ((boundary_lt_iff hb).2 (Nat.lt_of_not_le hlt)) (by omega)
  obtain ⟨i, rfl⟩ := Nat.exists_eq_add_of_le hk
  have hle := le_boundary_marks (f := f) (s := s) hb
  have hmono : boundary b f (marks b f s) ≤ boundary b f (marks b f s + i) :=
    Nat.add_le_add_left (Nat.mul_le_mul_left _ (by omega)) _
  have hfirst : first b f s e = boundary b f (marks b f s) - s := Nat.min_eq_left (by omega)
  have hexp : b * (marks b f s + i) = b * marks b f s + b * i := Nat.mul_add ..
  refine ⟨i, rfl, ?_, ?_⟩
  · rw [hfirst]
    simp only [boundary] at hle ⊢
    omega
  · have hmul : (b + w) * (marks b f s + i) = b * marks b f s + w * marks b f s + (b + w) * i := by
      rw [Nat.mul_add, Nat.add_mul]
    rw [hfirst]
    simp only [boundary] at hle ⊢
    simp only [markPos, start]
    omega

/-- The marks in a slice. -/
theorem slice_marks (hs : s ≤ p) (he : p ≤ e) : marks b (first b f s e) (p - s) = marks b f p - marks b f s := by
  refine eq_of_forall_lt_iff fun i => ?_
  rw [← boundary_lt_iff hb]
  have hle := le_boundary_marks (f := f) (s := s) hb
  constructor
  · intro h
    have hfirst : first b f s e = boundary b f (marks b f s) - s := by
      rw [boundary] at h
      refine Nat.min_eq_left (Nat.le_of_not_lt fun hlt => ?_)
      rw [first, Nat.min_eq_right (by omega)] at h
      omega
    have hlt : boundary b f (marks b f s + i) < p := by
      have hexp : b * (marks b f s + i) = b * marks b f s + b * i := Nat.mul_add ..
      rw [hfirst] at h
      simp only [boundary] at h hle ⊢
      omega
    have := (boundary_lt_iff hb).1 hlt
    omega
  · intro h
    have hlt : boundary b f (marks b f s + i) < p := (boundary_lt_iff hb).2 (by omega)
    have hge : boundary b f (marks b f s) ≤ boundary b f (marks b f s + i) :=
      Nat.add_le_add_left (Nat.mul_le_mul_left _ (by omega)) _
    obtain ⟨i', hi, hb', -⟩ := slice_boundary (w := 0) hb (show s ≤ boundary b f (marks b f s + i) by omega)
      (show boundary b f (marks b f s + i) < e by omega)
    obtain rfl : i = i' := by omega
    omega

/-- The boundaries of a slice are boundaries. -/
theorem slice_boundary_of {i : Nat} (hse : s ≤ e) (h : boundary b (first b f s e) i < e - s) :
    s + boundary b (first b f s e) i = boundary b f (marks b f s + i) ∧
      start b w f s + markPos b w (first b f s e) i = markPos b w f (marks b f s + i) := by
  have hmarks := slice_marks (f := f) hb hse le_rfl
  have hi := (boundary_lt_iff hb).1 h
  have hle := le_boundary_marks (f := f) (s := s) hb
  have hge : boundary b f (marks b f s) ≤ boundary b f (marks b f s + i) :=
    Nat.add_le_add_left (Nat.mul_le_mul_left _ (by omega)) _
  obtain ⟨i', hi', hbound, hmark⟩ := slice_boundary (w := w) hb (show s ≤ boundary b f (marks b f s + i) by omega)
    ((boundary_lt_iff hb).2 (show marks b f s + i < marks b f e by omega))
  obtain rfl : i = i' := by omega
  exact ⟨by omega, hmark.symm⟩

/-- A part of a slice has the raw size of that part. -/
theorem slice_start (hs : s ≤ p) (he : p ≤ e) :
    start b w f p = start b w f s + start b w (first b f s e) (p - s) := by
  have hmono := marks_mono (b := b) (f := f) hs
  obtain ⟨n, hn⟩ := Nat.exists_eq_add_of_le hmono
  rw [start, start, start, slice_marks hb hs he, hn, Nat.add_sub_cancel_left, Nat.mul_add]
  omega

theorem slice_pos (hs : s ≤ p) (he : p < e) :
    pos b w f p = start b w f s + pos b w (first b f s e) (p - s) := by
  have hmono := marks_mono (b := b) (f := f) (show s ≤ p + 1 by omega)
  obtain ⟨n, hn⟩ := Nat.exists_eq_add_of_le hmono
  have hmarks := slice_marks (f := f) hb (show s ≤ p + 1 by omega) he
  rw [show p + 1 - s = p - s + 1 by omega] at hmarks
  rw [pos, start, pos, hmarks, hn, Nat.add_sub_cancel_left, Nat.mul_add]
  omega

/-- **Slices**: the raw bytes of a slice are the slice framed. -/
theorem frame_slice {d : Nat → UInt8} {c : Nat → Nat → UInt8} (hse : s ≤ e)
    (hx : x < start b w (first b f s e) (e - s)) :
    frame b w f d c (start b w f s + x) = frame b w (first b f s e) (fun p => d (s + p)) (fun p => c (s + p)) x := by
  rcases raw_cases hb hx with ⟨p, hp, rfl⟩ | ⟨i, o, ho, hi, rfl⟩
  · have hpos := slice_pos (w := w) (f := f) hb (show s ≤ s + p by omega) (show s + p < e by omega)
    rw [Nat.add_sub_cancel_left] at hpos
    rw [← hpos, frame_pos hb, frame_pos hb]
  · obtain ⟨hbound, hmark⟩ := slice_boundary_of (w := w) hb hse hi
    rw [← Nat.add_assoc, hmark, frame_mark ho, frame_mark ho, hbound]

/-- The payload of a slice. -/
theorem unframe_slice {r r' : Nat → UInt8} (hse : s ≤ e)
    (h : ∀ x < start b w (first b f s e) (e - s), r' x = r (start b w f s + x))
    (hp : p < e - s) : unframe b w (first b f s e) r' p = unframe b w f r (s + p) := by
  have hpos := slice_pos (w := w) (f := f) hb (show s ≤ s + p by omega) (show s + p < e by omega)
  rw [Nat.add_sub_cancel_left] at hpos
  rw [unframe, unframe, h _ (pos_lt_start hp), hpos]

end Slices

/-! ## The loops -/

section Loops

variable (b w)

/-- `for (i, j; i < len; i += b, j += b)`: a mark at `j`, then a block of the input behind it. -/
def encodeLoop (len : Nat) (mark : Nat → Nat → UInt8) (inp : Nat → UInt8) :
    Nat → Nat → Nat → (Nat → UInt8) → Nat → UInt8
  | 0, _, _, out => out
  | n + 1, i, j, out =>
    if i < len then
      let out := Memory.copy out j (mark i) 0 w
      let j := j + w
      let out := Memory.copy out j inp i (min b (len - i))
      encodeLoop len mark inp n (i + b) (j + b) out
    else out

/-- The bytes in front of the first mark, and the loop. -/
def encode (f len : Nat) (mark : Nat → Nat → UInt8) (inp out : Nat → UInt8) : Nat → UInt8 :=
  encodeLoop b w len mark inp len f f (Memory.copy out 0 inp 0 f)

/-- `for (i, j; j < len; i += b, j += b)`: a block behind the mark at `i`, then the check of the mark. -/
def decodeLoop (len : Nat) (ok : (Nat → UInt8) → Nat → Nat → Bool) (inp : Nat → UInt8) :
    Nat → Nat → Nat → (Nat → UInt8) → Option (Nat → UInt8)
  | 0, _, _, out => some out
  | n + 1, i, j, out =>
    if j < len then
      let mark := i
      let i := i + w
      let out := Memory.copy out j inp i (min b (len - j))
      if ok out j mark then decodeLoop len ok inp n (i + b) (j + b) out else none
    else some out

/-- The bytes in front of the first mark, and the loop; `none` if a check fails. -/
def decode (f len : Nat) (ok : (Nat → UInt8) → Nat → Nat → Bool) (inp out : Nat → UInt8) : Option (Nat → UInt8) :=
  decodeLoop b w len ok inp len f f (Memory.copy out 0 inp 0 f)

variable {b w} {len n i : Nat} {mark : Nat → Nat → UInt8} {inp out out' : Nat → UInt8}
  {ok : (Nat → UInt8) → Nat → Nat → Bool} (hb : 0 < b)

include hb

theorem encodeLoop_apply (hn : len ≤ boundary b f (k + n))
    (hout : ∀ x < markPos b w f k, x < start b w f len → out x = frame b w f inp mark x) (hx : x < start b w f len) :
    encodeLoop b w len mark inp n (boundary b f k) (markPos b w f k) out x = frame b w f inp mark x := by
  induction n generalizing k out with
  | zero =>
    have hle : start b w f len ≤ markPos b w f k := by
      rw [← start_boundary hb]
      exact start_mono hn
    exact hout x (by omega) hx
  | succ n ih =>
    rw [encodeLoop]
    split
    · rename_i hk
      have hi : boundary b f k + b = boundary b f (k + 1) := by
        simp only [boundary, Nat.mul_succ]
        omega
      have hj : markPos b w f k + w + b = markPos b w f (k + 1) := by
        simp only [markPos, Nat.mul_succ]
        omega
      simp only [hi, hj]
      refine ih (by rwa [show k + 1 + n = k + (n + 1) by omega]) fun x hx hlen => ?_
      by_cases hx₁ : markPos b w f k + w ≤ x
      · -- in the block
        obtain ⟨r, rfl⟩ := Nat.exists_eq_add_of_le hx₁
        have hr : r < b := by omega
        rw [← pos_boundary_add hb hr, frame_pos hb]
        have hlt : boundary b f k + r < len := by
          rw [← pos_boundary_add hb hr] at hlen
          exact pos_lt_start_iff.1 hlen
        rw [pos_boundary_add hb hr, copy_apply (by omega), Nat.add_sub_cancel_left]
      · rw [copy_of_not (by omega)]
        by_cases hx₂ : markPos b w f k ≤ x
        · obtain ⟨o, rfl⟩ := Nat.exists_eq_add_of_le hx₂
          rw [copy_apply (by omega), frame_mark (by omega), Nat.zero_add, Nat.add_sub_cancel_left]
        · rw [copy_of_not (by omega)]
          exact hout x (by omega) hlen
    · rename_i hk
      have hle : start b w f len ≤ markPos b w f k := by
        rw [← start_boundary hb]
        exact start_mono (by omega)
      exact hout x (by omega) hx

/-- **Encoding**: the loop writes the framed input. -/
theorem encode_apply (hx : x < start b w f len) :
    encode b w f len mark inp out x = frame b w f inp mark x := by
  have hn : len ≤ boundary b f (0 + len) := by
    rw [boundary, Nat.zero_add]
    exact (Nat.le_mul_of_pos_left _ hb).trans (Nat.le_add_left _ _)
  refine encodeLoop_apply (k := 0) hb hn (fun x hx hlen => ?_) hx
  have hlt : x < f := hx
  rw [copy_apply (by omega), frame, if_pos hlt, Nat.zero_add, Nat.sub_zero]

theorem encodeLoop_of_le (hx : start b w f len ≤ x) :
    encodeLoop b w len mark inp n (boundary b f k) (markPos b w f k) out x = out x := by
  induction n generalizing k out with
  | zero => rfl
  | succ n ih =>
    rw [encodeLoop]
    split
    · rename_i hk
      have hi : boundary b f k + b = boundary b f (k + 1) := by
        simp only [boundary, Nat.mul_succ]
        omega
      have hj : markPos b w f k + w + b = markPos b w f (k + 1) := by
        simp only [markPos, Nat.mul_succ]
        omega
      -- the end of the block is not behind the end
      have hend : markPos b w f k + w + min b (len - boundary b f k) ≤ start b w f len := by
        rw [← start_boundary_add hb (by omega) (Nat.min_le_left _ _)]
        exact start_mono (by omega)
      simp only [hi, hj]
      rw [ih, copy_of_not (by omega), copy_of_not (by omega)]
    · rfl

/-- Nothing is written behind the end. -/
theorem encode_of_le (hf : f ≤ len) (hx : start b w f len ≤ x) : encode b w f len mark inp out x = out x := by
  have hle : len ≤ start b w f len := Nat.le_add_right _ _
  have hloop := @encodeLoop_of_le b w f 0 x len len mark inp (Memory.copy out 0 inp 0 f) hb hx
  rw [boundary, markPos, Nat.mul_zero, Nat.mul_zero, Nat.add_zero] at hloop
  rw [encode, hloop, copy_of_not (by omega)]

/-- The decoder stops at the first mark that does not pass. -/
theorem decodeLoop_spec (hlocal : ∀ out out' j i, (∀ p ≤ j, out p = out' p) → ok out j i = ok out' j i)
    (hn : len ≤ boundary b f (k + n)) (hout : ∀ p < boundary b f k, p < len → out p = unframe b w f inp p) :
    (∀ out', decodeLoop b w len ok inp n (markPos b w f k) (boundary b f k) out = some out' →
      ∀ p < len, out' p = unframe b w f inp p) ∧
    ((decodeLoop b w len ok inp n (markPos b w f k) (boundary b f k) out).isSome ↔
      ∀ i, k ≤ i → boundary b f i < len → ok (unframe b w f inp) (boundary b f i) (markPos b w f i) = true) := by
  induction n generalizing k out with
  | zero =>
    rw [Nat.add_zero] at hn
    refine ⟨fun out' he p hp => ?_, iff_of_true rfl fun i hki hi => ?_⟩
    · obtain rfl := Option.some.inj he
      exact hout p (by omega) hp
    · have : boundary b f k ≤ boundary b f i := Nat.add_le_add_left (Nat.mul_le_mul_left _ hki) _
      omega
  | succ n ih =>
    rw [decodeLoop]
    split
    · rename_i hk
      have hj : boundary b f k + b = boundary b f (k + 1) := by
        simp only [boundary, Nat.mul_succ]
        omega
      have hi : markPos b w f k + w + b = markPos b w f (k + 1) := by
        simp only [markPos, Nat.mul_succ]
        omega
      have hcopy : ∀ p < boundary b f (k + 1), p < len →
          Memory.copy out (boundary b f k) inp (markPos b w f k + w) (min b (len - boundary b f k)) p =
            unframe b w f inp p := by
        intro p hp hlen
        by_cases hpk : boundary b f k ≤ p
        · obtain ⟨r, rfl⟩ := Nat.exists_eq_add_of_le hpk
          rw [copy_apply (by omega), unframe, pos_boundary_add hb (by omega), Nat.add_sub_cancel_left]
        · rw [copy_of_not (by omega)]
          exact hout p (by omega) hlen
      have hok := hlocal _ (unframe b w f inp) (boundary b f k) (markPos b w f k) fun p hp =>
        hcopy p (by omega) (by omega)
      simp only [hi, hj, hok]
      obtain ⟨ih₁, ih₂⟩ := ih (by rwa [show k + 1 + n = k + (n + 1) by omega]) hcopy
      split
      · rename_i hpass
        refine ⟨ih₁, ih₂.trans ⟨fun h i hki hi => ?_, fun h i hki hi => h i (by omega) hi⟩⟩
        rcases Nat.eq_or_lt_of_le hki with rfl | hlt
        · exact hpass
        · exact h i hlt hi
      · rename_i hfail
        exact ⟨nofun, iff_of_false nofun fun h => hfail (h k le_rfl hk)⟩
    · rename_i hk
      refine ⟨fun out' he p hp => ?_, iff_of_true rfl fun i hki hi => ?_⟩
      · obtain rfl := Option.some.inj he
        exact hout p (by omega) hp
      · have : boundary b f k ≤ boundary b f i := Nat.add_le_add_left (Nat.mul_le_mul_left _ hki) _
        omega

omit hb in
/-- A check of a mark against the byte at the begin of its object looks only at what is decoded. -/
theorem local_mark {g : Nat → Nat} (hg : ∀ j, g j ≤ j) (inp : Nat → UInt8) (out out' : Nat → UInt8) (j i : Nat)
    (h : ∀ p ≤ j, out p = out' p) : (out (g j) == inp i) = (out' (g j) == inp i) := by
  rw [h _ (hg j)]

/-- **Decoding**: the loop gives the payload, and passes if every check does. -/
theorem decode_spec (hlocal : ∀ out out' j i, (∀ p ≤ j, out p = out' p) → ok out j i = ok out' j i) :
    (∀ out', decode b w f len ok inp out = some out' → ∀ p < len, out' p = unframe b w f inp p) ∧
    ((decode b w f len ok inp out).isSome ↔
      ∀ i, boundary b f i < len → ok (unframe b w f inp) (boundary b f i) (markPos b w f i) = true) := by
  have hn : len ≤ boundary b f (0 + len) := by
    rw [boundary, Nat.zero_add]
    exact (Nat.le_mul_of_pos_left _ hb).trans (Nat.le_add_left _ _)
  have hfront : ∀ p < boundary b f 0, p < len → Memory.copy out 0 inp 0 f p = unframe b w f inp p := fun p hp _ => by
    have hlt : p < f := hp
    rw [copy_apply (by omega), unframe, pos_of_lt hb hlt, Nat.zero_add, Nat.sub_zero]
  have h := decodeLoop_spec hb hlocal hn hfront
  exact ⟨h.1, h.2.trans ⟨fun h i hi => h i (Nat.zero_le i) hi, fun h i _ hi => h i hi⟩⟩

end Loops

/-! ## What a decoder leaves -/

section Output

variable (b w)

/-- The output of the loop of a decoder, also where a check fails. -/
def decodeOutLoop (len : Nat) (ok : (Nat → UInt8) → Nat → Nat → Bool) (inp : Nat → UInt8) :
    Nat → Nat → Nat → (Nat → UInt8) → Nat → UInt8
  | 0, _, _, out => out
  | n + 1, i, j, out =>
    if j < len then
      let mark := i
      let i := i + w
      let out := Memory.copy out j inp i (min b (len - j))
      if ok out j mark then decodeOutLoop len ok inp n (i + b) (j + b) out else out
    else out

/-- The output of a decoder, also where a check fails. -/
def decodeOut (f len : Nat) (ok : (Nat → UInt8) → Nat → Nat → Bool) (inp out : Nat → UInt8) : Nat → UInt8 :=
  decodeOutLoop b w len ok inp len f f (Memory.copy out 0 inp 0 f)

variable {b w} {len n i j : Nat} {inp out out' : Nat → UInt8} {ok : (Nat → UInt8) → Nat → Nat → Bool}

theorem decodeOutLoop_of_some (h : decodeLoop b w len ok inp n i j out = some out') :
    decodeOutLoop b w len ok inp n i j out = out' := by
  induction n generalizing i j out with
  | zero => exact Option.some.inj h
  | succ n ih =>
    rw [decodeLoop] at h
    rw [decodeOutLoop]
    split
    · rename_i hj
      simp only [if_pos hj] at h
      split at h
      · rename_i hok
        simp only [if_pos hok]
        exact ih h
      · cases h
    · rename_i hj
      rw [if_neg hj] at h
      exact Option.some.inj h

/-- The output of an accepted buffer. -/
theorem decodeOut_of_some (h : decode b w f len ok inp out = some out') : decodeOut b w f len ok inp out = out' :=
  decodeOutLoop_of_some h

/-- The loop leaves what is in front of it and what is behind the payload. -/
theorem decodeOutLoop_of_not (h : p < j ∨ len ≤ p) : decodeOutLoop b w len ok inp n i j out p = out p := by
  induction n generalizing i j out with
  | zero => rfl
  | succ n ih =>
    have hcopy : Memory.copy out j inp (i + w) (min b (len - j)) p = out p := copy_of_not (by omega)
    rw [decodeOutLoop]
    split
    · simp only
      split
      · rw [ih (h.imp_left fun hlt => by omega), hcopy]
      · exact hcopy
    · rfl

theorem decodeOut_of_lt (h : p < f) : decodeOut b w f len ok inp out p = inp p := by
  rw [decodeOut, decodeOutLoop_of_not (.inl h), copy_apply (by omega), Nat.zero_add, Nat.sub_zero]

theorem decodeOut_of_le (hf : f ≤ p) (hlen : len ≤ p) : decodeOut b w f len ok inp out p = out p := by
  rw [decodeOut, decodeOutLoop_of_not (.inr hlen), copy_of_not (by omega)]

end Output

/-! ## Mixtures -/

section Mixtures

/-- Raw bytes whose blocks of `n` bytes are each from `r` or from `r'`. -/
def mix (n : Nat) (side : Nat → Bool) (r r' : Nat → UInt8) (x : Nat) : UInt8 := if side (x / n) then r' x else r x

variable {side : Nat → Bool} {u u' d d' : Nat → UInt8} {c c' : Nat → Nat → UInt8} {len : Nat} (hb : 0 < b)

include hb

/-- The block of a payload position; the first block ends in front of the first mark. -/
theorem pos_div (hf : f = min (b + w) len) (hp : p < len) : pos b w f p / (b + w) = marks b f (p + 1) := by
  rcases pos_cases hb f p with h | ⟨k, r, hr, rfl⟩
  · rw [pos_of_lt hb h, marks_of_le hb h]
    exact Nat.div_eq_of_lt (by omega)
  · have hfb : f = b + w := by
      rw [boundary] at hp
      omega
    rw [pos_boundary_add hb hr, Nat.add_assoc (boundary b f k) r 1, marks_boundary_add hb (by omega) (by omega),
      markPos,
      show f + (b + w) * k + w + r = (b + w) * (k + 1) + (w + r) by rw [Nat.mul_succ]; omega,
      Nat.mul_add_div (by omega), Nat.div_eq_of_lt (by omega), Nat.add_zero]

omit hb in
theorem markPos_div (hf : f = min (b + w) len) (hk : boundary b f k < len) (hw : 0 < w) :
    markPos b w f k / (b + w) = k + 1 := by
  have hfb : f = b + w := by
    rw [boundary] at hk
    omega
  rw [markPos, show f + (b + w) * k = (b + w) * (k + 1) by rw [Nat.mul_succ]; omega, Nat.mul_div_cancel_left _ (by omega)]

/-- The payload of a mixture. -/
theorem unframe_mix (hf : f = min (b + w) len) (hp : p < len) : unframe b w f (mix (b + w) side u u') p =
    if side (marks b f (p + 1)) then unframe b w f u' p else unframe b w f u p := by
  rw [unframe, mix, pos_div hb hf hp]
  rfl

omit hb in
theorem mix_mark (hf : f = min (b + w) len) (hk : boundary b f k < len) (hw : 0 < w) :
    mix (b + w) side u u' (markPos b w f k) = if side (k + 1) then u' (markPos b w f k) else u (markPos b w f k) := by
  rw [mix, markPos_div hf hk hw]

omit hb in
/-- Different values tell the side. -/
theorem eq_of_ite_eq {β : Type} {v v' : β} {x y : Bool} (hne : v ≠ v')
    (h : (if x then v' else v) = if y then v' else v) : x = y := by
  cases x <;> cases y
  · rfl
  · exact absurd h hne
  · exact absurd h.symm hne
  · rfl

/-- **Mixtures**: a slice of a mixture whose marks all have the version of its first byte is from one side, if the two
sides have different versions at the first byte and at every mark. -/
theorem side_of_checked {β : Type} (ver : UInt8 → β) {v v' : β} (hf : f = min (b + 1) len) (he : e ≤ len) (hse : s < e)
    (hu : ∀ x < start b 1 f len, u x = frame b 1 f d c x) (hu' : ∀ x < start b 1 f len, u' x = frame b 1 f d' c' x)
    (hne : v ≠ v') (hs : ver (d s) = v) (hs' : ver (d' s) = v')
    (hmark : ∀ k, s ≤ boundary b f k → boundary b f k < e → ver (c (boundary b f k) 0) = v ∧
      ver (c' (boundary b f k) 0) = v' ∧
      ver (mix (b + 1) side u u' (markPos b 1 f k)) = ver (unframe b 1 f (mix (b + 1) side u u') s)) :
    ∃ t : Bool, ver (unframe b 1 f (mix (b + 1) side u u') s) = (if t then v' else v) ∧
      ∀ p, s ≤ p → p < e → unframe b 1 f (mix (b + 1) side u u') p = if t then d' p else d p := by
  have hpos (p : Nat) (hp : p < len) : unframe b 1 f (mix (b + 1) side u u') p =
      if side (marks b f (p + 1)) then d' p else d p := by
    rw [unframe_mix hb hf hp, unframe_congr hu hp, unframe_congr hu' hp, unframe_frame hb, unframe_frame hb]
  have hfirst : ver (unframe b 1 f (mix (b + 1) side u u') s) = if side (marks b f (s + 1)) then v' else v := by
    rw [hpos s (by omega), apply_ite ver, hs, hs']
  refine ⟨side (marks b f (s + 1)), hfirst, fun p hsp hpe => ?_⟩
  rw [hpos p (by omega)]
  suffices hside : side (marks b f (p + 1)) = side (marks b f (s + 1)) by rw [hside]
  have hmono := marks_mono (b := b) (f := f) (show s + 1 ≤ p + 1 by omega)
  rcases Nat.eq_or_lt_of_le hmono with heq | hlt
  · rw [heq]
  · -- the block of `p` begins behind `s`
    obtain ⟨k, hk⟩ : ∃ k, marks b f (p + 1) = k + 1 := ⟨marks b f (p + 1) - 1, by omega⟩
    have hkp : boundary b f k < p + 1 := (boundary_lt_iff hb).2 (by omega)
    have hks : s ≤ boundary b f k := by
      by_contra hlt'
      have := (boundary_lt_iff hb).1 (show boundary b f k < s + 1 by omega)
      omega
    have hkl : boundary b f k < len := by omega
    obtain ⟨hc, hc', hm⟩ := hmark k hks (by omega)
    have hmp : markPos b 1 f k < start b 1 f len := markPos_lt_start hb Nat.one_pos hkl
    have hmark₀ := frame_mark (b := b) (f := f) (k := k) (d := d) (c := c) Nat.one_pos
    have hmark₁ := frame_mark (b := b) (f := f) (k := k) (d := d') (c := c') Nat.one_pos
    rw [Nat.add_zero] at hmark₀ hmark₁
    rw [mix_mark hf hkl Nat.one_pos, hu _ hmp, hu' _ hmp, hmark₀, hmark₁, apply_ite ver, hc, hc', hfirst] at hm
    rw [hk]
    exact eq_of_ite_eq hne hm

end Mixtures
end Frame

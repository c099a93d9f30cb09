import Chime.Common
import Chime.Lib.Holders
import Chime.TreeCache

/-!
# The pages of the index cache (`TreeCache.h`)

Any number of threads add nodes to the cache, invalidate entries and evict. Each step is an atomic access to an entry,
to `free_size` or to the queue `cached_node_gc`; `malloc` may return a page that was deleted before. A page that is
allocated is in exactly one place: at the entry it was made for, in the hand of a thread, or in the queue
(`cache_pages`). Who has read the pointer of an entry may read the page until the queue has gone round
(`cached_page_readable`).

The skip list has one entry for each range, and never loses one. The entry that `evict_one` picks is an argument.
-/

namespace Chime
namespace CachePages

/-- The address of a page. -/
abbrev Page := Nat

/-- The first and the last key of an entry. -/
abbrev Range := Nat × Nat

/-- The range of the entry for a node. -/
def range (nd : InternalNode) : Range := (nd.lowest, nd.highest - 1)

/-- `safely_free_epoch`. -/
def safelyFreeEpoch : Nat := 20 * maxAppThread * maxCoroNum

/-- Where a thread stands. `evicting`: the call of `invalidate` is one of `evict_one`. -/
inductive Phase
  | idle
  /-- `add_entry` -/
  | insert (newPage : Page)
  /-- `auto ptr = e->ptr`, the range has an entry -/
  | load (newPage : Page)
  /-- `__sync_val_compare_and_swap` of the entry -/
  | swap (newPage : Page) (ptr : Option Page)
  /-- `free(new_page)` -/
  | free (newPage : Page)
  /-- `free_size.fetch_add(-new_page->consumed_cache_size())` -/
  | charge (newPage : Page)
  /-- `evict_one` -/
  | pick
  /-- `invalidate`: `auto ptr = entry->ptr` -/
  | unload (entry : Range) (evicting : Bool)
  /-- `__sync_bool_compare_and_swap` of the entry -/
  | clear (entry : Range) (ptr : Page) (evicting : Bool)
  /-- `free_size.fetch_add(ptr->consumed_cache_size())` -/
  | credit (ptr : Page) (evicting : Bool)
  /-- `cached_node_gc.push` -/
  | push (page : Page) (evicting : Bool)
  /-- `cached_node_gc.unsafe_size() > safely_free_epoch` -/
  | size (evicting : Bool)
  /-- `cached_node_gc.try_pop` -/
  | pop (evicting : Bool)
  /-- `delete next` -/
  | delete (next : Page) (evicting : Bool)
  /-- `while (free_size.load() < 0)` of `evict` -/
  | again
  deriving DecidableEq, Repr

namespace Phase

/-- What follows a call of `invalidate` or `safely_delete`. -/
def after (evicting : Bool) : Phase := if evicting then again else idle

/-- The page in the hand of the thread. -/
def page : Phase → Option Page
  | insert p | load p | swap p _ | free p | credit p _ | push p _ | delete p _ => some p
  | _ => none

/-- The page that was taken from an entry, and goes to the queue. -/
def retired : Phase → Option Page
  | credit p _ | push p _ => some p
  | _ => none

/-- The thread has found the queue too long. -/
def isPop : Phase → Bool
  | pop _ => true
  | _ => false

/-- The thread has put a page into the queue, and not yet found it short enough. -/
def isDeleting : Phase → Bool
  | size _ | pop _ | delete _ _ => true
  | _ => false

end Phase

structure State where
  /-- the pointers of the entries; `none`: the range has no entry -/
  entries : Range → Option (Option Page)
  /-- `cached_node_gc`, the oldest first -/
  gc : List Page
  freeSize : Int
  /-- what is in memory at a page, also after it was deleted -/
  content : Page → InternalNode
  /-- allocated and not yet deleted -/
  live : Page → Bool
  threads : Nat → Phase

/-- A step of a thread. -/
inductive Action
  /-- `add_to_cache` of a copy of the node, `malloc` returning `newPage` -/
  | add (t : Nat) (page : InternalNode) (newPage : Page)
  | invalidate (t : Nat) (entry : Range)
  /-- `evict_one` picks this entry -/
  | pick (t : Nat) (entry : Range)
  /-- the next step of a call -/
  | next (t : Nat)
  deriving DecidableEq, Repr

def Action.thread : Action → Nat
  | add t _ _ | invalidate t _ | pick t _ | next t => t

/-- The thread goes on. -/
def State.goto (s : State) (t : Nat) (ph : Phase) : State := { s with threads := Function.update s.threads t ph }

/-- The pointer of an entry is set. -/
def State.setPtr (s : State) (r : Range) (ptr : Option Page) : State :=
  { s with entries := Function.update s.entries r (some ptr) }

variable (L : Layout)

/-- The next step of thread `t` in a call; the events are the pages put into the queue. -/
def next (s : State) (t : Nat) : Option (State × List Page) :=
  match s.threads t with
  | .idle | .pick => none
  | .insert p =>
    match s.entries (range (s.content p)) with
    | none => some ((s.setPtr (range (s.content p)) (some p)).goto t (.charge p), [])
    | some _ => some (s.goto t (.load p), [])
  | .load p => some (s.goto t (.swap p (s.entries (range (s.content p))).join), [])
  | .swap p ptr =>
    if s.entries (range (s.content p)) = some ptr then
      match ptr with
      | none => some ((s.setPtr (range (s.content p)) (some p)).goto t (.charge p), [])
      | some old => some ((s.setPtr (range (s.content p)) (some p)).goto t (.push old false), [])
    else some (s.goto t (.free p), [])
  | .free p => some ({ s with live := Function.update s.live p false }.goto t .idle, [])
  | .charge p =>
    let v := s.freeSize
    let s := { s with freeSize := v - (s.content p).consumedCacheSize L }
    some (s.goto t (if v < 0 then .pick else .idle), [])
  | .unload r evicting =>
    match (s.entries r).join with
    | none => some (s.goto t (.after evicting), [])
    | some ptr => some (s.goto t (.clear r ptr evicting), [])
  | .clear r ptr evicting =>
    if s.entries r = some (some ptr) then some ((s.setPtr r none).goto t (.credit ptr evicting), [])
    else some (s.goto t (.after evicting), [])
  | .credit ptr evicting =>
    some ({ s with freeSize := s.freeSize + (s.content ptr).consumedCacheSize L }.goto t (.push ptr evicting), [])
  | .push p evicting => some ({ s with gc := s.gc ++ [p] }.goto t (.size evicting), [p])
  | .size evicting =>
    some (s.goto t (if safelyFreeEpoch < s.gc.length then .pop evicting else .after evicting), [])
  | .pop evicting =>
    match s.gc with
    | [] => some (s.goto t (.size evicting), [])
    | p :: gc => some ({ s with gc }.goto t (.delete p evicting), [])
  | .delete p evicting => some ({ s with live := Function.update s.live p false }.goto t (.size evicting), [])
  | .again => some (s.goto t (if s.freeSize < 0 then .pick else .idle), [])

def step (s : State) : Action → Option (State × List Page)
  | .add t page newPage =>
    if s.threads t = .idle ∧ s.live newPage = false then
      some ({ s with content := Function.update s.content newPage page,
                     live := Function.update s.live newPage true }.goto t (.insert newPage), [])
    else none
  | .invalidate t r =>
    if s.threads t = .idle ∧ (s.entries r).isSome then some (s.goto t (.unload r false), []) else none
  | .pick t r =>
    if s.threads t = .pick ∧ (s.entries r).isSome then some (s.goto t (.unload r true), []) else none
  | .next t => next L s t

/-- The cache as its constructor leaves it, of a capacity in bytes, over a memory. -/
def machine (capacity : Nat) (memory : Page → InternalNode) : Machine State Action Page :=
  ⟨⟨fun _ => none, [], capacity, memory, fun _ => false, fun _ => .idle⟩, step L⟩

/-- A place where a page can be. -/
inductive Place
  | entry (r : Range)
  | thread (t : Nat)
  | gc (i : Nat)
  deriving DecidableEq, Repr

/-- The page at a place. -/
def State.held (s : State) : Place → Option Page
  | .entry r => (s.entries r).join
  | .thread t => (s.threads t).page
  | .gc i => s.gc[i]?

/-- What holds between the steps of the first `clients` threads. -/
structure Inv (clients : Nat) (s : State) : Prop where
  /-- what is allocated is at one place -/
  pages : ExactlyHeld s.held (s.live · = true)
  fits : ∀ {r p}, s.entries r = some (some p) → range (s.content p) = r
  /-- one page is popped for each thread that has found the queue too long -/
  popping : 0 < census clients Phase.isPop s.threads →
    safelyFreeEpoch + 1 + census clients Phase.isPop s.threads ≤ s.gc.length + clients
  deleting : s.gc.length ≤ safelyFreeEpoch + census clients Phase.isDeleting s.threads

variable {L} {s s' : State} {es : List Page} {a : Action} {t clients : Nat} {p : Page} {r : Range}

/-! ## The steps -/

/-- **What a step does** to the pages: thread `t` goes from a phase `old` to a phase `ph`. -/
inductive Effect (s : State) (t : Nat) : State → List Page → Prop
  /-- the pages stay where they are -/
  | skip {f : Int} {old ph : Phase} : s.threads t = old → ph.page = old.page → ph.retired = old.retired →
      (ph.isPop = true → safelyFreeEpoch < s.gc.length) →
      (old.isDeleting = true → ph.isDeleting = true ∨ s.gc.length ≤ safelyFreeEpoch) →
      Effect s t ({ s with freeSize := f }.goto t ph) []
  | malloc {p : Page} {nd : InternalNode} : s.threads t = .idle → s.live p = false →
      Effect s t ({ s with content := Function.update s.content p nd, live := Function.update s.live p true }.goto t
        (.insert p)) []
  /-- the thread and an entry exchange their pages -/
  | exchange {r : Range} {old ph : Phase} : s.threads t = old → (∀ p, old.page = some p → range (s.content p) = r) →
      ph.page = (s.entries r).join → ph.retired = (s.entries r).join → old.retired = none →
      old.isDeleting = false → ph.isPop = false → Effect s t ((s.setPtr r old.page).goto t ph) []
  | push {p : Page} {evicting : Bool} : s.threads t = .push p evicting →
      Effect s t ({ s with gc := s.gc ++ [p] }.goto t (.size evicting)) [p]
  | pop {p : Page} {gc : List Page} {evicting : Bool} : s.threads t = .pop evicting → s.gc = p :: gc →
      Effect s t ({ s with gc }.goto t (.delete p evicting)) []
  | free {p : Page} {old ph : Phase} : s.threads t = old → old.page = some p → old.retired = none → ph.page = none →
      ph.isPop = false → ph.isDeleting = old.isDeleting →
      Effect s t ({ s with live := Function.update s.live p false }.goto t ph) []

/-- A step that leaves the pages where they are, of a thread that is not at the queue. -/
theorem Effect.stay {f : Int} {old ph : Phase} (hph : s.threads t = old) (hpage : ph.page = old.page)
    (hretired : ph.retired = old.retired) (hpop : ph.isPop = false) (hold : old.isDeleting = false) :
    Effect s t ({ s with freeSize := f }.goto t ph) [] :=
  .skip hph hpage hretired (fun h => by rw [hpop] at h; cases h) (fun h => by rw [hold] at h; cases h)

/-- The phases without a page that a thread goes to after `if`. -/
theorem Phase.ite_page (c : Prop) [Decidable c] {a b : Phase} (ha : a.page = none ∧ a.retired = none)
    (hb : b.page = none ∧ b.retired = none) :
    (if c then a else b).page = none ∧ (if c then a else b).retired = none := by
  split
  · exact ha
  · exact hb

theorem Phase.after_page (b : Bool) : (after b).page = none ∧ (after b).retired = none :=
  Phase.ite_page _ ⟨rfl, rfl⟩ ⟨rfl, rfl⟩

theorem Phase.after_isPop (b : Bool) : (after b).isPop = false := by cases b <;> rfl

theorem next_effect (h : next L s t = some (s', es)) : Effect s t s' es := by
  cases hph : s.threads t with
  | idle | pick => simp [next, hph] at h
  | insert p =>
    simp only [next, hph] at h
    split at h
    · rename_i hnone
      cases h
      exact .exchange hph (by rintro q ⟨⟩; rfl) (by rw [hnone]; rfl) (by rw [hnone]; rfl) rfl rfl rfl
    · cases h
      exact .stay hph rfl rfl rfl rfl
  | load p =>
    simp only [next, hph] at h
    cases h
    exact .stay hph rfl rfl rfl rfl
  | swap p ptr =>
    simp only [next, hph] at h
    split at h
    · rename_i heq
      cases ptr with
      | none =>
        cases h
        exact .exchange hph (by rintro q ⟨⟩; rfl) (by rw [heq]; rfl) (by rw [heq]; rfl) rfl rfl rfl
      | some old =>
        cases h
        exact .exchange hph (by rintro q ⟨⟩; rfl) (by rw [heq]; rfl) (by rw [heq]; rfl) rfl rfl rfl
    · cases h
      exact .stay hph rfl rfl rfl rfl
  | free p =>
    simp only [next, hph] at h
    cases h
    exact .free hph rfl rfl rfl rfl rfl
  | charge p =>
    simp only [next, hph] at h
    cases h
    obtain ⟨hpage, hretired⟩ := Phase.ite_page (s.freeSize < 0) (a := .pick) (b := .idle) ⟨rfl, rfl⟩ ⟨rfl, rfl⟩
    exact .stay hph hpage hretired (by split <;> rfl) rfl
  | unload r evicting =>
    simp only [next, hph] at h
    split at h
    · cases h
      exact .stay hph (Phase.after_page _).1 (Phase.after_page _).2 (Phase.after_isPop _) rfl
    · cases h
      exact .stay hph rfl rfl rfl rfl
  | clear r ptr evicting =>
    simp only [next, hph] at h
    split at h
    · rename_i heq
      cases h
      exact .exchange hph (by rintro q ⟨⟩) (by rw [heq]; rfl) (by rw [heq]; rfl) rfl rfl rfl
    · cases h
      exact .stay hph (Phase.after_page _).1 (Phase.after_page _).2 (Phase.after_isPop _) rfl
  | credit ptr evicting =>
    simp only [next, hph] at h
    cases h
    exact .stay hph rfl rfl rfl rfl
  | push p evicting =>
    simp only [next, hph] at h
    cases h
    exact .push hph
  | size evicting =>
    simp only [next, hph] at h
    cases h
    split
    · rename_i hlong
      exact .skip hph rfl rfl (fun _ => hlong) fun _ => .inl rfl
    · rename_i hshort
      exact .skip hph (Phase.after_page _).1 (Phase.after_page _).2 (fun h => by rw [Phase.after_isPop] at h; cases h)
        fun _ => .inr (not_lt.1 hshort)
  | pop evicting =>
    simp only [next, hph] at h
    split at h
    · cases h
      exact .skip hph rfl rfl (fun h => by cases h) fun _ => .inl rfl
    · rename_i hgc
      cases h
      exact .pop hph hgc
  | delete p evicting =>
    simp only [next, hph] at h
    cases h
    exact .free hph rfl rfl rfl rfl rfl
  | again =>
    simp only [next, hph] at h
    cases h
    obtain ⟨hpage, hretired⟩ := Phase.ite_page (s.freeSize < 0) (a := .pick) (b := .idle) ⟨rfl, rfl⟩ ⟨rfl, rfl⟩
    exact .stay hph hpage hretired (by split <;> rfl) rfl

theorem step_effect (h : step L s a = some (s', es)) : Effect s a.thread s' es := by
  cases a with
  | add t nd p =>
    simp only [step] at h
    split at h
    · rename_i hc
      cases h
      exact .malloc hc.1 hc.2
    · cases h
  | invalidate t r =>
    simp only [step] at h
    split at h
    · rename_i hc
      cases h
      exact .stay hc.1 rfl rfl rfl rfl
    · cases h
  | pick t r =>
    simp only [step] at h
    split at h
    · rename_i hc
      cases h
      exact .stay hc.1 rfl rfl rfl rfl
    · cases h
  | next t => exact next_effect h

/-! ## The places of the pages -/

section Held

variable {old ph : Phase}

/-- A change of the phase of one thread. -/
theorem held_goto (s : State) (t : Nat) (ph : Phase) :
    (s.goto t ph).held = Function.update s.held (.thread t) ph.page := by
  funext pl
  cases pl with
  | entry r => rfl
  | thread u =>
    rcases eq_or_ne u t with rfl | hu
    · simp [State.held, State.goto]
    · simp [State.held, State.goto, hu]
  | gc i => rfl

theorem held_skip {f : Int} (hph : s.threads t = old) (hpage : ph.page = old.page) :
    ({ s with freeSize := f }.goto t ph).held = s.held := by
  subst hph
  rw [held_goto, hpage]
  exact Function.update_eq_self _ _

theorem held_exchange (hph : s.threads t = old) (hpage : ph.page = (s.entries r).join) :
    ((s.setPtr r old.page).goto t ph).held = s.held ∘ Equiv.swap (.entry r) (.thread t) := by
  subst hph
  rw [held_goto]
  funext pl
  rcases eq_or_ne pl (.thread t) with rfl | ht
  · rw [Function.update_self, Function.comp_apply, Equiv.swap_apply_right, hpage]
    rfl
  rw [Function.update_of_ne ht, Function.comp_apply]
  rcases eq_or_ne pl (.entry r) with rfl | hr
  · rw [Equiv.swap_apply_left]
    simp [State.held, State.setPtr]
  rw [Equiv.swap_apply_of_ne_of_ne hr ht]
  cases pl with
  | entry r' =>
    have hne : r' ≠ r := fun he => hr (he ▸ rfl)
    simp [State.held, State.setPtr, hne]
  | thread u => rfl
  | gc i => rfl

theorem held_push {evicting : Bool} (hph : s.threads t = .push p evicting) :
    ({ s with gc := s.gc ++ [p] }.goto t (.size evicting)).held =
      s.held ∘ Equiv.swap (.thread t) (.gc s.gc.length) := by
  rw [held_goto]
  funext pl
  rcases eq_or_ne pl (.thread t) with rfl | ht
  · rw [Function.update_self, Function.comp_apply, Equiv.swap_apply_left]
    simp [State.held, Phase.page]
  rw [Function.update_of_ne ht, Function.comp_apply]
  rcases eq_or_ne pl (.gc s.gc.length) with rfl | hg
  · rw [Equiv.swap_apply_right]
    simp [State.held, hph, Phase.page]
  rw [Equiv.swap_apply_of_ne_of_ne ht hg]
  cases pl with
  | entry r => rfl
  | thread u => rfl
  | gc i =>
    have hne : i ≠ s.gc.length := fun he => hg (he ▸ rfl)
    simp only [State.held, List.getElem?_append]
    split
    · rfl
    · rw [List.getElem?_eq_none (by simp; omega), List.getElem?_eq_none (by omega)]

end Held

/-- The place from which the oldest page of the queue and the others come. -/
def popped (t : Nat) : Place → Place
  | .entry r => .entry r
  | .thread u => if u = t then .gc 0 else .thread u
  | .gc i => .gc (i + 1)

theorem popped_injective : Function.Injective (popped t) := by
  intro a b hab
  cases a <;> cases b <;> grind [popped]

theorem held_pop {gc : List Page} {evicting : Bool} (hgc : s.gc = p :: gc) :
    ({ s with gc }.goto t (.delete p evicting)).held = s.held ∘ popped t := by
  rw [held_goto]
  funext pl
  cases pl with
  | entry r => rfl
  | thread u =>
    rcases eq_or_ne u t with rfl | hu
    · simp [popped, State.held, hgc, Phase.page]
    · simp [popped, State.held, hu]
  | gc i => simp [popped, State.held, hgc]

/-- Only the place of the thread is not asked for a page. -/
theorem exists_popped {pl : Place} (h : pl ≠ .thread t) : ∃ pl', popped t pl' = pl := by
  cases pl with
  | entry r => exact ⟨.entry r, rfl⟩
  | thread u =>
    have hu : u ≠ t := fun he => h (he ▸ rfl)
    exact ⟨.thread u, if_neg hu⟩
  | gc i =>
    cases i with
    | zero => exact ⟨.thread t, if_pos rfl⟩
    | succ i => exact ⟨.gc i, rfl⟩

theorem Effect.pages (he : Effect s t s' es) (h : ExactlyHeld s.held (s.live · = true)) :
    ExactlyHeld s'.held (s'.live · = true) := by
  cases he with
  | skip hph hpage =>
    rw [held_skip hph hpage]
    exact h
  | @malloc p nd hph hlive =>
    rw [held_goto]
    have hnone : s.held (.thread t) = none := by rw [State.held, hph]; rfl
    refine (h.acquire hnone (by rw [hlive]; decide)).of_iff fun q => ?_
    rcases eq_or_ne q p with rfl | hq
    · simp [State.goto]
    · simp [State.goto, hq]
  | exchange hph _ hpage =>
    rw [held_exchange hph hpage]
    exact h.exchange _ _
  | push hph =>
    rw [held_push hph]
    exact h.exchange _ _
  | @pop p gc evicting hph hgc =>
    rw [held_pop hgc]
    refine h.transfer (popped t) (fun k q hk => hk) (fun j k q _ _ he => popped_injective he) fun pl q hq => ?_
    have hpl : pl ≠ .thread t := by
      rintro rfl
      rw [State.held, hph] at hq
      cases hq
    obtain ⟨k, rfl⟩ := exists_popped hpl
    exact ⟨k, hq⟩
  | @free p old ph hph hpage _ hnone =>
    rw [held_goto, hnone]
    have hold : s.held (.thread t) = some p := by rw [State.held, hph, hpage]
    refine (h.release hold).of_iff fun q => ?_
    rcases eq_or_ne q p with rfl | hq
    · simp [State.goto]
    · simp [State.goto, hq]

/-! ## The invariant -/

/-- The content of a page stays while it is allocated. -/
theorem Effect.content (he : Effect s t s' es) (hp : s.live p = true) : s'.content p = s.content p := by
  cases he with
  | @malloc q nd _ hlive =>
    have hne : p ≠ q := by
      rintro rfl
      rw [hlive] at hp
      cases hp
    exact Function.update_of_ne hne _ _
  | _ => rfl

theorem Effect.fits (he : Effect s t s' es) (h : Inv clients s) (hp : s'.entries r = some (some p)) :
    range (s'.content p) = r := by
  have hkeep : s.entries r = some (some p) → range (s'.content p) = r := by
    intro hr
    rw [he.content (h.pages.isLive (i := .entry r) (by rw [State.held, hr]; rfl))]
    exact h.fits hr
  cases he with
  | @exchange r' old ph hph hfit _ _ _ _ _ =>
    rcases eq_or_ne r r' with rfl | hr
    · refine hfit p ?_
      simpa [State.setPtr, State.goto] using hp
    · exact hkeep (by simpa [State.setPtr, State.goto, hr] using hp)
  | _ => exact hkeep hp

/-- What a step does to the length of the queue. -/
theorem Effect.queue (he : Effect s t s' es) :
    ∃ ph, s'.threads = Function.update s.threads t ph ∧ (ph.isPop = true → safelyFreeEpoch < s'.gc.length) ∧
      (s.gc.length ≤ s'.gc.length ∨
        (s.gc.length = s'.gc.length + 1 ∧ (s.threads t).isPop = true ∧ ph.isPop = false)) ∧
      (s'.gc.length + (s.threads t).isDeleting.toNat ≤ s.gc.length + ph.isDeleting.toNat ∨
        s'.gc.length ≤ safelyFreeEpoch) := by
  cases he with
  | @skip f old ph hph _ _ hlong hshort =>
    refine ⟨ph, rfl, hlong, .inl le_rfl, ?_⟩
    rw [hph]
    cases hd : old.isDeleting with
    | true =>
      rcases hshort hd with hd' | hs
      · exact .inl (by rw [hd']; exact le_rfl)
      · exact .inr hs
    | false => exact .inl (Nat.le_add_right _ _)
  | malloc hph => exact ⟨_, rfl, (fun h => by cases h), .inl le_rfl, .inl (by rw [hph]; exact le_rfl)⟩
  | @exchange r old ph hph _ _ _ _ hd hpop =>
    exact ⟨ph, rfl, (fun h => by rw [hpop] at h; cases h), .inl le_rfl,
      .inl (by rw [hph, hd]; exact Nat.le_add_right _ _)⟩
  | push hph =>
    refine ⟨_, rfl, (fun h => by cases h), .inl ?_, .inl ?_⟩
    · simp [State.goto]
    · rw [hph]
      simp [State.goto, Phase.isDeleting]
  | @pop p gc evicting hph hgc =>
    refine ⟨_, rfl, (fun h => by cases h), .inr ⟨?_, by rw [hph]; rfl, rfl⟩, .inl ?_⟩
    · simp [State.goto, hgc]
    · rw [hph, hgc]
      simp [State.goto, Phase.isDeleting]
  | @free p old ph hph _ _ _ hpop hd =>
    exact ⟨ph, rfl, (fun h => by rw [hpop] at h; cases h), .inl le_rfl,
      .inl (by rw [hph, hd]; exact le_rfl)⟩

theorem Effect.inv (he : Effect s t s' es) (ht : t < clients) (h : Inv clients s) : Inv clients s' := by
  obtain ⟨ph, hthreads, hlong, hlength, hshort⟩ := he.queue
  have hpop : census clients Phase.isPop s'.threads + (s.threads t).isPop.toNat =
      census clients Phase.isPop s.threads + ph.isPop.toNat := hthreads ▸ census_update ht
  have hdel : census clients Phase.isDeleting s'.threads + (s.threads t).isDeleting.toNat =
      census clients Phase.isDeleting s.threads + ph.isDeleting.toNat := hthreads ▸ census_update ht
  have hle : census clients Phase.isPop s'.threads ≤ clients := census_le
  have hpopping := h.popping
  have hdeleting := h.deleting
  refine ⟨he.pages h.pages, he.fits h, fun hpos => ?_, by omega⟩
  cases hp : ph.isPop with
  | true =>
    have := hlong hp
    omega
  | false =>
    rw [hp, Bool.toNat_false] at hpop
    rcases hlength with hlength | ⟨hlength, hold, -⟩
    · omega
    · rw [hold, Bool.toNat_true] at hpop
      omega

theorem init_inv {capacity : Nat} {memory : Page → InternalNode} : Inv clients (machine L capacity memory).init where
  pages := by
    have hnone : ∀ pl, (machine L capacity memory).init.held pl = none := fun pl => by cases pl <;> rfl
    refine ⟨fun {i a} hi => ?_, fun {a} ha => (by cases ha), fun {i j a} hi => ?_⟩
    · rw [hnone] at hi
      cases hi
    · rw [hnone] at hi
      cases hi
  fits h := by cases h
  popping hpos := by
    rw [census_eq_zero fun _ _ => rfl] at hpos
    cases hpos
  deleting := Nat.zero_le _

theorem run_inv {capacity : Nat} {memory : Page → InternalNode} {h : List Page}
    (hrun : (machine L capacity memory).Run (fun _ a => a.thread < clients) s h) : Inv clients s :=
  hrun.invariant (I := fun s _ => Inv clients s) init_inv
    fun _ hinv ht hs => (step_effect hs).inv ht hinv

/-- **The pages of the cache**: in every run, a page is allocated exactly if it is at one place: at an entry, in the
hand of a thread or in the queue. The page at an entry has a node for its range, and while all threads are idle, the
queue has at most `safely_free_epoch` pages. -/
theorem cache_pages {capacity : Nat} {memory : Page → InternalNode} {h : List Page}
    (hrun : (machine L capacity memory).Run (fun _ a => a.thread < clients) s h) :
    (∀ p, s.live p = true ↔ ∃! pl, s.held pl = some p) ∧
      (∀ r p, s.entries r = some (some p) → range (s.content p) = r) ∧
      ((∀ t, s.threads t = .idle) → s.gc.length ≤ safelyFreeEpoch) := by
  have hinv := run_inv hrun
  refine ⟨fun p => hinv.pages.existsUnique_iff p, fun r p => hinv.fits, fun hidle => ?_⟩
  have hdeleting := hinv.deleting
  rwa [census_eq_zero fun t _ => by rw [hidle]; rfl] at hdeleting

/-- Thread 0 adds a node, thread 1 replaces it with another copy. -/
def replaced : List Action :=
  let nd := InternalNode.empty .small
  [.add 0 nd 0, .next 0, .next 0, .add 1 nd 1, .next 1, .next 1, .next 1, .next 1]

/-- The page of thread 1 is at the entry, that of thread 0 in the queue. -/
theorem cache_pages_replaced : ∃ s h,
    (machine .small 0 fun _ => .empty .small).Run (fun _ a => a.thread < 2) s h ∧
      s.entries (range (.empty .small)) = some (some 1) ∧ s.gc = [0] ∧
      (∀ p, s.live p = true ↔ ∃! pl, s.held pl = some p) ∧
      (∀ r p, s.entries r = some (some p) → range (s.content p) = r) ∧
      ((∀ t, s.threads t = .idle) → s.gc.length ≤ safelyFreeEpoch) := by
  have hsome : (((machine .small 0 fun _ => .empty .small).exec (fun _ a => decide (a.thread < 2))
      (machine .small 0 fun _ => .empty .small).init [] replaced).map fun y =>
        (y.1.entries (range (.empty .small)), y.1.gc)) = some (some (some 1), [0]) := by decide +kernel
  obtain ⟨⟨s, h⟩, hexec, heq⟩ := Option.map_eq_some_iff.1 hsome
  obtain ⟨he, hgc⟩ := Prod.mk.inj heq
  have hrun : (machine .small 0 fun _ => .empty .small).Run (fun _ a => a.thread < 2) s h :=
    .of_exec (I := fun _ => True) (fun _ ha => of_decide_eq_true ha) (fun _ _ _ => trivial) trivial .init hexec
  exact ⟨s, h, hrun, he, hgc, cache_pages hrun⟩

/-! ## Readers -/

/-- A page that was at an entry, after which `k` pages were put into the queue. -/
inductive Kept (s : State) (p : Page) (k : Nat) : Prop
  | entry {r : Range} : s.entries r = some (some p) → Kept s p k
  | retired {t : Nat} : (s.threads t).retired = some p → Kept s p k
  /-- at most `k` pages are in the queue from it on -/
  | gc {i : Nat} : s.gc[i]? = some p → s.gc.length ≤ i + k → Kept s p k

theorem Phase.page_of_retired {ph : Phase} (h : ph.retired = some p) : ph.page = some p := by
  cases ph <;> simp_all [retired, page]

theorem Kept.held {k : Nat} (h : Kept s p k) : ∃ pl, s.held pl = some p := by
  cases h with
  | entry hr => exact ⟨.entry _, by rw [State.held, hr]; rfl⟩
  | retired ht => exact ⟨.thread _, Phase.page_of_retired ht⟩
  | gc hi _ => exact ⟨.gc _, hi⟩

theorem Effect.kept {k : Nat} (he : Effect s t s' es) (ht : t < clients) (h : Inv clients s) (hp : Kept s p k)
    (hk : es.length + k + clients ≤ safelyFreeEpoch + 1) : Kept s' p (es.length + k) := by
  cases hp with
  | @entry r hr =>
    cases he with
    | @exchange r' old ph hph _ _ hretired _ _ _ =>
      rcases eq_or_ne r r' with rfl | hne
      · refine .retired (t := t) ?_
        simp [State.goto, hretired, hr]
      · exact .entry (r := r) (by simpa [State.setPtr, State.goto, hne] using hr)
    | _ => exact .entry hr
  | @retired u hu =>
    rcases eq_or_ne u t with rfl | hne
    · cases he with
      | skip hph _ hretired =>
        rw [hph, ← hretired] at hu
        exact .retired (t := u) (by simpa [State.goto] using hu)
      | malloc hph => rw [hph] at hu; cases hu
      | exchange hph _ _ _ hnone => rw [hph, hnone] at hu; cases hu
      | push hph =>
        rw [hph] at hu
        cases hu
        refine .gc (i := s.gc.length) (by simp [State.goto]) ?_
        simp [State.goto]
      | pop hph => rw [hph] at hu; cases hu
      | free hph _ hnone => rw [hph, hnone] at hu; cases hu
    · obtain ⟨ph, hthreads, -⟩ := he.queue
      exact .retired (t := u) (by rwa [hthreads, Function.update_of_ne hne])
  | @gc i hi hlen =>
    have hlt : i < s.gc.length := (List.getElem?_eq_some_iff.1 hi).1
    cases he with
    | push hph =>
      refine .gc (i := i) ?_ ?_
      · rwa [State.goto, List.getElem?_append_left hlt]
      · simp [State.goto]
        omega
    | @pop q gc evicting hph hgc =>
      cases i with
      | zero =>
        -- as many pages have come after it as the queue may hold
        have hpos : 0 < census clients Phase.isPop s.threads := census_pos ht (by rw [hph]; rfl)
        have hpopping := h.popping hpos
        simp only [List.length_nil] at hk
        omega
      | succ i =>
        rw [hgc] at hi hlen
        refine .gc (i := i) hi ?_
        simp [State.goto] at hlen ⊢
        omega
    | _ => exact .gc hi (by rw [List.length_nil, Nat.zero_add]; exact hlen)

/-- **Readers of the cache**: whoever has found a page at an entry can read it, and finds the node that was there, until
`safely_free_epoch + 2` pages less the number of threads are put into the queue. -/
theorem cached_page_readable {capacity : Nat} {memory : Page → InternalNode} {h h' : List Page}
    (hrun : (machine L capacity memory).Run (fun _ a => a.thread < clients) s h) (hp : s.entries r = some (some p))
    (hsteps : (machine L capacity memory).Steps (fun _ a => a.thread < clients) s h s' h')
    (hfew : h'.length + clients ≤ h.length + safelyFreeEpoch + 1) : s'.live p = true ∧ s'.content p = s.content p := by
  have hkept : Inv clients s' ∧ h.length ≤ h'.length ∧ Kept s' p (h'.length - h.length) ∧
      s'.content p = s.content p := by
    induction hsteps with
    | refl => exact ⟨run_inv hrun, le_rfl, .entry hp, rfl⟩
    | @step s₁ s₂ h₁ es a _ ht hs ih =>
      rw [List.length_append] at hfew
      obtain ⟨hinv, hle, hkept, hcontent⟩ := ih (by omega)
      have he := step_effect hs
      obtain ⟨pl, hpl⟩ := hkept.held
      refine ⟨he.inv ht hinv, by rw [List.length_append]; omega, ?_,
        (he.content (hinv.pages.isLive hpl)).trans hcontent⟩
      rw [List.length_append, Nat.add_sub_assoc hle]
      exact he.kept ht hinv hkept (by omega)
  obtain ⟨hinv, -, hkept, hcontent⟩ := hkept
  obtain ⟨pl, hpl⟩ := hkept.held
  exact ⟨hinv.pages.isLive hpl, hcontent⟩

/-- Thread 1 invalidates the entry of a page, that thread 0 has found there. -/
theorem cached_page_readable_invalidated : ∃ s h s' h',
    (machine .small 0 fun _ => .empty .small).Run (fun _ a => a.thread < 2) s h ∧
      (machine .small 0 fun _ => .empty .small).Steps (fun _ a => a.thread < 2) s h s' h' ∧
      s.entries (range (.empty .small)) = some (some 0) ∧ s'.entries (range (.empty .small)) = some none ∧ s'.gc = [0] ∧
      s'.live 0 = true ∧ s'.content 0 = s.content 0 := by
  let M := machine .small 0 fun _ => .empty .small
  let g (_ : State) (a : Action) : Bool := decide (a.thread < 2)
  let r := range (.empty .small)
  have hsome : ((M.exec g M.init [] [.add 0 (.empty .small) 0, .next 0, .next 0]).bind fun x =>
      (M.exec g x.1 x.2 [.invalidate 1 r, .next 1, .next 1, .next 1, .next 1]).map fun y =>
        (x.1.entries r, y.1.entries r, y.1.gc, x.2.length, y.2.length)) =
      some (some (some 0), some none, [0], 0, 1) := by decide +kernel
  obtain ⟨⟨s, h⟩, hexec, heq⟩ := Option.bind_eq_some_iff.1 hsome
  obtain ⟨⟨s', h'⟩, hexec', heq⟩ := Option.map_eq_some_iff.1 heq
  simp only [Prod.mk.injEq] at heq
  obtain ⟨he, he', hgc, hh, hh'⟩ := heq
  have hrun : M.Run (fun _ a => a.thread < 2) s h :=
    .of_exec (I := fun _ => True) (fun _ ha => of_decide_eq_true ha) (fun _ _ _ => trivial) trivial .init hexec
  have hsteps : M.Steps (fun _ a => a.thread < 2) s h s' h' := .of_exec (fun _ _ ha => of_decide_eq_true ha) hexec'
  exact ⟨s, h, s', h', hrun, hsteps, he, he', hgc, cached_page_readable hrun he hsteps (by rw [hh, hh']; decide)⟩

end CachePages
end Chime

import Chime.Allocator
import Chime.MessageRing
import Mathlib.Data.Finset.Card
import Mathlib.Data.Finset.Range
import Mathlib.Data.List.Nodup
import Mathlib.Data.List.Perm.Basic

/-!
# Calls to a directory (`DSM::rpc_call_dir`, `DSM::rpc_wait`, `Directory::dirThread`)

The threads of all nodes send their requests for chunks to the receive pool of the directory, which takes them one by
one and sends each answer to the receive pool of the thread that asked. Messages travel in any order. With at most
`messageNR - subNR + 1` threads no message is dropped, and what the threads see is a run of `Call`, where a thread asks,
is allotted a chunk and gets that chunk (`rpc_refines`); a thread that waits can always be led to its answer
(`rpc_completes`).
-/

namespace Chime
namespace Rpc

open Message
open scoped List

inductive Event
  /-- `rpc_call_dir` -/
  | called (p : Nat)
  /-- `alloc_chunck` for thread `p` -/
  | allotted (p : Nat) (addr : DsmAddress)
  /-- `rpc_wait` -/
  | returned (p : Nat) (addr : Option DsmAddress)
  /-- a message found no receive request -/
  | dropped
  deriving DecidableEq, Repr

/-! ## What the threads see -/

/-- Where the call of a thread stands. -/
inductive Phase
  | idle
  | waiting
  | answered (addr : DsmAddress)
  deriving DecidableEq, Repr

/-- The answers that a thread has not got. -/
def Phase.pending : Phase → List DsmAddress
  | idle => []
  | waiting => []
  | answered addr => [addr]

/-- The calls, without the messages. -/
structure Call where
  phase : Nat → Phase
  chunckAlloc : GlobalAllocator

namespace Call

inductive Action
  | call (p : Nat)
  | serve (p : Nat)
  | resume (p : Nat)
  deriving DecidableEq, Repr

def step (clientNR : Nat) (t : Call) : Action → Option (Call × List Event)
  | .call p =>
    if p < clientNR ∧ t.phase p = .idle then
      some ({ t with phase := Function.update t.phase p .waiting }, [.called p])
    else none
  | .serve p =>
    match t.phase p, t.chunckAlloc.allocChunck with
    | .waiting, some (G, addr) => some (⟨Function.update t.phase p (.answered addr), G⟩, [.allotted p addr])
    | _, _ => none
  | .resume p =>
    match t.phase p with
    | .answered addr => some ({ t with phase := Function.update t.phase p .idle }, [.returned p (some addr)])
    | _ => none

def machine (clientNR : Nat) (G : GlobalAllocator) : Machine Call Action Event := ⟨⟨fun _ => .idle, G⟩, step clientNR⟩

end Call

/-! ## The messages -/

structure State where
  /-- the threads in `rpc_wait` -/
  waiting : Nat → Bool
  /-- the requests on their way, by their threads -/
  requests : List Nat
  dir : Receiver Nat
  /-- the place of the message that `process_message` works on -/
  serving : Option Nat
  chunckAlloc : GlobalAllocator
  /-- the answers on their way, with their threads -/
  answers : List (Nat × DsmAddress)
  apps : Nat → Receiver DsmAddress

inductive Action
  | rpcCallDir (p : Nat)
  /-- a request arrives -/
  | request (i : Nat)
  /-- `getMessage` of the directory -/
  | dirThread
  | processMessage
  /-- an answer arrives -/
  | answer (i : Nat)
  | rpcWait (p : Nat)
  deriving DecidableEq, Repr

/-- What the threads can notice of an arrival. -/
def lost {M : Type} : List (Receiver.Event M) → List Event
  | .dropped _ :: _ => [.dropped]
  | _ => []

variable (dirSub appSub clientNR : Nat)

def step (s : State) : Action → Option (State × List Event)
  | .rpcCallDir p =>
    if p < clientNR ∧ s.waiting p = false then
      some ({ s with waiting := Function.update s.waiting p true, requests := s.requests ++ [p] }, [.called p])
    else none
  | .request i =>
    match s.requests[i]? with
    | none => none
    | some p =>
      match s.dir.step dirSub (.arrive p) with
      | some (dir, es) => some ({ s with requests := s.requests.eraseIdx i, dir }, lost es)
      | none => none
  | .dirThread =>
    match s.serving, s.dir.step dirSub .getMessage with
    | none, some (dir, [.handed i _]) => some ({ s with dir, serving := some i }, [])
    | _, _ => none
  | .processMessage =>
    match s.serving with
    | none => none
    | some i =>
      -- the message is read from its place, and may have been there for a while
      match s.dir.messagePool i, s.chunckAlloc.allocChunck with
      | some p, some (chunckAlloc, addr) =>
        some ({ s with serving := none, chunckAlloc, answers := s.answers ++ [(p, addr)] }, [.allotted p addr])
      | _, _ => none
  | .answer i =>
    match s.answers[i]? with
    | none => none
    | some (p, addr) =>
      match (s.apps p).step appSub (.arrive addr) with
      | some (app, es) =>
        some ({ s with answers := s.answers.eraseIdx i, apps := Function.update s.apps p app }, lost es)
      | none => none
  | .rpcWait p =>
    match s.waiting p, (s.apps p).step appSub .getMessage with
    | true, some (app, [.handed _ addr]) =>
      let apps := Function.update s.apps p app
      some ({ s with waiting := Function.update s.waiting p false, apps }, [.returned p addr])
    | _, _ => none

def machine (G : GlobalAllocator) : Machine State Action Event :=
  ⟨⟨fun _ => false, [], .initRecv dirSub, none, G, [], fun _ => .initRecv appSub⟩, step dirSub appSub clientNR⟩

/-! ## The calls behind the messages -/

/-- The list names each thread that waits for the directory once, and no other. -/
structure Asked (phase : Nat → Phase) (asked : List Nat) : Prop where
  nodup : asked.Nodup
  mem : ∀ p, p ∈ asked ↔ phase p = .waiting

/-- The threads whose requests are on their way, in the receive pool of the directory, or being processed. -/
def State.asked (s : State) (served : Option (Nat × Nat)) (unread : List Nat) : List Nat :=
  s.requests ++ (unread ++ (served.map Prod.snd).toList)

/-- The answers to a thread that are on their way, or in its receive pool. -/
def State.answered (s : State) (p : Nat) (unread : List DsmAddress) : List DsmAddress :=
  (s.answers.filter (·.1 = p)).map Prod.snd ++ unread

/-- The calls that the messages stand for. -/
structure Refines (s : State) (t : Call) : Prop where
  chunckAlloc : t.chunckAlloc = s.chunckAlloc
  waiting : ∀ p, s.waiting p = true ↔ t.phase p ≠ .idle
  lt : ∀ p, t.phase p ≠ .idle → p < clientNR
  directory : ∃ served unread, Receiver.Holds dirSub s.dir served unread ∧ s.serving = served.map Prod.fst ∧
    Asked t.phase (s.asked served unread)
  threads : ∀ p, ∃ last unread, Receiver.Holds appSub (s.apps p) last unread ∧
    (s.answered p unread).Perm (t.phase p).pending

variable {dirSub appSub clientNR} {s s' : State} {t : Call} {G : GlobalAllocator} {h es : List Event} {p q : Nat}
  {phase : Nat → Phase} {asked asked' : List Nat} {addr : DsmAddress}

theorem Asked.perm (ha : Asked phase asked) (hp : asked.Perm asked') : Asked phase asked' :=
  ⟨hp.nodup_iff.1 ha.nodup, fun p => hp.mem_iff.symm.trans (ha.mem p)⟩

/-- There are no more requests than threads. -/
theorem Asked.length_le (ha : Asked phase asked) (hlt : ∀ p, phase p ≠ .idle → p < clientNR) :
    asked.length ≤ clientNR := by
  have hsub : asked ⊆ List.range clientNR := fun p hp =>
    List.mem_range.2 (hlt p (by rw [(ha.mem p).1 hp]; exact Phase.noConfusion))
  simpa using (ha.nodup.subperm hsub).length_le

theorem Asked.cons (ha : Asked phase asked) (hidle : phase p = .idle) :
    Asked (Function.update phase p .waiting) (p :: asked) := by
  refine ⟨List.nodup_cons.2 ⟨fun hp => ?_, ha.nodup⟩, fun q => ?_⟩
  · rw [ha.mem, hidle] at hp
    cases hp
  · rw [List.mem_cons, ha.mem]
    rcases eq_or_ne q p with rfl | hne
    · simp
    · simp [hne]

theorem Asked.tail (ha : Asked phase (p :: asked)) (addr : DsmAddress) :
    Asked (Function.update phase p (.answered addr)) asked := by
  obtain ⟨hnot, hnodup⟩ := List.nodup_cons.1 ha.nodup
  refine ⟨hnodup, fun q => ?_⟩
  rcases eq_or_ne q p with rfl | hne
  · simp [hnot]
  · rw [Function.update_of_ne hne, ← ha.mem, List.mem_cons, or_iff_right hne]

/-- Calls whose phases are not those that count requests. -/
theorem Asked.update (ha : Asked phase asked) (hp : phase p ≠ .waiting) {ph : Phase} (hph : ph ≠ .waiting) :
    Asked (Function.update phase p ph) asked := by
  refine ⟨ha.nodup, fun q => ?_⟩
  rw [ha.mem]
  rcases eq_or_ne q p with rfl | hne
  · simp [hp, hph]
  · rw [Function.update_of_ne hne]

/-! ### The steps -/

theorem refines_init : Refines dirSub appSub clientNR (machine dirSub appSub clientNR G).init
    (Call.machine clientNR G).init where
  chunckAlloc := rfl
  waiting := fun _ => by simp [machine, Call.machine]
  lt := fun _ hne => absurd rfl hne
  directory := ⟨none, [], Receiver.holds_init, rfl, List.nodup_nil, fun _ => by
    simp [Call.machine, State.asked, machine]⟩
  threads := fun _ => ⟨none, [], Receiver.holds_init, .refl _⟩

/-- An entry taken out of a list. -/
theorem perm_eraseIdx {α : Type} {l : List α} {i : Nat} {x : α} (hget : l[i]? = some x) :
    l.Perm (x :: l.eraseIdx i) := by
  obtain ⟨hlt, rfl⟩ := List.getElem?_eq_some_iff.1 hget
  exact (List.getElem_cons_eraseIdx_perm hlt).symm

theorem Refines.rpcCallDir (hR : Refines dirSub appSub clientNR s t) (hp : p < clientNR) (hw : s.waiting p = false) :
    t.phase p = .idle ∧
      Refines dirSub appSub clientNR
        { s with waiting := Function.update s.waiting p true, requests := s.requests ++ [p] }
        { t with phase := Function.update t.phase p .waiting } := by
  have hidle : t.phase p = .idle := by
    by_contra hne
    rw [(hR.waiting p).2 hne] at hw
    cases hw
  obtain ⟨served, unread, hdir, hserving, hasked⟩ := hR.directory
  refine ⟨hidle, hR.chunckAlloc, fun q => ?_, fun q hq => ?_, ⟨served, unread, hdir, hserving, ?_⟩, fun q => ?_⟩
  · rcases eq_or_ne q p with rfl | hne
    · simp
    · simpa [hne] using hR.waiting q
  · rcases eq_or_ne q p with rfl | hne
    · exact hp
    · exact hR.lt q (by simpa [hne] using hq)
  · refine (hasked.cons hidle).perm ?_
    simp only [State.asked, List.append_assoc]
    exact List.perm_middle.symm
  · obtain ⟨last, un, happ, hperm⟩ := hR.threads q
    refine ⟨last, un, happ, ?_⟩
    rcases eq_or_ne q p with rfl | hne
    · simpa [Phase.pending, hidle, State.answered] using hperm
    · simpa [hne, State.answered] using hperm

/-- A request on its way finds room: its thread and those of the requests that wait are different. -/
theorem Refines.request (hdir : 0 < dirSub) (hclients : clientNR ≤ Receiver.messageNR dirSub - dirSub + 1)
    (hR : Refines dirSub appSub clientNR s t) {i : Nat} (hget : s.requests[i]? = some p) :
    ∃ dir, s.dir.step dirSub (.arrive p) = some (dir, [.received p]) ∧
      Refines dirSub appSub clientNR { s with requests := s.requests.eraseIdx i, dir } t := by
  obtain ⟨served, unread, hholds, hserving, hasked⟩ := hR.directory
  have hperm := perm_eraseIdx hget
  have hlen := hasked.length_le hR.lt
  have hroom : unread.length ≤ Receiver.messageNR dirSub - dirSub := by
    rw [State.asked, List.length_append, hperm.length_eq, List.length_cons, List.length_append] at hlen
    omega
  obtain ⟨dir, hstep, hholds'⟩ := hholds.arrive hdir hroom p
  refine ⟨dir, hstep, hR.chunckAlloc, hR.waiting, hR.lt, ⟨served, unread ++ [p], hholds', hserving, ?_⟩, hR.threads⟩
  refine hasked.perm ?_
  calc s.requests ++ (unread ++ (served.map Prod.snd).toList)
    _ ~ p :: s.requests.eraseIdx i ++ (unread ++ (served.map Prod.snd).toList) := hperm.append_right _
    _ ~ s.requests.eraseIdx i ++ (p :: (unread ++ (served.map Prod.snd).toList)) := List.perm_middle.symm
    _ ~ s.requests.eraseIdx i ++ (unread ++ (p :: (served.map Prod.snd).toList)) :=
      List.Perm.append_left _ List.perm_middle.symm
    _ = s.requests.eraseIdx i ++ (unread ++ [p] ++ (served.map Prod.snd).toList) := by
      rw [List.append_assoc, List.singleton_append]

theorem Refines.dirThread (hdir : 0 < dirSub) (hR : Refines dirSub appSub clientNR s t) (hnone : s.serving = none)
    {dir : Receiver Nat} {i : Nat} {c : Option Nat}
    (hstep : s.dir.step dirSub .getMessage = some (dir, [.handed i c])) :
    Refines dirSub appSub clientNR { s with dir, serving := some i } t := by
  obtain ⟨served, unread, hholds, hserving, hasked⟩ := hR.directory
  obtain rfl : served = none := by
    rw [hnone] at hserving
    exact Option.map_eq_none_iff.1 hserving.symm
  cases unread with
  | nil =>
    rw [hholds.getMessage_nil] at hstep
    cases hstep
  | cons p unread =>
    obtain ⟨dir', j, hstep', hholds'⟩ := hholds.getMessage hdir
    rw [hstep'] at hstep
    cases hstep
    refine ⟨hR.chunckAlloc, hR.waiting, hR.lt, ⟨some (i, p), unread, hholds', rfl, ?_⟩, hR.threads⟩
    refine hasked.perm (List.Perm.append_left _ ?_)
    simpa using (List.perm_append_singleton p unread).symm

/-- A request that is processed leaves room in the pool. -/
theorem Asked.unread_lt {served : Nat × Nat} {unread : List Nat}
    (hasked : Asked phase (s.asked (some served) unread)) (hdir : 0 < dirSub)
    (hclients : clientNR ≤ Receiver.messageNR dirSub - dirSub + 1) (hlt : ∀ p, phase p ≠ .idle → p < clientNR) :
    unread.length < Receiver.messageNR dirSub := by
  have hsub := Receiver.sub_le_messageNR dirSub
  have hlen := hasked.length_le hlt
  rw [State.asked, List.length_append, List.length_append, Option.map_some, Option.toList_some,
    List.length_singleton] at hlen
  omega

/-- `process_message` answers a thread that waits: its message is still in its place. -/
theorem Refines.processMessage (hdir : 0 < dirSub) (hclients : clientNR ≤ Receiver.messageNR dirSub - dirSub + 1)
    (hR : Refines dirSub appSub clientNR s t) {i : Nat} (hserv : s.serving = some i)
    (hget : s.dir.messagePool i = some p) (addr : DsmAddress) (G : GlobalAllocator) :
    t.phase p = .waiting ∧
      Refines dirSub appSub clientNR { s with serving := none, chunckAlloc := G, answers := s.answers ++ [(p, addr)] }
        ⟨Function.update t.phase p (.answered addr), G⟩ := by
  obtain ⟨served, unread, hholds, hserving, hasked⟩ := hR.directory
  obtain ⟨⟨j, q⟩, rfl, hj⟩ := Option.map_eq_some_iff.1 (hserving.symm.trans hserv)
  obtain rfl : j = i := hj
  have hlt := hasked.unread_lt hdir hclients hR.lt
  obtain rfl : q = p := Option.some.inj ((hholds.content hlt).symm.trans hget)
  have hperm : s.asked (some (j, q)) unread ~ q :: s.asked none unread := by
    simp only [State.asked, Option.map_some, Option.toList_some, Option.map_none, Option.toList_none, List.append_nil,
      ← List.append_assoc]
    exact List.perm_append_singleton q _
  have hwaiting : t.phase q = .waiting := (hasked.mem q).1 (hperm.mem_iff.2 List.mem_cons_self)
  refine ⟨hwaiting, rfl, fun r => ?_, fun r hr => ?_, ⟨none, unread, hholds.forget, rfl, (hasked.perm hperm).tail addr⟩,
    fun r => ?_⟩
  · rcases eq_or_ne r q with rfl | hne
    · simpa [hwaiting] using hR.waiting r
    · simpa [hne] using hR.waiting r
  · rcases eq_or_ne r q with rfl | hne
    · exact hR.lt r (by rw [hwaiting]; exact Phase.noConfusion)
    · exact hR.lt r (by simpa [hne] using hr)
  · obtain ⟨last, un, happ, hpending⟩ := hR.threads r
    refine ⟨last, un, happ, ?_⟩
    rcases eq_or_ne r q with rfl | hne
    · rw [hwaiting, Phase.pending, List.perm_nil, State.answered, List.append_eq_nil_iff] at hpending
      simp [State.answered, Phase.pending, List.filter_append, hpending.1, hpending.2]
    · simpa [State.answered, List.filter_append, hne, hne.symm] using hpending

theorem Refines.answer (happ : 0 < appSub) (hR : Refines dirSub appSub clientNR s t) {i : Nat}
    (hget : s.answers[i]? = some (p, addr)) :
    ∃ app, (s.apps p).step appSub (.arrive addr) = some (app, [.received addr]) ∧
      Refines dirSub appSub clientNR
        { s with answers := s.answers.eraseIdx i, apps := Function.update s.apps p app } t := by
  have hperm := perm_eraseIdx hget
  -- the answers to a thread that are on their way, without this one
  let rest (q : Nat) := ((s.answers.eraseIdx i).filter (·.1 = q)).map Prod.snd
  have hfilter (q : Nat) : (s.answers.filter (·.1 = q)).map Prod.snd ~ (if p = q then [addr] else []) ++ rest q := by
    refine ((hperm.filter _).map _).trans (.of_eq ?_)
    split <;> simp [rest, *]
  obtain ⟨last, unread, hholds, hpending⟩ := hR.threads p
  rw [State.answered] at hpending
  have hone := ((hfilter p).append_right unread).symm.trans hpending
  rw [if_pos rfl] at hone
  have hroom : unread.length ≤ Receiver.messageNR appSub - appSub := by
    have hlen := hone.length_eq
    have : (t.phase p).pending.length ≤ 1 := by cases t.phase p <;> simp [Phase.pending]
    simp only [List.length_append, List.length_singleton] at hlen
    omega
  obtain ⟨app, hstep, hholds'⟩ := hholds.arrive happ hroom addr
  refine ⟨app, hstep, hR.chunckAlloc, hR.waiting, hR.lt, hR.directory, fun q => ?_⟩
  rcases eq_or_ne q p with rfl | hne
  · refine ⟨last, unread ++ [addr], by simpa using hholds', .trans ?_ hone⟩
    calc rest q ++ (unread ++ [addr])
      _ ~ [addr] ++ (rest q ++ unread) := by
        rw [← List.append_assoc]
        exact List.perm_append_comm
      _ = [addr] ++ rest q ++ unread := (List.append_assoc ..).symm
  · obtain ⟨last, un, happ, hq⟩ := hR.threads q
    refine ⟨last, un, by simpa [hne] using happ, .trans ?_ hq⟩
    have := (hfilter q).append_right un
    rw [if_neg hne.symm, List.nil_append] at this
    exact this.symm

theorem Refines.rpcWait (happ : 0 < appSub) (hR : Refines dirSub appSub clientNR s t) {app : Receiver DsmAddress}
    {i : Nat} {c : Option DsmAddress} (hstep : (s.apps p).step appSub .getMessage = some (app, [.handed i c])) :
    ∃ addr, c = some addr ∧ t.phase p = .answered addr ∧
      Refines dirSub appSub clientNR
        { s with waiting := Function.update s.waiting p false, apps := Function.update s.apps p app }
        { t with phase := Function.update t.phase p .idle } := by
  obtain ⟨last, unread, hholds, hpending⟩ := hR.threads p
  cases unread with
  | nil =>
    rw [hholds.getMessage_nil] at hstep
    cases hstep
  | cons addr unread =>
    obtain ⟨app', j, hstep', hholds'⟩ := hholds.getMessage happ
    rw [hstep'] at hstep
    cases hstep
    have hmem : addr ∈ (t.phase p).pending :=
      hpending.mem_iff.1 (List.mem_append_right _ List.mem_cons_self)
    have hphase : t.phase p = .answered addr := by
      cases hph : t.phase p with
      | idle => rw [hph] at hmem; cases hmem
      | waiting => rw [hph] at hmem; cases hmem
      | answered addr' =>
        rw [hph] at hmem
        rw [List.mem_singleton.1 hmem]
    rw [hphase, Phase.pending, State.answered] at hpending
    have hnil := List.perm_nil.1 (List.perm_cons addr |>.1 (List.perm_middle.symm.trans hpending))
    refine ⟨addr, rfl, hphase, hR.chunckAlloc, fun q => ?_, fun q hq => ?_, ?_, fun q => ?_⟩
    · rcases eq_or_ne q p with rfl | hne
      · simp
      · simpa [hne] using hR.waiting q
    · rcases eq_or_ne q p with rfl | hne
      · simp at hq
      · exact hR.lt q (by simpa [hne] using hq)
    · obtain ⟨served, un, hdir, hserving, hasked⟩ := hR.directory
      exact ⟨served, un, hdir, hserving, hasked.update (by rw [hphase]; exact Phase.noConfusion) Phase.noConfusion⟩
    · rcases eq_or_ne q p with rfl | hne
      · refine ⟨_, unread, by simpa using hholds', ?_⟩
        simpa [State.answered, Phase.pending] using hnil
      · simpa [State.answered, hne] using hR.threads q

/-- **A step** of the messages is a step of the calls with the same events, or none. -/
theorem Refines.step (hdir : 0 < dirSub) (happ : 0 < appSub)
    (hclients : clientNR ≤ Receiver.messageNR dirSub - dirSub + 1) (hR : Refines dirSub appSub clientNR s t)
    {a : Action} (he : step dirSub appSub clientNR s a = some (s', es)) :
    Refines dirSub appSub clientNR s' t ∧ es = [] ∨
      ∃ b t', Call.step clientNR t b = some (t', es) ∧ Refines dirSub appSub clientNR s' t' := by
  cases a with
  | rpcCallDir p =>
    simp only [Rpc.step] at he
    split at he
    · rename_i hp
      cases he
      obtain ⟨hidle, hR'⟩ := hR.rpcCallDir hp.1 hp.2
      exact .inr ⟨.call p, _, by simp only [Call.step, hp.1, hidle, and_self, if_true], hR'⟩
    · cases he
  | request i =>
    simp only [Rpc.step] at he
    split at he
    · cases he
    · rename_i p hget
      obtain ⟨dir, hstep, hR'⟩ := hR.request hdir hclients hget
      rw [hstep] at he
      cases he
      exact .inl ⟨hR', rfl⟩
  | dirThread =>
    simp only [Rpc.step] at he
    split at he
    · rename_i hnone hstep
      cases he
      exact .inl ⟨hR.dirThread hdir hnone hstep, rfl⟩
    · cases he
  | processMessage =>
    simp only [Rpc.step] at he
    split at he
    · cases he
    rename_i i hserv
    split at he
    · rename_i p G addr hget halloc
      cases he
      obtain ⟨hwaiting, hR'⟩ := hR.processMessage hdir hclients hserv hget addr G
      exact .inr ⟨.serve p, _, by simp only [Call.step, hwaiting, hR.chunckAlloc, halloc], hR'⟩
    · cases he
  | answer i =>
    simp only [Rpc.step] at he
    split at he
    · cases he
    · rename_i p addr hget
      obtain ⟨app, hstep, hR'⟩ := hR.answer happ hget
      rw [hstep] at he
      cases he
      exact .inl ⟨hR', rfl⟩
  | rpcWait p =>
    simp only [Rpc.step] at he
    split at he
    · rename_i hw hstep
      cases he
      obtain ⟨addr, rfl, hphase, hR'⟩ := hR.rpcWait happ hstep
      exact .inr ⟨.resume p, _, by simp only [Call.step, hphase], hR'⟩
    · cases he

theorem refines_of_run (hdir : 0 < dirSub) (happ : 0 < appSub)
    (hclients : clientNR ≤ Receiver.messageNR dirSub - dirSub + 1)
    (hrun : (machine dirSub appSub clientNR G).Run (fun _ _ => True) s h) :
    ∃ t, (Call.machine clientNR G).Run (fun _ _ => True) t h ∧ Refines dirSub appSub clientNR s t := by
  refine hrun.refines refines_init fun {s t a s' es} hR _ he h => ?_
  rcases hR.step hdir happ hclients he with ⟨hR', rfl⟩ | ⟨b, t', hb, hR'⟩
  · exact ⟨t, .refl, hR'⟩
  · exact ⟨t', .step b .refl trivial hb, hR'⟩

/-- The calls drop nothing. -/
theorem Call.not_dropped (hrun : (Call.machine clientNR G).Run (fun _ _ => True) t h) : .dropped ∉ h := by
  refine hrun.invariant (I := fun _ h => .dropped ∉ h) List.not_mem_nil fun {t h a t' es} _ hI _ he => ?_
  rw [List.mem_append, not_or]
  refine ⟨?_, hI⟩
  cases a <;> simp only [Call.machine, Call.step] at he <;> split at he <;> cases he <;> simp

/-- **The messages are invisible**: with at most `messageNR - subNR + 1` threads, in every order of the messages, none
is dropped, and the history is one of calls in which a thread that asks is allotted a chunk and gets that chunk; the
threads in `rpc_wait` are those whose calls have not returned. -/
theorem rpc_refines (hdir : 0 < dirSub) (happ : 0 < appSub)
    (hclients : clientNR ≤ Receiver.messageNR dirSub - dirSub + 1)
    (hrun : (machine dirSub appSub clientNR G).Run (fun _ _ => True) s h) :
    .dropped ∉ h ∧ ∃ t, (Call.machine clientNR G).Run (fun _ _ => True) t h ∧
      ∀ p, s.waiting p = true ↔ t.phase p ≠ .idle := by
  obtain ⟨t, hcalls, hR⟩ := refines_of_run hdir happ hclients hrun
  exact ⟨Call.not_dropped hcalls, t, hcalls, hR.waiting⟩

/-- Two threads ask, and the one that asked last is answered. -/
theorem rpc_refines_two : ∃ s h, (machine 1 1 2 (.init .null (4 * kChunkSize))).Run (fun _ _ => True) s h ∧
    (.returned 1 (some ⟨0, kChunkSize⟩) ∈ h ∧ s.waiting 0 = true) ∧ .dropped ∉ h := by
  have hexec : ((machine 1 1 2 (.init .null (4 * kChunkSize))).exec (fun _ _ => true)
      (machine 1 1 2 (.init .null (4 * kChunkSize))).init []
      [.rpcCallDir 0, .rpcCallDir 1, .request 1, .dirThread, .request 0, .processMessage, .answer 0,
        .rpcWait 1]).isSome := by decide +kernel
  obtain ⟨⟨s, h⟩, he⟩ := Option.isSome_iff_exists.1 hexec
  have hrun : (machine 1 1 2 (.init .null (4 * kChunkSize))).Run (fun _ _ => True) s h :=
    .of_exec (I := fun _ => True) (fun _ _ => trivial) (fun _ _ _ => trivial) trivial .init he
  refine ⟨s, h, hrun, ?_, (rpc_refines Nat.one_pos Nat.one_pos (by decide) hrun).1⟩
  cases he
  exact ⟨by decide, rfl⟩

/-! ## Answers to all calls -/

/-- The places of the bitmap from the tail on are free. -/
def Free (G : GlobalAllocator) : Prop := ∀ i, G.bitmapTail ≤ i → G.bitmap i = false

theorem Free.allocChunck {G' : GlobalAllocator} (hf : Free G) (he : G.allocChunck = some (G', addr)) : Free G' := by
  rw [GlobalAllocator.allocChunck] at he
  split at he
  · cases he
  split at he <;> cases he
  intro i hi
  have hi : G.bitmapTail + 1 ≤ i := hi
  exact (Function.update_of_ne (by omega) ..).trans (hf i (by omega))

/-- The allocator has `n` chunks left. -/
def Left (G : GlobalAllocator) (n : Nat) : Prop := G.bitmapTail + n ≤ G.bitmapLen ∧ Free G

theorem Left.allocChunck {n : Nat} (hl : Left G (n + 1)) :
    ∃ G' addr, G.allocChunck = some (G', addr) ∧ Left G' n := by
  obtain ⟨hle, hfree⟩ := hl
  cases halloc : G.allocChunck with
  | none =>
    have hlt : ¬G.bitmapLen ≤ G.bitmapTail := by omega
    rw [GlobalAllocator.allocChunck, if_neg hlt, if_pos (hfree _ (Nat.le_refl _))] at halloc
    cases halloc
  | some res =>
    obtain ⟨G', addr⟩ := res
    refine ⟨G', addr, rfl, ?_, hfree.allocChunck halloc⟩
    rw [GlobalAllocator.allocChunck] at halloc
    split at halloc
    · cases halloc
    split at halloc <;> cases halloc
    show G.bitmapTail + 1 + n ≤ G.bitmapLen
    omega

theorem Left.mono {m n : Nat} (hl : Left G n) (hle : m ≤ n) : Left G m := ⟨by have := hl.1; omega, hl.2⟩

/-- The requests that the directory has not answered. -/
def State.askedNR (s : State) : Nat := s.requests.length + s.dir.completions + if s.serving.isSome then 1 else 0

/-- The steps to the answer of thread `p`, at most: each request has five steps to go, or fewer. -/
def State.rank (s : State) (p : Nat) : Nat :=
  5 * s.requests.length + 4 * s.dir.completions + (if s.serving.isSome then 3 else 0) + 2 * s.answers.length +
    (s.apps p).completions

theorem Refines.askedNR (hR : Refines dirSub appSub clientNR s t) : s.askedNR ≤ clientNR := by
  obtain ⟨served, unread, hholds, hserving, hasked⟩ := hR.directory
  have hlen := hasked.length_le hR.lt
  have hcount := hholds.completions
  rw [State.askedNR, hserving, hcount]
  rw [State.asked, List.length_append, List.length_append] at hlen
  cases served <;> simp_all
  omega

/-- A step towards the answer of a thread that waits. -/
theorem Refines.progress (hdir : 0 < dirSub) (happ : 0 < appSub)
    (hclients : clientNR ≤ Receiver.messageNR dirSub - dirSub + 1) (hR : Refines dirSub appSub clientNR s t)
    (hleft : Left s.chunckAlloc s.askedNR) (hw : s.waiting p = true) :
    ∃ a s' es, (∀ q, a ≠ .rpcCallDir q) ∧ Rpc.step dirSub appSub clientNR s a = some (s', es) ∧
      (s'.waiting p = false ∨ (s'.rank p < s.rank p ∧ Left s'.chunckAlloc s'.askedNR)) := by
  obtain ⟨served, unread, hholds, hserving, hasked⟩ := hR.directory
  have hcount := hholds.completions
  cases hreq : s.requests with
  | cons q requests =>
    -- a request arrives
    obtain ⟨dir, hstep, -⟩ := hR.request hdir hclients (i := 0) (p := q) (by rw [hreq]; rfl)
    have hnew := Receiver.step_received hstep
    have he : Rpc.step dirSub appSub clientNR s (.request 0) = some ({ s with requests, dir }, []) := by
      simp only [Rpc.step, hreq, List.getElem?_cons_zero, hstep, List.eraseIdx_cons_zero, lost]
    refine ⟨_, _, _, fun _ => Action.noConfusion, he, .inr ⟨?_, hleft.mono ?_⟩⟩
    · simp only [State.rank, hreq, List.length_cons, hnew]
      omega
    · simp only [State.askedNR, hreq, List.length_cons, hnew]
      omega
  | nil =>
    cases hans : s.answers with
    | cons answer answers =>
      -- an answer arrives
      obtain ⟨q, addr⟩ := answer
      obtain ⟨app, hstep, -⟩ := hR.answer happ (i := 0) (p := q) (by rw [hans]; rfl)
      have hnew := Receiver.step_received hstep
      have he : Rpc.step dirSub appSub clientNR s (.answer 0) =
          some ({ s with answers, apps := Function.update s.apps q app }, []) := by
        simp only [Rpc.step, hans, List.getElem?_cons_zero, hstep, List.eraseIdx_cons_zero, lost]
      refine ⟨_, _, _, fun _ => Action.noConfusion, he, .inr ⟨?_, hleft⟩⟩
      have hown : (Function.update s.apps q app p).completions ≤ (s.apps p).completions + 1 := by
        rcases eq_or_ne p q with rfl | hne
        · rw [Function.update_self, hnew]
        · rw [Function.update_of_ne hne]
          exact Nat.le_succ _
      simp only [State.rank, hans, List.length_cons]
      omega
    | nil =>
      cases hserv : s.serving with
      | some i =>
        -- the directory answers
        obtain ⟨⟨j, q⟩, rfl, hj⟩ := Option.map_eq_some_iff.1 (hserving.symm.trans hserv)
        obtain rfl : j = i := hj
        have hget := hholds.content (hasked.unread_lt hdir hclients hR.lt)
        obtain ⟨G, addr, halloc, hleft'⟩ := Left.allocChunck (n := s.dir.completions) (by
          simpa [State.askedNR, hreq, hserv] using hleft)
        have he : Rpc.step dirSub appSub clientNR s .processMessage =
            some ({ s with serving := none, chunckAlloc := G, answers := [(q, addr)] }, [.allotted q addr]) := by
          simp only [Rpc.step, hserv, hget, halloc, hans, List.nil_append]
        refine ⟨_, _, _, fun _ => Action.noConfusion, he, .inr ⟨?_, ?_⟩⟩
        · simp [State.rank, hreq, hserv, hans]
        · simpa [State.askedNR, hreq] using hleft'
      | none =>
        obtain rfl : served = none := Option.map_eq_none_iff.1 (hserving.symm.trans hserv)
        cases unread with
        | cons q unread =>
          -- the directory takes a request
          obtain ⟨dir, i, hstep, -⟩ := hholds.getMessage hdir
          have hnew := Receiver.step_handed hstep
          have he : Rpc.step dirSub appSub clientNR s .dirThread = some ({ s with dir, serving := some i }, []) := by
            simp only [Rpc.step, hserv, hstep]
          refine ⟨_, _, _, fun _ => Action.noConfusion, he, .inr ⟨?_, hleft.mono ?_⟩⟩
          · simp only [State.rank, hserv, Option.isSome_some, Option.isSome_none, if_true]
            omega
          · simp only [State.askedNR, hserv, Option.isSome_some, Option.isSome_none, if_true]
            omega
        | nil =>
          -- the answer is there
          obtain ⟨addr, hphase⟩ : ∃ addr, t.phase p = .answered addr := by
            cases hph : t.phase p with
            | idle => exact absurd hph ((hR.waiting p).1 hw)
            | waiting =>
              have hmem := (hasked.mem p).2 hph
              simp [State.asked, hreq] at hmem
            | answered addr => exact ⟨addr, rfl⟩
          obtain ⟨last, unread, happs, hpending⟩ := hR.threads p
          rw [State.answered, hans, hphase, Phase.pending, List.filter_nil, List.map_nil, List.nil_append,
            List.perm_singleton] at hpending
          subst hpending
          obtain ⟨app, i, hstep, -⟩ := happs.getMessage happ
          refine ⟨.rpcWait p, _, _, fun _ => Action.noConfusion, by simp only [Rpc.step, hw, hstep]; rfl, .inl ?_⟩
          exact Function.update_self ..

/-- In every run the places of the bitmap from the tail on are free. -/
theorem Call.free_of_run {start : DsmAddress} {size : Nat}
    (hrun : (Call.machine clientNR (.init start size)).Run (fun _ _ => True) t h) : Free t.chunckAlloc := by
  refine hrun.invariant (I := fun t _ => Free t.chunckAlloc) (fun i hi => ?_) fun {t h a t' es} _ hI _ he => ?_
  · have hi : 1 ≤ i := hi
    simp only [Call.machine, GlobalAllocator.init, decide_eq_false_iff_not]
    omega
  · cases a <;> simp only [Call.machine, Call.step] at he <;> split at he <;> cases he
    · exact hI
    · rename_i halloc
      exact hI.allocChunck halloc
    · exact hI

/-- **Calls return**: while the directory has chunks for all threads, a thread that waits can be led to its answer by
steps of the messages, in which no further call is made. -/
theorem rpc_completes (hdir : 0 < dirSub) (happ : 0 < appSub)
    (hclients : clientNR ≤ Receiver.messageNR dirSub - dirSub + 1) {start : DsmAddress} {size : Nat}
    (hrun : (machine dirSub appSub clientNR (.init start size)).Run (fun _ _ => True) s h)
    (hleft : s.chunckAlloc.bitmapTail + clientNR ≤ s.chunckAlloc.bitmapLen) (p : Nat) :
    ∃ s' h', (machine dirSub appSub clientNR (.init start size)).Steps (fun _ a => ∀ q, a ≠ .rpcCallDir q) s h s' h' ∧
      s'.waiting p = false := by
  obtain ⟨t, hcalls, hR⟩ := refines_of_run hdir happ hclients hrun
  have hfree := Call.free_of_run hcalls
  rw [hR.chunckAlloc] at hfree
  refine Machine.Steps.of_rank (r := (· < ·)) Nat.lt_wfRel.wf
    (I := fun n s => s.rank p = n ∧ (∃ t, Refines dirSub appSub clientNR s t) ∧ Left s.chunckAlloc s.askedNR)
    (Q := fun s => s.waiting p = false) ?_ _ s ⟨rfl, ⟨t, hR⟩, ?_⟩ h
  · rintro n s ⟨rfl, ⟨t, hR⟩, hl⟩
    cases hw : s.waiting p with
    | false => exact .inl rfl
    | true =>
      obtain ⟨a, s', es, hcall, he, hgoal⟩ := hR.progress hdir happ hclients hl hw
      refine .inr ⟨a, s', es, hcall, he, hgoal.imp_right fun ⟨hrank, hl'⟩ => ⟨_, hrank, rfl, ?_, hl'⟩⟩
      rcases hR.step hdir happ hclients he with ⟨hR', -⟩ | ⟨b, t', -, hR'⟩
      · exact ⟨t, hR'⟩
      · exact ⟨t', hR'⟩
  · exact Left.mono ⟨hleft, hfree⟩ hR.askedNR

/-- Both of two threads have asked. -/
theorem rpc_completes_two : ∃ s h, s.waiting 0 = true ∧
    ∃ s' h', (machine 1 1 2 (.init .null (4 * kChunkSize))).Steps (fun _ a => ∀ q, a ≠ .rpcCallDir q) s h s' h' ∧
      s'.waiting 0 = false := by
  have hexec : ((machine 1 1 2 (.init .null (4 * kChunkSize))).exec (fun _ _ => true)
      (machine 1 1 2 (.init .null (4 * kChunkSize))).init [] [.rpcCallDir 0, .rpcCallDir 1]).isSome := by decide +kernel
  obtain ⟨⟨s, h⟩, he⟩ := Option.isSome_iff_exists.1 hexec
  have hrun : (machine 1 1 2 (.init .null (4 * kChunkSize))).Run (fun _ _ => True) s h :=
    .of_exec (I := fun _ => True) (fun _ _ => trivial) (fun _ _ _ => trivial) trivial .init he
  have hstate : s.waiting 0 = true ∧ s.chunckAlloc = .init .null (4 * kChunkSize) := by
    cases he
    exact ⟨rfl, rfl⟩
  have hleft : s.chunckAlloc.bitmapTail + 2 ≤ s.chunckAlloc.bitmapLen := by
    rw [hstate.2]
    decide
  exact ⟨s, h, hstate.1, rpc_completes Nat.one_pos Nat.one_pos (by decide) hrun hleft 0⟩

end Rpc
end Chime

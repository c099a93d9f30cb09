import Chime.Lib.Cyclic
import Chime.Lib.Machine
import Mathlib.Data.List.Range

/-!
# The message pools of a connection (`AbstractMessageConnection`, `RawMessageConnection`)

The receive pool has `messageNR = kBatchCount * subNR` places, and a receive request for each of them is posted at the
start. `getMessage` goes round the places, and posts the requests of a batch again when it has gone through its last
place. However the arriving messages and the calls come, the calls hand out what was received, in order, a message is
dropped only when more than `messageNR - subNR` others wait, and the message handed out last stays in its place until
`messageNR` more have come (`receive_ring`).

The send pool is filled going round as well, and `sendRawMessage` waits for one completion every `SIGNAL_BATCH + 1`
requests. From 64 places on no place is filled before its request is done: what is transmitted is what was filled, in
order, and a send that waits is waiting for a signaled request that is still posted (`send_ring`).
-/

open Cyclic

namespace Chime
namespace Message

def kBatchCount : Nat := 4

/-- The mask that finds every 32nd request. -/
def signalBatch : Nat := 31

/-- The first entries of a list, read by their numbers. -/
theorem map_range_getElem? {α : Type} (xs : List α) {n : Nat} (hn : n ≤ xs.length) :
    (List.range n).map (fun k => xs[k]?) = (xs.map some).take n := by
  induction n with
  | zero => rfl
  | succ n ih =>
    rw [List.range_succ, List.map_append, ih (by omega), List.take_add_one, List.map_singleton, List.getElem?_map,
      List.getElem?_eq_getElem hn, Option.map_some, Option.toList_some]

/-! ## The receive pool -/

/-- The receive side of a connection. -/
structure Receiver (M : Type) where
  messagePool : Nat → Option M
  /-- the places of the receive requests, the oldest first -/
  posted : List Nat
  /-- the completions that were not polled -/
  completions : Nat
  curMessage : Nat

namespace Receiver

inductive Action (M : Type)
  | arrive (m : M)
  /-- `pollWithCQ` and `getMessage` -/
  | getMessage

inductive Event (M : Type)
  | received (m : M)
  /-- no receive request is posted -/
  | dropped (m : M)
  /-- `getMessage` returns place `i`, with this content -/
  | handed (i : Nat) (content : Option M)

variable {M : Type} (subNR : Nat)

def messageNR : Nat := kBatchCount * subNR

/-- The places of `recvs[k]`. -/
def recvs (k : Nat) : List Nat := (List.range subNR).map (k * subNR + ·)

def initRecv : Receiver M := ⟨fun _ => none, (List.range kBatchCount).flatMap (recvs subNR), 0, 0⟩

/-- `getMessage`: the place, and the state after the call. -/
def getMessage (s : Receiver M) : Nat × Receiver M :=
  let m := s.curMessage
  let curMessage := (s.curMessage + 1) % messageNR subNR
  if curMessage % subNR = 0 then
    -- the unsigned `- 1` of batch 0 wraps around and the addition wraps back
    let batch := (curMessage / subNR + kBatchCount - 1) % kBatchCount
    (m, { s with curMessage, posted := s.posted ++ recvs subNR batch })
  else (m, { s with curMessage })

def step (s : Receiver M) : Action M → Option (Receiver M × List (Event M))
  | .arrive m =>
    match s.posted with
    | [] => some (s, [.dropped m])
    | i :: posted =>
      let messagePool := Function.update s.messagePool i (some m)
      some ({ s with messagePool, posted, completions := s.completions + 1 }, [.received m])
  | .getMessage =>
    if 0 < s.completions then
      let (i, s') := getMessage subNR { s with completions := s.completions - 1 }
      some (s', [.handed i (s.messagePool i)])
    else none

def machine : Machine (Receiver M) (Action M) (Event M) := ⟨initRecv subNR, step subNR⟩

/-- The messages received, the oldest first. -/
def received : List (Event M) → List M
  | [] => []
  | .received m :: h => received h ++ [m]
  | .dropped _ :: h => received h
  | .handed _ _ :: h => received h

/-- What was handed out, the oldest first. -/
def handed : List (Event M) → List (Nat × Option M)
  | [] => []
  | .handed i content :: h => handed h ++ [(i, content)]
  | .received _ :: h => handed h
  | .dropped _ :: h => handed h

/-- The number of receive requests posted when `r` messages have been handed out. -/
def postedNR (r : Nat) : Nat := messageNR subNR + subNR * (r / subNR)

/-- What holds between the steps, after `r` messages have been handed out. -/
structure Inv (r : Nat) (s : Receiver M) (h : List (Event M)) : Prop where
  curMessage : s.curMessage = r % messageNR subNR
  unread : (received h).length = r + s.completions
  room : (received h).length ≤ postedNR subNR r
  /-- the requests left are those after the messages received -/
  posted : s.posted =
    (List.range' (received h).length (postedNR subNR r - (received h).length)).map (· % messageNR subNR)
  /-- the last `messageNR` messages are in the pool -/
  kept : Keeps (messageNR subNR) s.messagePool (received h) ((received h).length - messageNR subNR)
  handed : handed h = (List.range r).map fun k => (k % messageNR subNR, (received h)[k]?)

variable {subNR} {s s' : Receiver M} {h es : List (Event M)} {r : Nat} {m : M}

/-! ### The numbers of the requests -/

theorem sub_le_messageNR (subNR : Nat) : subNR ≤ messageNR subNR := Nat.le_mul_of_pos_left _ (by decide)

theorem dvd_messageNR : subNR ∣ messageNR subNR := Nat.dvd_mul_left _ _

theorem postedNR_le (subNR r : Nat) : postedNR subNR r ≤ messageNR subNR + r :=
  Nat.add_le_add_left (Nat.mul_div_le r subNR) _

/-- A batch is short of what is handed out by less than its length. -/
theorem lt_postedNR (hsub : 0 < subNR) (r : Nat) : messageNR subNR + r < postedNR subNR r + subNR := by
  have := Nat.div_add_mod r subNR
  have := Nat.mod_lt r hsub
  unfold postedNR
  omega

theorem messageNR_mod (hdvd : subNR ∣ r) : r % messageNR subNR = subNR * (r / subNR % kBatchCount) := by
  conv_lhs => rw [← Nat.mul_div_cancel' hdvd]
  rw [messageNR, Nat.mul_comm kBatchCount, Nat.mul_mod_mul_left]

/-- The batch that is posted again after message `r` continues the requests. -/
theorem recvs_eq (hsub : 0 < subNR) (hdvd : subNR ∣ r + 1) :
    recvs subNR (((r + 1) % messageNR subNR / subNR + kBatchCount - 1) % kBatchCount) =
      (List.range' (postedNR subNR r) subNR).map (· % messageNR subNR) := by
  obtain ⟨q, hq⟩ : ∃ q, (r + 1) / subNR = q + 1 := by
    refine ⟨(r + 1) / subNR - 1, ?_⟩
    exact (Nat.sub_add_cancel (Nat.div_pos (Nat.le_of_dvd (Nat.succ_pos r) hdvd) hsub)).symm
  have hr : r + 1 = subNR * (q + 1) := by rw [← hq, Nat.mul_div_cancel' hdvd]
  have hdiv : r / subNR = q := by
    have hlt : subNR * q ≤ r ∧ r < subNR * (q + 1) := by
      rw [Nat.mul_add_one] at hr ⊢
      omega
    rw [Nat.mul_comm, Nat.mul_comm subNR] at hlt
    exact Nat.div_eq_of_lt_le hlt.1 hlt.2
  have hbatch : ((r + 1) % messageNR subNR / subNR + kBatchCount - 1) % kBatchCount = q % kBatchCount := by
    rw [messageNR_mod hdvd, hq, Nat.mul_div_cancel_left _ hsub, kBatchCount]
    omega
  rw [hbatch, recvs, postedNR, hdiv, List.range'_eq_map_range, List.map_map]
  refine List.map_congr_left fun j hj => ?_
  have hj := List.mem_range.1 hj
  have hlt : subNR * (q % kBatchCount) + j < messageNR subNR := by
    have hmod : q % kBatchCount + 1 ≤ kBatchCount := Nat.mod_lt _ (by decide)
    have := Nat.mul_le_mul_left subNR hmod
    rw [Nat.mul_add_one] at this
    rw [messageNR, Nat.mul_comm kBatchCount]
    omega
  have hmul : subNR * q % messageNR subNR = subNR * (q % kBatchCount) := by
    rw [messageNR, Nat.mul_comm kBatchCount, Nat.mul_mod_mul_left]
  calc q % kBatchCount * subNR + j
    _ = (subNR * (q % kBatchCount) + j) % messageNR subNR := by rw [Nat.mod_eq_of_lt hlt, Nat.mul_comm]
    _ = (subNR * q + j) % messageNR subNR := by rw [← hmul, Nat.mod_add_mod]
    _ = (messageNR subNR + subNR * q + j) % messageNR subNR := by rw [Nat.add_assoc, Nat.add_mod_left]

/-- The first `n` batches are the first places. -/
theorem flatMap_recvs (n : Nat) : (List.range n).flatMap (recvs subNR) = List.range (n * subNR) := by
  induction n with
  | zero => rw [Nat.zero_mul, List.range_zero, List.flatMap_nil]
  | succ n ih =>
    rw [List.range_succ, List.flatMap_append, ih, List.flatMap_singleton, recvs, Nat.succ_mul, List.range_add]

theorem postedNR_succ (hdvd : subNR ∣ r + 1) :
    postedNR subNR (r + 1) = postedNR subNR r + subNR := by
  rw [postedNR, postedNR, Nat.succ_div_of_dvd hdvd, Nat.mul_add_one, Nat.add_assoc]

theorem postedNR_succ_of_not_dvd (hdvd : ¬subNR ∣ r + 1) : postedNR subNR (r + 1) = postedNR subNR r := by
  rw [postedNR, postedNR, Nat.succ_div_of_not_dvd hdvd]

/-! ### The steps -/

theorem inv_init : Inv subNR 0 (initRecv subNR : Receiver M) [] where
  curMessage := (Nat.zero_mod _).symm
  unread := rfl
  room := Nat.zero_le _
  posted := by
    simp only [initRecv, flatMap_recvs, received, List.length_nil, postedNR, Nat.zero_div, Nat.mul_zero, Nat.add_zero,
      Nat.sub_zero, ← List.range_eq_range']
    conv_lhs => rw [← List.map_id (List.range (kBatchCount * subNR))]
    exact List.map_congr_left fun k hk => (Nat.mod_eq_of_lt (List.mem_range.1 hk)).symm
  kept := fun k _ hk => absurd hk (Nat.not_lt_zero k)
  handed := rfl

theorem handed_append (hle : r ≤ (received h).length) :
    (List.range r).map (fun k => (k % messageNR subNR, (received h ++ [m])[k]?)) =
      (List.range r).map fun k => (k % messageNR subNR, (received h)[k]?) := by
  refine List.map_congr_left fun k hk => ?_
  rw [List.getElem?_append_left (by have := List.mem_range.1 hk; omega)]

/-- A message that finds a request goes to its place. -/
theorem Inv.arrive (hI : Inv subNR r s h) {i : Nat} {posted : List Nat} (hposted : s.posted = i :: posted) :
    Inv subNR r { s with
      messagePool := Function.update s.messagePool i (some m)
      posted
      completions := s.completions + 1 } (.received m :: h) := by
  have hpos := hI.posted
  rw [hposted] at hpos
  obtain ⟨n, hn⟩ : ∃ n, postedNR subNR r - (received h).length = n + 1 := by
    cases hlen : postedNR subNR r - (received h).length with
    | zero => rw [hlen] at hpos; cases hpos
    | succ n => exact ⟨n, rfl⟩
  rw [hn, List.range'_succ, List.map_cons] at hpos
  obtain ⟨rfl, rfl⟩ := List.cons.inj hpos
  have hlen : (received (.received m :: h)).length = (received h).length + 1 := by
    rw [received, List.length_append, List.length_singleton]
  have hle := hI.unread
  have hmax := postedNR_le subNR r
  refine ⟨hI.curMessage, ?_, ?_, ?_, ?_, ?_⟩
  · rw [hlen, hle]
    rfl
  · omega
  · rw [hlen, show postedNR subNR r - ((received h).length + 1) = n by omega]
  · rw [hlen]
    exact (hI.kept.mono (by omega)).push (by omega) m
  · rw [Receiver.handed, received, handed_append (by omega), hI.handed]

/-- Where no request is posted, nearly all places wait to be handed out. -/
theorem Inv.full (hsub : 0 < subNR) (hI : Inv subNR r s h) (hposted : s.posted = []) :
    messageNR subNR - subNR < s.completions := by
  have hlen := congrArg List.length hI.posted
  rw [hposted, List.length_map, List.length_range', List.length_nil] at hlen
  have := hI.unread
  have := lt_postedNR hsub r
  have := sub_le_messageNR subNR
  omega

/-- The message to be handed out next is in its place. -/
theorem Inv.next (hI : Inv subNR r s h) (hpos : 0 < s.completions) :
    s.messagePool s.curMessage = (received h)[r]? := by
  have := hI.unread
  have := hI.room
  have := postedNR_le subNR r
  rw [hI.curMessage]
  exact hI.kept r (by omega) (by omega)

theorem Inv.getMessage (hsub : 0 < subNR) (hI : Inv subNR r s h) (hpos : 0 < s.completions) :
    Inv subNR (r + 1) (Receiver.getMessage subNR { s with completions := s.completions - 1 }).2
      (.handed s.curMessage (s.messagePool s.curMessage) :: h) := by
  have hunread := hI.unread
  have hroom := hI.room
  have hcur : (s.curMessage + 1) % messageNR subNR = (r + 1) % messageNR subNR := by
    rw [hI.curMessage, Nat.mod_add_mod]
  have hhanded : Receiver.handed (.handed s.curMessage (s.messagePool s.curMessage) :: h) =
      (List.range (r + 1)).map fun k => (k % messageNR subNR, (received h)[k]?) := by
    rw [Receiver.handed, hI.handed, List.range_succ, List.map_append, List.map_singleton, hI.next hpos, hI.curMessage]
  have hiff : (s.curMessage + 1) % messageNR subNR % subNR = 0 ↔ subNR ∣ r + 1 := by
    rw [hcur, Nat.mod_mod_of_dvd _ dvd_messageNR, Nat.dvd_iff_mod_eq_zero]
  rw [Receiver.getMessage]
  split
  · rename_i hmod
    have hdvd := hiff.1 hmod
    have hnew := postedNR_succ hdvd
    refine ⟨hcur, ?_, ?_, ?_, hI.kept, hhanded⟩
    · simp only [received]
      omega
    · simp only [received]
      omega
    · simp only [received]
      rw [hcur, recvs_eq hsub hdvd, hI.posted, ← List.map_append, hnew, Nat.sub_add_comm hroom, ← List.range'_append_1,
        Nat.add_sub_cancel' hroom]
  · rename_i hmod
    have hsame := postedNR_succ_of_not_dvd (mt hiff.2 hmod)
    refine ⟨hcur, ?_, ?_, ?_, hI.kept, hhanded⟩
    · simp only [received]
      omega
    · rw [hsame]
      exact hroom
    · simp only [received]
      rw [hsame, hI.posted]

theorem getMessage_fst (subNR : Nat) (s : Receiver M) : (Receiver.getMessage subNR s).1 = s.curMessage := by
  rw [Receiver.getMessage]
  split <;> rfl

/-- **A step** keeps the invariant, with one more message handed out if it is a call. -/
theorem Inv.step (hsub : 0 < subNR) (hI : Inv subNR r s h) {a : Action M} (he : step subNR s a = some (s', es)) :
    ∃ r', Inv subNR r' s' (es ++ h) := by
  cases a with
  | arrive m =>
    simp only [Receiver.step] at he
    split at he
    · cases he
      exact ⟨r, hI.curMessage, hI.unread, hI.room, hI.posted, hI.kept, hI.handed⟩
    · rename_i i posted hposted
      cases he
      exact ⟨r, hI.arrive hposted⟩
  | getMessage =>
    simp only [Receiver.step] at he
    split at he
    · rename_i hpos
      cases he
      rw [getMessage_fst]
      exact ⟨r + 1, hI.getMessage hsub hpos⟩
    · cases he

theorem inv_of_run (hsub : 0 < subNR) (hrun : (machine subNR).Run (fun _ _ => True) s h) :
    ∃ r, Inv (M := M) subNR r s h :=
  hrun.invariant (I := fun s h => ∃ r, Inv subNR r s h) ⟨0, inv_init⟩ fun _ ⟨_, hI⟩ _ he => hI.step hsub he

/-- **The receive pool**: whatever comes and whenever it is asked for, the calls hand out the messages that were
received, in order and each once; a message is dropped only when more than `messageNR - subNR` wait; and the one handed
out last stays in its place as long as fewer than `messageNR` wait. -/
theorem receive_ring (hsub : 0 < subNR) (hrun : (machine subNR).Run (fun _ _ => True) s h) :
    (handed h).map Prod.snd <+: (received h).map some ∧
    (received h).length = (handed h).length + s.completions ∧
    (∀ m s' es, step subNR s (.arrive m) = some (s', es) → Event.dropped m ∈ es →
      messageNR subNR - subNR < s.completions) ∧
    ∀ i content, (handed h).getLast? = some (i, content) → s.completions < messageNR subNR →
      s.messagePool i = content := by
  obtain ⟨r, hI⟩ := inv_of_run hsub hrun
  have hunread := hI.unread
  refine ⟨?_, ?_, ?_, ?_⟩
  · have hsnd : (handed h).map Prod.snd = ((received h).map some).take r := by
      rw [hI.handed, List.map_map]
      exact map_range_getElem? (received h) (by omega)
    rw [hsnd]
    exact List.take_prefix _ _
  · rw [hI.handed, List.length_map, List.length_range, hunread]
  · intro m s' es he hmem
    simp only [step] at he
    split at he
    · rename_i hposted
      exact hI.full hsub hposted
    · cases he
      cases List.mem_singleton.1 hmem
  · intro i content hlast hlt
    rw [hI.handed] at hlast
    cases r with
    | zero => cases hlast
    | succ r =>
      rw [List.range_succ, List.map_append, List.map_singleton, List.getLast?_concat] at hlast
      cases hlast
      exact hI.kept r (by omega) (by omega)

/-- In a pool of four places, two messages come, and one is handed out. -/
theorem receive_ring_two : ∃ s h, (machine 1).Run (fun _ _ => True) s h ∧ (received h).length = 2 ∧
    (handed h).map Prod.snd <+: ([7, 8] : List Nat).map some := by
  have hexec : ((machine 1).exec (fun _ _ => true) (initRecv 1) []
      [.arrive 7, .arrive (8 : Nat), .getMessage]).isSome := rfl
  obtain ⟨⟨s, h⟩, he⟩ := Option.isSome_iff_exists.1 hexec
  have hrun : (machine 1).Run (fun _ _ => True) s h :=
    .of_exec (I := fun _ => True) (fun _ _ => trivial) (fun _ _ _ => trivial) trivial .init he
  have hring := receive_ring Nat.one_pos hrun
  have hrec : received h = [7, 8] := by
    cases he
    rfl
  rw [hrec] at hring
  exact ⟨s, h, hrun, by rw [hrec]; rfl, hring.1⟩

/-! ### The pool as a queue -/

theorem step_received (he : step subNR s (.arrive m) = some (s', [.received m])) :
    s'.completions = s.completions + 1 := by
  simp only [step] at he
  split at he <;> cases he
  rfl

theorem step_handed {i : Nat} {content : Option M} (he : step subNR s .getMessage = some (s', [.handed i content])) :
    s'.completions + 1 = s.completions := by
  simp only [step] at he
  split at he
  · rename_i hpos
    cases he
    have hsame : (Receiver.getMessage subNR { s with completions := s.completions - 1 }).2.completions =
        s.completions - 1 := by
      rw [Receiver.getMessage]
      split <;> rfl
    omega
  · cases he

/-- The pool holds a queue of messages that wait, and in place `i` the message `m` that was handed out last. -/
def Holds (subNR : Nat) (s : Receiver M) (last : Option (Nat × M)) (unread : List M) : Prop :=
  ∃ r h, Inv subNR r s h ∧ (received h).drop r = unread ∧
    ∀ i m, last = some (i, m) → ∃ k, r = k + 1 ∧ i = k % messageNR subNR ∧ (received h)[k]? = some m

variable {last : Option (Nat × M)} {unread : List M} {i : Nat}

theorem holds_init : Holds subNR (initRecv subNR : Receiver M) none [] :=
  ⟨0, [], inv_init, rfl, fun _ _ h => by cases h⟩

theorem Holds.forget (hs : Holds subNR s last unread) : Holds subNR s none unread := by
  obtain ⟨r, h, hI, hdrop, -⟩ := hs
  exact ⟨r, h, hI, hdrop, fun _ _ h => by cases h⟩

theorem Holds.completions (hs : Holds subNR s last unread) : s.completions = unread.length := by
  obtain ⟨r, h, hI, rfl, -⟩ := hs
  rw [List.length_drop, hI.unread, Nat.add_sub_cancel_left]

theorem Holds.getMessage_nil (hs : Holds subNR s last []) : step subNR s .getMessage = none := by
  have hzero := hs.completions
  rw [List.length_nil] at hzero
  simp only [step, hzero, Nat.lt_irrefl, if_false]

/-- With room for one more, a message goes to the end of the queue. -/
theorem Holds.arrive (hsub : 0 < subNR) (hs : Holds subNR s last unread)
    (hroom : unread.length ≤ messageNR subNR - subNR) (m : M) :
    ∃ s', step subNR s (.arrive m) = some (s', [.received m]) ∧ Holds subNR s' last (unread ++ [m]) := by
  have hcount := hs.completions
  obtain ⟨r, h, hI, hdrop, hlast⟩ := hs
  have hlen := hI.unread
  cases hposted : s.posted with
  | nil =>
    have := hI.full hsub hposted
    omega
  | cons i posted =>
    refine ⟨_, by simp only [step, hposted], r, .received m :: h, hI.arrive hposted, ?_, ?_⟩
    · rw [received, List.drop_append_of_le_length (by omega), hdrop]
    · intro j m' hj
      obtain ⟨k, rfl, hk, hget⟩ := hlast j m' hj
      exact ⟨k, rfl, hk, by rw [received, List.getElem?_append_left (by omega), hget]⟩

/-- A call takes the first message of the queue. -/
theorem Holds.getMessage (hsub : 0 < subNR) (hs : Holds subNR s last (m :: unread)) :
    ∃ s' i, step subNR s .getMessage = some (s', [.handed i (some m)]) ∧ Holds subNR s' (some (i, m)) unread := by
  have hcount := hs.completions
  rw [List.length_cons] at hcount
  obtain ⟨r, h, hI, hdrop, -⟩ := hs
  have hpos : 0 < s.completions := by omega
  have hget : (received h)[r]? = some m := by
    have hhead := congrArg (·[0]?) hdrop
    rw [List.getElem?_drop, Nat.add_zero] at hhead
    exact hhead
  have hnext : s.messagePool s.curMessage = some m := (hI.next hpos).trans hget
  have hfst := getMessage_fst subNR { s with completions := s.completions - 1 }
  refine ⟨(Receiver.getMessage subNR { s with completions := s.completions - 1 }).2, s.curMessage, ?_, r + 1, _,
    hI.getMessage hsub hpos, ?_, ?_⟩
  · simp only [step, if_pos hpos, hfst, hnext]
  · rw [received, ← List.tail_drop, hdrop, List.tail_cons]
  · intro i m' hi
    obtain ⟨rfl, rfl⟩ := Prod.mk.inj (Option.some.inj hi)
    exact ⟨r, rfl, hI.curMessage, hget⟩

/-- The message handed out last can still be read. -/
theorem Holds.content (hs : Holds subNR s (some (i, m)) unread) (hlt : unread.length < messageNR subNR) :
    s.messagePool i = some m := by
  have hcount := hs.completions
  obtain ⟨r, h, hI, -, hlast⟩ := hs
  obtain ⟨k, rfl, rfl, hget⟩ := hlast i m rfl
  have := hI.unread
  rw [hI.kept k (by omega) (by omega), hget]

end Receiver

/-! ## The send pool -/

/-- The send side of a connection. -/
structure Sender (M : Type) where
  sendPool : Nat → Option M
  curSend : Nat
  sendCounter : Nat
  /-- the place that `getSendPool` gave, until it is sent -/
  message : Option Nat
  /-- the places and the flags of the send requests, the oldest first -/
  posted : List (Nat × Bool)
  /-- the completions that were not polled -/
  completions : Nat

namespace Sender

inductive Action (M : Type)
  /-- `getSendPool`, and `m` is written there -/
  | fill (m : M)
  | sendRawMessage
  /-- the oldest request is carried out -/
  | transmit

inductive Event (M : Type)
  | filled (m : M)
  | transmitted (content : Option M)

variable {M : Type} (messageNR : Nat)

def init : Sender M := ⟨fun _ => none, 0, 0, none, [], 0⟩

def signaled (sendCounter : Nat) : Bool := sendCounter &&& signalBatch == 0

def step (s : Sender M) : Action M → Option (Sender M × List (Event M))
  | .fill m =>
    match s.message with
    | some _ => none
    | none =>
      let sendPool := Function.update s.sendPool s.curSend (some m)
      some ({ s with sendPool, curSend := (s.curSend + 1) % messageNR, message := some s.curSend }, [.filled m])
  | .sendRawMessage =>
    match s.message with
    | none => none
    | some i =>
      let posted := s.posted ++ [(i, signaled s.sendCounter)]
      if signaled s.sendCounter ∧ 0 < s.sendCounter then
        -- `pollWithCQ`
        if 0 < s.completions then
          let completions := s.completions - 1
          some ({ s with message := none, posted, sendCounter := s.sendCounter + 1, completions }, [])
        else none
      else some ({ s with message := none, posted, sendCounter := s.sendCounter + 1 }, [])
  | .transmit =>
    match s.posted with
    | [] => none
    | (i, signaled) :: posted =>
      let completions := if signaled then s.completions + 1 else s.completions
      some ({ s with posted, completions }, [.transmitted (s.sendPool i)])

def machine : Machine (Sender M) (Action M) (Event M) := ⟨init, step messageNR⟩

/-- The messages written to the pool, the oldest first. -/
def filled : List (Event M) → List M
  | [] => []
  | .filled m :: h => filled h ++ [m]
  | .transmitted _ :: h => filled h

/-- What the requests transmitted, the oldest first. -/
def transmitted : List (Event M) → List (Option M)
  | [] => []
  | .transmitted content :: h => transmitted h ++ [content]
  | .filled _ :: h => transmitted h

/-- What holds between the steps, after `t` requests have been carried out. -/
structure Inv (t : Nat) (s : Sender M) (h : List (Event M)) : Prop where
  curSend : s.curSend = (filled h).length % messageNR
  /-- a message that is not sent is the last one -/
  message : (s.message = none ∧ (filled h).length = s.sendCounter) ∨
    (s.message = some (s.sendCounter % messageNR) ∧ (filled h).length = s.sendCounter + 1)
  le : t ≤ s.sendCounter
  posted : s.posted = (List.range' t (s.sendCounter - t)).map fun k => (k % messageNR, signaled k)
  /-- the completions of all signaled requests, less those that were polled -/
  completions : s.completions + (s.sendCounter - 1) / 32 = (t + 31) / 32
  /-- the messages whose requests are not carried out are in the pool -/
  kept : Keeps messageNR s.sendPool (filled h) t
  transmitted : transmitted h = (List.range t).map fun k => (filled h)[k]?

variable {messageNR} {s s' : Sender M} {h es : List (Event M)} {t : Nat} {m : M}

/-! ### The steps -/

theorem signaled_iff (n : Nat) : signaled n = true ↔ n % 32 = 0 := by
  rw [signaled, beq_iff_eq, signalBatch]
  exact iff_of_eq (congrArg (· = 0) (Nat.and_two_pow_sub_one_eq_mod n 5))

theorem inv_init : Inv messageNR 0 (init : Sender M) [] where
  curSend := (Nat.zero_mod _).symm
  message := .inl ⟨rfl, rfl⟩
  le := Nat.le_refl _
  posted := rfl
  completions := show 0 + (0 - 1) / 32 = (0 + 31) / 32 by decide
  kept := fun k _ hk => absurd hk (Nat.not_lt_zero k)
  transmitted := rfl

/-- Fewer than 64 requests are not carried out. -/
theorem Inv.window (hI : Inv messageNR t s h) : s.sendCounter < t + 64 := by
  have := hI.completions
  omega

theorem Inv.fill (h64 : 64 ≤ messageNR) (hI : Inv messageNR t s h) (hnone : s.message = none) :
    Inv messageNR t { s with
      sendPool := Function.update s.sendPool s.curSend (some m)
      curSend := (s.curSend + 1) % messageNR
      message := some s.curSend } (.filled m :: h) := by
  have hlen : (filled h).length = s.sendCounter := by
    rcases hI.message with ⟨-, hlen⟩ | ⟨hsome, -⟩
    · exact hlen
    · rw [hnone] at hsome
      cases hsome
  have hnew : (filled (.filled m :: h)).length = s.sendCounter + 1 := by
    rw [filled, List.length_append, List.length_singleton, hlen]
  have hwindow := hI.window
  have hcur : s.curSend = s.sendCounter % messageNR := by rw [hI.curSend, hlen]
  refine ⟨?_, .inr ⟨congrArg some hcur, hnew⟩, hI.le, hI.posted, hI.completions, ?_, ?_⟩
  · rw [hnew, hcur, Nat.mod_add_mod]
  · rw [hI.curSend]
    exact hI.kept.push (by omega) m
  · have hle := hI.le
    rw [Sender.transmitted, hI.transmitted, filled, map_range_getElem? _ (by omega),
      map_range_getElem? _ (by rw [List.length_append]; omega), List.map_append,
      List.take_append_of_le_length (by rw [List.length_map]; omega)]

theorem Inv.send (hI : Inv messageNR t s h) {i n : Nat} (hsome : s.message = some i)
    (hn : n + s.sendCounter / 32 = (t + 31) / 32) :
    Inv messageNR t { s with
      message := none
      posted := s.posted ++ [(i, signaled s.sendCounter)]
      sendCounter := s.sendCounter + 1
      completions := n } h := by
  have hle := hI.le
  obtain ⟨hi, hlen⟩ : i = s.sendCounter % messageNR ∧ (filled h).length = s.sendCounter + 1 := by
    rcases hI.message with ⟨hnone, -⟩ | ⟨hsome', hlen⟩
    · rw [hnone] at hsome
      cases hsome
    · rw [hsome'] at hsome
      exact ⟨(Option.some.inj hsome).symm, hlen⟩
  refine ⟨hI.curSend, .inl ⟨rfl, hlen⟩, Nat.le_succ_of_le hle, ?_, hn, hI.kept, hI.transmitted⟩
  show s.posted ++ _ = _
  rw [hI.posted, Nat.succ_sub hle, List.range'_concat, List.map_append, List.map_singleton, hi, Nat.one_mul,
    Nat.add_sub_cancel' hle]

theorem Inv.transmit (hI : Inv messageNR t s h) {i : Nat} {flag : Bool} {posted : List (Nat × Bool)}
    (hposted : s.posted = (i, flag) :: posted) :
    Inv messageNR (t + 1) { s with
      posted
      completions := if flag then s.completions + 1 else s.completions } (.transmitted (s.sendPool i) :: h) := by
  have hpos := hI.posted
  rw [hposted] at hpos
  obtain ⟨n, hn⟩ : ∃ n, s.sendCounter - t = n + 1 := by
    cases hlen : s.sendCounter - t with
    | zero => rw [hlen] at hpos; cases hpos
    | succ n => exact ⟨n, rfl⟩
  rw [hn, List.range'_succ, List.map_cons] at hpos
  obtain ⟨hhead, rfl⟩ := List.cons.inj hpos
  obtain ⟨rfl, rfl⟩ := Prod.mk.inj hhead
  have hlt : t < (filled h).length := by
    rcases hI.message with ⟨-, hlen⟩ | ⟨-, hlen⟩ <;> omega
  have hcount := hI.completions
  have hle : t + 1 ≤ s.sendCounter := by omega
  refine ⟨hI.curSend, hI.message, hle, ?_, ?_, hI.kept.mono (Nat.le_succ t), ?_⟩
  · rw [show s.sendCounter - (t + 1) = n by omega]
  · cases hflag : signaled t with
    | true =>
      have := (signaled_iff t).1 hflag
      simp only [if_true]
      omega
    | false =>
      have hmod : t % 32 ≠ 0 := fun h0 => absurd ((signaled_iff t).2 h0) (by rw [hflag]; decide)
      simp only [Bool.false_eq_true, if_false]
      omega
  · rw [Sender.transmitted, hI.transmitted, filled, List.range_succ, List.map_append, List.map_singleton,
      hI.kept t (Nat.le_refl t) hlt]

theorem Inv.step (h64 : 64 ≤ messageNR) (hI : Inv messageNR t s h) {a : Action M}
    (he : step messageNR s a = some (s', es)) : ∃ t', Inv messageNR t' s' (es ++ h) := by
  have hcount := hI.completions
  cases a with
  | fill m =>
    simp only [Sender.step] at he
    split at he
    · cases he
    · rename_i hnone
      cases he
      exact ⟨t, hI.fill h64 hnone⟩
  | sendRawMessage =>
    simp only [Sender.step] at he
    split at he
    · cases he
    rename_i i hsome
    split at he
    · rename_i hpoll
      have hmod := (signaled_iff s.sendCounter).1 hpoll.1
      split at he
      · cases he
        exact ⟨t, hI.send hsome (by omega)⟩
      · cases he
    · rename_i hpoll
      have hmod : s.sendCounter = 0 ∨ s.sendCounter % 32 ≠ 0 := by
        by_contra hno
        rw [not_or, not_not] at hno
        exact hpoll ⟨(signaled_iff _).2 hno.2, Nat.pos_of_ne_zero hno.1⟩
      cases he
      exact ⟨t, hI.send hsome (by omega)⟩
  | transmit =>
    simp only [Sender.step] at he
    split at he
    · cases he
    · rename_i i flag posted hposted
      cases he
      exact ⟨t + 1, hI.transmit hposted⟩

theorem inv_of_run (h64 : 64 ≤ messageNR) (hrun : (machine messageNR).Run (fun _ _ => True) s h) :
    ∃ t, Inv (M := M) messageNR t s h :=
  hrun.invariant (I := fun s h => ∃ t, Inv messageNR t s h) ⟨0, inv_init⟩ fun _ ⟨_, hI⟩ _ he => hI.step h64 he

/-- A send that finds no completion waits for a request that is posted. -/
theorem Inv.waits (hI : Inv messageNR t s h) {i : Nat} (hsome : s.message = some i)
    (he : Sender.step messageNR s .sendRawMessage = none) : ∃ j, (j, true) ∈ s.posted := by
  simp only [Sender.step, hsome] at he
  split at he
  swap
  · cases he
  rename_i hpoll
  split at he
  · cases he
  rename_i hzero
  have hmod := (signaled_iff s.sendCounter).1 hpoll.1
  have hcount := hI.completions
  have hmem : s.sendCounter - 32 ∈ List.range' t (s.sendCounter - t) := List.mem_range'_1.2 ⟨by omega, by omega⟩
  refine ⟨(s.sendCounter - 32) % messageNR, ?_⟩
  rw [hI.posted, List.mem_map]
  exact ⟨_, hmem, by rw [(signaled_iff (s.sendCounter - 32)).2 (by omega)]⟩

/-- **The send pool**: with at least 64 places, the requests transmit the messages as they were written, in order and
each once, although the places are used again without waiting for each request; and a send waits only for the completion
of a request that is posted. -/
theorem send_ring (h64 : 64 ≤ messageNR) (hrun : (machine messageNR).Run (fun _ _ => True) s h) :
    transmitted h <+: (filled h).map some ∧
    ∀ i, s.message = some i → step messageNR s .sendRawMessage = none → ∃ j, (j, true) ∈ s.posted := by
  obtain ⟨t, hI⟩ := inv_of_run h64 hrun
  have hle : t ≤ (filled h).length := by
    have := hI.le
    rcases hI.message with ⟨-, hlen⟩ | ⟨-, hlen⟩ <;> omega
  refine ⟨?_, fun i hsome he => hI.waits hsome he⟩
  rw [hI.transmitted, map_range_getElem? _ hle]
  exact List.take_prefix _ _

/-- Two messages are written, and the first is transmitted. -/
theorem send_ring_two : ∃ s h, (machine 64).Run (fun _ _ => True) s h ∧ (transmitted h).length = 1 ∧
    transmitted h <+: ([7, 8] : List Nat).map some := by
  have hexec : ((machine 64).exec (fun _ _ => true) init []
      [.fill 7, .sendRawMessage, .fill (8 : Nat), .transmit, .sendRawMessage]).isSome := rfl
  obtain ⟨⟨s, h⟩, he⟩ := Option.isSome_iff_exists.1 hexec
  have hrun : (machine 64).Run (fun _ _ => True) s h :=
    .of_exec (I := fun _ => True) (fun _ _ => trivial) (fun _ _ _ => trivial) trivial .init he
  have hring := send_ring (Nat.le_refl 64) hrun
  have hfilled : filled h = [7, 8] ∧ (transmitted h).length = 1 := by
    cases he
    exact ⟨rfl, rfl⟩
  rw [hfilled.1] at hring
  exact ⟨s, h, hrun, hfilled.2, hring.1⟩

end Sender

end Message
end Chime

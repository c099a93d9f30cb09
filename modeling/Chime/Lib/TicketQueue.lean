import Mathlib.Data.Finset.Card
import Mathlib.Data.Set.Function
import Mathlib.Order.Interval.Finset.Nat
import Mathlib.Tactic.Linarith

/-!
# Ticket queues whose counters wrap

The clients in a queue hold the tickets from `head` up to `tail`, each exactly one (`Holds`). Only the residues of the
two counters modulo `m` are stored; while at most `m` clients wait, the residue of a ticket is that of `head` exactly
if it is the ticket of the first client (`Holds.eq_head`).
-/

namespace TicketQueue

variable {ι : Type} {Q : Finset ι} {tick : ι → Nat} {head tail m : Nat} {c d : ι}

/-- The clients `Q` hold the tickets from `head` up to `tail`. -/
def Holds (Q : Finset ι) (tick : ι → Nat) (head tail : Nat) : Prop := Set.BijOn tick Q (Set.Ico head tail)

theorem Holds.empty (tick : ι → Nat) (head : Nat) : Holds (∅ : Finset ι) tick head head := by
  simp [Holds]

/-- As many clients as tickets. -/
theorem Holds.card (h : Holds Q tick head tail) : Q.card = tail - head := by
  have himage : Q.image tick = Finset.Ico head tail := by
    rw [← Finset.coe_inj, Finset.coe_image, h.image_eq, Finset.coe_Ico]
  rw [← Nat.card_Ico, ← himage, Finset.card_image_of_injOn h.injOn]

theorem Holds.mem (h : Holds Q tick head tail) (hc : c ∈ Q) : head ≤ tick c ∧ tick c < tail := h.mapsTo hc

/-- A client takes the next ticket. -/
theorem Holds.enter [DecidableEq ι] (h : Holds Q tick head tail) (hle : head ≤ tail) (hc : c ∉ Q) :
    Holds (insert c Q) (Function.update tick c tail) head (tail + 1) := by
  have heq : Set.EqOn tick (Function.update tick c tail) Q := fun d hd =>
    (Function.update_of_ne (ne_of_mem_of_not_mem hd hc) _ _).symm
  have hins := (h.congr heq).insert (a := c) (by rw [Function.update_self]; simp)
  rw [Function.update_self] at hins
  rw [Holds, Finset.coe_insert]
  convert hins using 1
  ext n
  simp only [Set.mem_Ico, Set.mem_insert_iff]
  omega

/-- The first client leaves. -/
theorem Holds.leave [DecidableEq ι] (h : Holds Q tick head tail) (hc : c ∈ Q) (hhead : tick c = head) :
    Holds (Q.erase c) tick (head + 1) tail := by
  refine ⟨fun d hd => ?_, h.injOn.mono (by simp), fun n hn => ?_⟩
  · obtain ⟨hne, hd⟩ := Finset.mem_erase.1 hd
    have hm := h.mem hd
    have : tick d ≠ head := fun e => hne (h.injOn hd hc (e.trans hhead.symm))
    exact ⟨by omega, hm.2⟩
  · have hn := Set.mem_Ico.1 hn
    obtain ⟨d, hd, rfl⟩ := h.surjOn (show n ∈ Set.Ico head tail from ⟨by omega, hn.2⟩)
    exact ⟨d, Finset.mem_coe.2 (Finset.mem_erase.2 ⟨fun e => by rw [e] at hn; omega, hd⟩), rfl⟩

/-- Two clients at the head are one. -/
theorem Holds.unique (h : Holds Q tick head tail) (hc : c ∈ Q) (hd : d ∈ Q) (hch : tick c = head)
    (hdh : tick d = head) :
    c = d := h.injOn hc hd (hch.trans hdh.symm)

/-- While at most `m` clients wait, residues tell the first client's ticket. -/
theorem Holds.eq_head (h : Holds Q tick head tail) (hm : Q.card ≤ m) (hc : c ∈ Q) (he : tick c % m = head % m) :
    tick c = head := by
  have h1 := h.mem hc
  have h2 := h.card
  have hd : tick c - head < m := by omega
  have hsub : (tick c - head) % m = 0 := Nat.sub_mod_eq_zero_of_mod_eq he
  rw [Nat.mod_eq_of_lt hd] at hsub
  omega

end TicketQueue

import Chime.ClusterSum
import Mathlib.Data.Finset.Card
import Mathlib.Data.Finset.Range
import Mathlib.Algebra.Order.BigOperators.Group.Finset

/-!
# How the nodes find each other (`Keeper::serverEnter`, `Keeper::serverConnect`, `DSMKeeper::connectNode`)

A node takes its number from a counter in memcached, and then, as the counter grows, exchanges metadata with the nodes
of the other numbers in their order: it sets what it has for the other one under `setKey`, and waits for what the other
one sets under `getKey`. In every interleaving the numbers are those from 0 on, each taken once, and a node that is done
has from every other one what that one set for it (`bootstrap_connects`). The nodes do not wait for each other in a
circle: from every state that is reached all of them can come to their end (`bootstrap_completes`).

The numbers of nodes are `uint16_t`. Here they are natural numbers, which is the same for fewer than 2^16 nodes.
-/

namespace Chime

/-- `SERVER_NUM_KEY` -/
def serverNumKey : String := "serverNum"

/-- `DSMKeeper::setKey` -/
def setKey (myNodeID remoteID : Nat) : String := toString myNodeID ++ "-" ++ toString remoteID

/-- `DSMKeeper::getKey` -/
def getKey (myNodeID remoteID : Nat) : String := toString remoteID ++ "-" ++ toString myNodeID

/-- The key of `DSMKeeper::initRouteRule`. -/
def routeKey (myNodeID : Nat) : String := "SPre" ++ toString myNodeID

/-! ## The keys -/

theorem digits_of_toString (n : Nat) : (toString n).toList = Nat.toDigits 10 n := Nat.toList_repr

theorem not_mem_digits {c : Char} (hc : c.isDigit = false) (n : Nat) : c ∉ Nat.toDigits 10 n := fun hmem => by
  cases (Nat.isDigit_of_mem_toDigits (by decide) (by decide) hmem).symm.trans hc

theorem setKey_toList (i k : Nat) : (setKey i k).toList = Nat.toDigits 10 i ++ '-' :: Nat.toDigits 10 k := by
  simp only [setKey, String.toList_append, digits_of_toString]
  simp

/-- What stands before the first separator is determined. -/
theorem append_cons_inj {c : Char} {xs ys as bs : List Char} (hx : c ∉ xs) (hy : c ∉ ys)
    (h : xs ++ c :: as = ys ++ c :: bs) : xs = ys ∧ as = bs := by
  induction xs generalizing ys with
  | nil =>
    cases ys with
    | nil => exact ⟨rfl, List.tail_eq_of_cons_eq h⟩
    | cons y ys => exact absurd (List.head_eq_of_cons_eq h ▸ List.mem_cons_self) hy
  | cons x xs ih =>
    cases ys with
    | nil => exact absurd ((List.head_eq_of_cons_eq h).symm ▸ List.mem_cons_self) hx
    | cons y ys =>
      obtain ⟨rfl, htail⟩ := List.cons_eq_cons.1 h
      obtain ⟨rfl, rfl⟩ := ih (fun h => hx (List.mem_cons_of_mem _ h)) (fun h => hy (List.mem_cons_of_mem _ h)) htail
      exact ⟨rfl, rfl⟩

theorem setKey_inj {i k i' k' : Nat} (h : setKey i k = setKey i' k') : i = i' ∧ k = k' := by
  have hl := congrArg String.toList h
  rw [setKey_toList, setKey_toList] at hl
  obtain ⟨hi, hk⟩ := append_cons_inj (not_mem_digits (by decide) i) (not_mem_digits (by decide) i') hl
  exact ⟨ClusterSum.toDigits_inj hi, ClusterSum.toDigits_inj hk⟩

theorem getKey_eq (i k : Nat) : getKey i k = setKey k i := rfl

/-- A key with a letter first is not one of an exchange. -/
theorem setKey_ne {s : String} {c : Char} {cs : List Char} (hs : s.toList = c :: cs) (hc : c.isDigit = false)
    (hne : c ≠ '-') (i k : Nat) : setKey i k ≠ s := by
  rintro rfl
  rw [setKey_toList] at hs
  cases hd : Nat.toDigits 10 i with
  | nil =>
    rw [hd] at hs
    exact hne (List.head_eq_of_cons_eq hs).symm
  | cons x xs =>
    rw [hd] at hs
    obtain rfl : x = c := List.head_eq_of_cons_eq hs
    exact not_mem_digits hc i (hd ▸ List.mem_cons_self)

theorem setKey_ne_serverNum (i k : Nat) : setKey i k ≠ serverNumKey := setKey_ne rfl (by decide) (by decide) i k

theorem routeKey_toList (i : Nat) : (routeKey i).toList = 'S' :: 'P' :: 'r' :: 'e' :: Nat.toDigits 10 i := by
  simp only [routeKey, String.toList_append, digits_of_toString]
  rfl

theorem setKey_ne_route (i k j : Nat) : setKey i k ≠ routeKey j :=
  setKey_ne (routeKey_toList j) (by decide) (by decide) i k

theorem serverNum_ne_route (j : Nat) : serverNumKey ≠ routeKey j := fun h => by
  have hl := congrArg String.toList h
  rw [routeKey_toList] at hl
  cases List.head_eq_of_cons_eq hl

namespace Bootstrap

variable {M : Type}

/-- What is stored in memcached: a counter, an `ExchangeMeta`, an address. -/
inductive Item (M : Type)
  | num (n : Nat)
  | exchange (m : M)
  | address
  deriving DecidableEq

/-- Where a node stands. -/
inductive Pc
  /-- `serverEnter` -/
  | enter
  /-- the head of the loop of `serverConnect` -/
  | connect
  /-- `connectNode(k)` is next, or the end of the inner loop -/
  | loop (k serverNum : Nat)
  /-- `memGet` in `connectNode(k)` -/
  | wait (k serverNum : Nat)
  /-- `connectMySelf` -/
  | self
  /-- `initRouteRule` -/
  | route
  | done
  deriving DecidableEq, Repr

/-- A node; `remoteCon` is what it has of the others. -/
structure Node (M : Type) where
  pc : Pc
  myNodeID : Nat
  curServer : Nat
  remoteCon : Nat → Option M

structure State (M : Type) where
  memcached : String → Option (Item M)
  nodes : Nat → Node M

namespace Node

variable (nd : Node M)

def goto (pc : Pc) : Node M := { nd with pc }

/-- `setDataFromRemote` -/
def setDataFromRemote (remoteID : Nat) (m : M) : Node M :=
  { nd with remoteCon := Function.update nd.remoteCon remoteID (some m) }

@[simp] theorem goto_pc (pc : Pc) : (nd.goto pc).pc = pc := rfl

@[simp] theorem goto_id (pc : Pc) : (nd.goto pc).myNodeID = nd.myNodeID := rfl

@[simp] theorem goto_curServer (pc : Pc) : (nd.goto pc).curServer = nd.curServer := rfl

@[simp] theorem goto_remoteCon (pc : Pc) : (nd.goto pc).remoteCon = nd.remoteCon := rfl

/-- The node has its number. -/
def entered : Prop := nd.pc ≠ .enter

/-- The node has what the nodes of the lower numbers set for it. -/
def heard (maxServer : Nat) : Nat :=
  match nd.pc with
  | .enter => 0
  | .connect => nd.curServer
  | .loop k _ | .wait k _ => k
  | .self | .route | .done => maxServer

/-- The node has set what it has for the nodes of the lower numbers. -/
def told (maxServer : Nat) : Nat :=
  match nd.pc with
  | .wait k _ => k + 1
  | _ => nd.heard maxServer

end Node

variable (maxServer : Nat) (localMeta : Nat → Nat → M)

/-- The step of node `p`; `localMeta p k` is its metadata for the node with number `k` (`setDataToRemote`). A call that
finds no value tries again. -/
def step (s : State M) (p : Nat) : Option (State M × List Unit) :=
  let nd := s.nodes p
  let move (nd : Node M) := some ({ s with nodes := Function.update s.nodes p nd }, [])
  let set (key : String) (item : Item M) (nd : Node M) :=
    some (⟨Function.update s.memcached key (some item), Function.update s.nodes p nd⟩, [])
  if p < maxServer then
    match nd.pc with
    | .enter =>
      match s.memcached serverNumKey with
      | some (.num n) => set serverNumKey (.num (n + 1)) { nd with pc := .connect, myNodeID := n + 1 - 1 }
      | _ => none
    | .connect =>
      if nd.curServer < maxServer then
        match s.memcached serverNumKey with
        | some (.num n) => move (nd.goto (.loop nd.curServer n))
        | _ => none
      else move (nd.goto .self)
    | .loop k serverNum =>
      if k < serverNum then
        if k ≠ nd.myNodeID then set (setKey nd.myNodeID k) (.exchange (localMeta p k)) (nd.goto (.wait k serverNum))
        else move (nd.goto (.loop (k + 1) serverNum))
      else move { nd with pc := .connect, curServer := serverNum }
    | .wait k serverNum =>
      match s.memcached (getKey nd.myNodeID k) with
      | some (.exchange m) => move ((nd.setDataFromRemote k m).goto (.loop (k + 1) serverNum))
      | _ => none
    | .self => move ((nd.setDataFromRemote nd.myNodeID (localMeta p nd.myNodeID)).goto .route)
    | .route => set (routeKey nd.myNodeID) .address (nd.goto .done)
    | .done => none
  else none

/-- The script that starts memcached sets the counter to 0. -/
def init (M : Type) : State M where
  memcached := Function.update (fun _ => none) serverNumKey (some (.num 0))
  nodes _ := ⟨.enter, 0, 0, fun _ => none⟩

def machine : Machine (State M) Nat Unit := ⟨init M, step maxServer localMeta⟩

variable {maxServer localMeta} {s s' : State M} {es : List Unit} {p q : Nat}

/-! ## The steps -/

/-- The state after a step of node `p`. -/
def goOn (s : State M) (memcached : String → Option (Item M)) (p : Nat) (nd : Node M) : State M :=
  ⟨memcached, Function.update s.nodes p nd⟩

/-- **A step** of node `p`. -/
inductive Step (maxServer : Nat) (localMeta : Nat → Nat → M) (s : State M) (p : Nat) : State M → Prop
  | enter {n : Nat} : (s.nodes p).pc = .enter → s.memcached serverNumKey = some (.num n) →
      Step maxServer localMeta s p (goOn s (Function.update s.memcached serverNumKey (some (.num (n + 1)))) p
        { s.nodes p with pc := .connect, myNodeID := n })
  | read {n : Nat} : (s.nodes p).pc = .connect → (s.nodes p).curServer < maxServer →
      s.memcached serverNumKey = some (.num n) →
      Step maxServer localMeta s p (goOn s s.memcached p ((s.nodes p).goto (.loop (s.nodes p).curServer n)))
  | all : (s.nodes p).pc = .connect → maxServer ≤ (s.nodes p).curServer →
      Step maxServer localMeta s p (goOn s s.memcached p ((s.nodes p).goto .self))
  | tell {k n : Nat} : (s.nodes p).pc = .loop k n → k < n → k ≠ (s.nodes p).myNodeID →
      Step maxServer localMeta s p
        (goOn s (Function.update s.memcached (setKey (s.nodes p).myNodeID k) (some (.exchange (localMeta p k)))) p
          ((s.nodes p).goto (.wait k n)))
  | skip {n : Nat} : (s.nodes p).pc = .loop (s.nodes p).myNodeID n → (s.nodes p).myNodeID < n →
      Step maxServer localMeta s p
        (goOn s s.memcached p ((s.nodes p).goto (.loop ((s.nodes p).myNodeID + 1) n)))
  | again {k n : Nat} : (s.nodes p).pc = .loop k n → n ≤ k →
      Step maxServer localMeta s p (goOn s s.memcached p { s.nodes p with pc := .connect, curServer := n })
  | hear {k n : Nat} {m : M} : (s.nodes p).pc = .wait k n →
      s.memcached (setKey k (s.nodes p).myNodeID) = some (.exchange m) →
      Step maxServer localMeta s p
        (goOn s s.memcached p (((s.nodes p).setDataFromRemote k m).goto (.loop (k + 1) n)))
  | self : (s.nodes p).pc = .self →
      Step maxServer localMeta s p (goOn s s.memcached p (((s.nodes p).setDataFromRemote (s.nodes p).myNodeID
        (localMeta p (s.nodes p).myNodeID)).goto .route))
  | route : (s.nodes p).pc = .route →
      Step maxServer localMeta s p (goOn s (Function.update s.memcached (routeKey (s.nodes p).myNodeID) (some .address))
        p ((s.nodes p).goto .done))

theorem step_iff : step maxServer localMeta s p = some (s', es) ↔
    p < maxServer ∧ Step maxServer localMeta s p s' ∧ es = [] := by
  constructor
  · intro h
    simp only [step] at h
    split at h
    swap
    · cases h
    rename_i hp
    refine ⟨hp, ?_⟩
    split at h
    · rename_i hpc
      split at h
      · rename_i hn
        cases h
        exact ⟨.enter hpc hn, rfl⟩
      · cases h
    · rename_i hpc
      split at h
      · rename_i hcur
        split at h
        · rename_i hn
          cases h
          exact ⟨.read hpc hcur hn, rfl⟩
        · cases h
      · rename_i hcur
        cases h
        exact ⟨.all hpc (not_lt.1 hcur), rfl⟩
    · rename_i hpc
      split at h
      · rename_i hk
        split at h
        · rename_i hid
          cases h
          exact ⟨.tell hpc hk hid, rfl⟩
        · rename_i hid
          cases h
          obtain rfl := not_not.1 hid
          exact ⟨.skip hpc hk, rfl⟩
      · rename_i hk
        cases h
        exact ⟨.again hpc (not_lt.1 hk), rfl⟩
    · rename_i hpc
      split at h
      · rename_i hm
        cases h
        exact ⟨.hear hpc hm, rfl⟩
      · cases h
    · rename_i hpc
      cases h
      exact ⟨.self hpc, rfl⟩
    · rename_i hpc
      cases h
      exact ⟨.route hpc, rfl⟩
    · cases h
  · rintro ⟨hp, hs, rfl⟩
    cases hs with
    | enter hpc hn => simp [step, hp, hpc, hn, goOn]
    | read hpc hcur hn => simp [step, hp, hpc, hcur, hn, goOn]
    | all hpc hcur => simp [step, hp, hpc, Nat.not_lt.2 hcur, goOn]
    | tell hpc hk hid => simp [step, hp, hpc, hk, hid, goOn]
    | skip hpc hk => simp [step, hp, hpc, hk, goOn]
    | again hpc hk => simp [step, hp, hpc, Nat.not_lt.2 hk, goOn]
    | hear hpc hm => simp [step, hp, hpc, getKey_eq, hm, goOn]
    | self hpc => simp [step, hp, hpc, goOn]
    | route hpc => simp [step, hp, hpc, goOn]

/-! ## The invariant -/

/-- The nodes that have their number. -/
def State.entered (maxServer : Nat) (s : State M) : Finset Nat :=
  (Finset.range maxServer).filter fun p => (s.nodes p).pc ≠ .enter

/-- What a node knows of the counter `n`. -/
def Node.Bounded (maxServer n : Nat) (nd : Node M) : Prop :=
  match nd.pc with
  | .enter => nd.curServer = 0
  | .connect => nd.curServer ≤ n
  | .loop k serverNum => k ≤ serverNum ∧ serverNum ≤ n
  | .wait k serverNum => k < serverNum ∧ serverNum ≤ n ∧ k ≠ nd.myNodeID
  | .self | .route | .done => n = maxServer

/-- What holds between the steps. -/
structure Inv (maxServer : Nat) (localMeta : Nat → Nat → M) (s : State M) : Prop where
  counter : s.memcached serverNumKey = some (.num (s.entered maxServer).card)
  known : ∀ p, (s.nodes p).entered → p < maxServer
  /-- the numbers below the counter are those of the nodes -/
  number : ∀ p, (s.nodes p).entered → (s.nodes p).myNodeID < (s.entered maxServer).card
  inj : ∀ p q, (s.nodes p).entered → (s.nodes q).entered → (s.nodes p).myNodeID = (s.nodes q).myNodeID → p = q
  surj : ∀ i < (s.entered maxServer).card, ∃ p, (s.nodes p).entered ∧ (s.nodes p).myNodeID = i
  bounded : ∀ p, (s.nodes p).Bounded maxServer (s.entered maxServer).card
  told : ∀ p, (s.nodes p).entered → ∀ k < (s.nodes p).told maxServer, k ≠ (s.nodes p).myNodeID →
    s.memcached (setKey (s.nodes p).myNodeID k) = some (.exchange (localMeta p k))
  /-- nobody else sets what a node is to tell -/
  only : ∀ i k x, s.memcached (setKey i k) = some x →
    ∃ p, (s.nodes p).entered ∧ (s.nodes p).myNodeID = i ∧ x = .exchange (localMeta p k)
  heard : ∀ p, (s.nodes p).entered → ∀ k < (s.nodes p).heard maxServer, k ≠ (s.nodes p).myNodeID →
    ∃ q, (s.nodes q).entered ∧ (s.nodes q).myNodeID = k ∧
      (s.nodes p).remoteCon k = some (localMeta q (s.nodes p).myNodeID)
  self : ∀ p, (s.nodes p).pc = .route ∨ (s.nodes p).pc = .done →
    (s.nodes p).remoteCon (s.nodes p).myNodeID = some (localMeta p (s.nodes p).myNodeID)

theorem card_entered_le (maxServer : Nat) (s : State M) : (s.entered maxServer).card ≤ maxServer :=
  (Finset.card_filter_le _ _).trans_eq (Finset.card_range _)

theorem init_inv : Inv maxServer localMeta (init M) := by
  have hempty : (init M).entered maxServer = ∅ := by
    rw [State.entered, Finset.filter_eq_empty_iff]
    exact fun _ _ h => h rfl
  refine ⟨?_, fun p h => absurd rfl h, fun p h => absurd rfl h, fun p q h => absurd rfl h, ?_, fun p => rfl,
    fun p h => absurd rfl h, ?_, fun p h => absurd rfl h, nofun⟩
  · rw [hempty, Finset.card_empty]
    simp only [init, Function.update_self]
  · rw [hempty]
    nofun
  · intro i k x hx
    simp only [init, Function.update_of_ne (setKey_ne_serverNum i k)] at hx
    cases hx

section GoOn

variable {memcached : String → Option (Item M)} {nd : Node M}

theorem goOn_self : (goOn s memcached p nd).nodes p = nd := Function.update_self ..

theorem goOn_of_ne (h : q ≠ p) : (goOn s memcached p nd).nodes q = s.nodes q := Function.update_of_ne h ..

variable (memcached) in
theorem goOn_entered_iff (hp : (s.nodes p).entered) (hnd : nd.entered) (q : Nat) :
    ((goOn s memcached p nd).nodes q).entered ↔ (s.nodes q).entered := by
  rcases eq_or_ne q p with rfl | hq
  · rw [goOn_self]
    exact iff_of_true hnd hp
  · rw [goOn_of_ne hq]

variable (memcached) in
theorem goOn_id (hid : nd.myNodeID = (s.nodes p).myNodeID) (q : Nat) :
    ((goOn s memcached p nd).nodes q).myNodeID = (s.nodes q).myNodeID := by
  rcases eq_or_ne q p with rfl | hq
  · rw [goOn_self, hid]
  · rw [goOn_of_ne hq]

variable (maxServer memcached) in
theorem goOn_entered (hp : (s.nodes p).entered) (hnd : nd.entered) :
    (goOn s memcached p nd).entered maxServer = s.entered maxServer :=
  Finset.filter_congr fun q _ => goOn_entered_iff memcached hp hnd q

/-- **A step of a node** that has its number and sets at most the key it tells next. -/
theorem Inv.goOn (h : Inv maxServer localMeta s) (hp : (s.nodes p).entered) (hnd : nd.entered)
    (hid : nd.myNodeID = (s.nodes p).myNodeID) (hcounter : memcached serverNumKey = s.memcached serverNumKey)
    (hother : ∀ i k, i ≠ (s.nodes p).myNodeID → memcached (setKey i k) = s.memcached (setKey i k))
    (hown : ∀ k x, memcached (setKey (s.nodes p).myNodeID k) = some x → x = .exchange (localMeta p k))
    (hbounded : nd.Bounded maxServer (s.entered maxServer).card)
    (htold : ∀ k < nd.told maxServer, k ≠ nd.myNodeID →
      memcached (setKey nd.myNodeID k) = some (.exchange (localMeta p k)))
    (hheard : ∀ k < nd.heard maxServer, k ≠ nd.myNodeID → ∃ q, (s.nodes q).entered ∧ (s.nodes q).myNodeID = k ∧
      nd.remoteCon k = some (localMeta q nd.myNodeID))
    (hself : nd.pc = .route ∨ nd.pc = .done → nd.remoteCon nd.myNodeID = some (localMeta p nd.myNodeID)) :
    Inv maxServer localMeta (goOn s memcached p nd) := by
  have hent := goOn_entered_iff memcached hp hnd
  have hids := goOn_id memcached hid
  have hcard := goOn_entered maxServer memcached hp hnd
  constructor
  · rw [hcard]
    exact hcounter.trans h.counter
  · exact fun q hq => h.known q ((hent q).1 hq)
  · intro q hq
    rw [hcard, hids]
    exact h.number q ((hent q).1 hq)
  · intro q r hq hr he
    rw [hids, hids] at he
    exact h.inj q r ((hent q).1 hq) ((hent r).1 hr) he
  · intro i hi
    rw [hcard] at hi
    obtain ⟨q, hq, hi⟩ := h.surj i hi
    exact ⟨q, (hent q).2 hq, (hids q).trans hi⟩
  · intro q
    rw [hcard]
    rcases eq_or_ne q p with rfl | hq
    · rwa [goOn_self]
    · rw [goOn_of_ne hq]
      exact h.bounded q
  · intro q hq k hk hne
    rcases eq_or_ne q p with rfl | hqp
    · rw [goOn_self] at hk hne ⊢
      exact htold k hk hne
    · rw [goOn_of_ne hqp] at hk hne ⊢
      have hq' := (hent q).1 hq
      exact (hother _ k fun he => hqp (h.inj q p hq' hp he)).trans (h.told q hq' k hk hne)
  · intro i k x hx
    by_cases hi : i = (s.nodes p).myNodeID
    · subst hi
      exact ⟨p, (hent p).2 hp, hids p, hown k x hx⟩
    · obtain ⟨q, hq, hqi, hx⟩ := h.only i k x ((hother i k hi).symm.trans hx)
      exact ⟨q, (hent q).2 hq, (hids q).trans hqi, hx⟩
  · intro q hq k hk hne
    rcases eq_or_ne q p with rfl | hqp
    · rw [goOn_self] at hk hne ⊢
      obtain ⟨r, hr, hrk, hm⟩ := hheard k hk hne
      exact ⟨r, (hent r).2 hr, (hids r).trans hrk, hm⟩
    · rw [goOn_of_ne hqp] at hk hne ⊢
      obtain ⟨r, hr, hrk, hm⟩ := h.heard q ((hent q).1 hq) k hk hne
      exact ⟨r, (hent r).2 hr, (hids r).trans hrk, hm⟩
  · intro q hq
    rcases eq_or_ne q p with rfl | hqp
    · rw [goOn_self] at hq ⊢
      exact hself hq
    · rw [goOn_of_ne hqp] at hq ⊢
      exact h.self q hq

end GoOn

theorem Node.Bounded.mono {nd : Node M} {n n' : Nat} (h : nd.Bounded maxServer n) (hn : n ≤ n') (hn' : n' ≤ maxServer) :
    nd.Bounded maxServer n' := by
  cases hpc : nd.pc <;> simp only [Bounded, hpc] at h ⊢ <;> omega

/-- **A node takes its number.** -/
theorem Inv.enter (h : Inv maxServer localMeta s) (hp : p < maxServer) (hpc : (s.nodes p).pc = .enter) :
    Inv maxServer localMeta (Bootstrap.goOn s
      (Function.update s.memcached serverNumKey (some (.num ((s.entered maxServer).card + 1)))) p
      { s.nodes p with pc := .connect, myNodeID := (s.entered maxServer).card }) := by
  generalize hs : Bootstrap.goOn s _ p _ = s'
  have hself : s'.nodes p = { s.nodes p with pc := .connect, myNodeID := (s.entered maxServer).card } := by
    rw [← hs, goOn_self]
  have hother : ∀ q, q ≠ p → s'.nodes q = s.nodes q := fun q hq => by rw [← hs, goOn_of_ne hq]
  have hnew : (s'.nodes p).entered := by
    rw [hself]
    nofun
  have hold : ∀ q, (s.nodes q).entered → q ≠ p := by
    rintro q hq rfl
    exact hq hpc
  have hent : ∀ q, (s'.nodes q).entered → q = p ∨ (q ≠ p ∧ (s.nodes q).entered) := by
    intro q hq
    rcases eq_or_ne q p with rfl | hqp
    · exact .inl rfl
    · exact .inr ⟨hqp, hother q hqp ▸ hq⟩
  have hset : s'.entered maxServer = insert p (s.entered maxServer) := by
    ext q
    rw [Finset.mem_insert, State.entered, State.entered, Finset.mem_filter, Finset.mem_filter, Finset.mem_range]
    rcases eq_or_ne q p with rfl | hqp
    · exact iff_of_true ⟨hp, hnew⟩ (.inl rfl)
    · rw [hother q hqp, or_iff_right hqp]
  have hnot : p ∉ s.entered maxServer := fun hmem => (Finset.mem_filter.1 hmem).2 hpc
  have hcard : (s'.entered maxServer).card = (s.entered maxServer).card + 1 := by
    rw [hset, Finset.card_insert_of_notMem hnot]
  have hmem : ∀ i k, s'.memcached (setKey i k) = s.memcached (setKey i k) := fun i k => by
    rw [← hs]
    simp only [Bootstrap.goOn, Function.update_of_ne (setKey_ne_serverNum i k)]
  have hid : (s'.nodes p).myNodeID = (s.entered maxServer).card := by rw [hself]
  have hcur : (s.nodes p).curServer = 0 := by
    have hb := h.bounded p
    rwa [Node.Bounded, hpc] at hb
  constructor
  · rw [hcard, ← hs]
    simp only [Bootstrap.goOn, Function.update_self]
  · intro q hq
    rcases hent q hq with rfl | ⟨-, hq⟩
    · exact hp
    · exact h.known q hq
  · intro q hq
    rcases hent q hq with rfl | ⟨hqp, hq⟩
    · rw [hid, hcard]
      exact Nat.lt_succ_self _
    · rw [hother q hqp, hcard]
      exact Nat.lt_succ_of_lt (h.number q hq)
  · intro q r hq hr he
    rcases hent q hq with rfl | ⟨hqp, hq⟩ <;> rcases hent r hr with rfl | ⟨hrp, hr⟩
    · rfl
    · rw [hid, hother r hrp] at he
      exact absurd (he ▸ h.number r hr) (lt_irrefl _)
    · rw [hid, hother q hqp] at he
      exact absurd (he ▸ h.number q hq) (lt_irrefl _)
    · rw [hother q hqp, hother r hrp] at he
      exact h.inj q r hq hr he
  · intro i hi
    rw [hcard] at hi
    rcases Nat.lt_succ_iff_lt_or_eq.1 hi with hi | rfl
    · obtain ⟨q, hq, hqi⟩ := h.surj i hi
      exact ⟨q, hother q (hold q hq) ▸ hq, hother q (hold q hq) ▸ hqi⟩
    · exact ⟨p, hnew, hid⟩
  · intro q
    rcases eq_or_ne q p with rfl | hqp
    · rw [hself]
      exact hcur.trans_le (Nat.zero_le _)
    · rw [hother q hqp]
      exact (h.bounded q).mono (by omega) (card_entered_le maxServer _)
  · intro q hq k hk hne
    rcases hent q hq with rfl | ⟨hqp, hq⟩
    · rw [hself] at hk
      exact absurd (hcur ▸ hk) (Nat.not_lt_zero k)
    · rw [hother q hqp] at hk hne ⊢
      exact (hmem _ _).trans (h.told q hq k hk hne)
  · intro i k x hx
    obtain ⟨q, hq, hqi, hx⟩ := h.only i k x ((hmem i k).symm.trans hx)
    exact ⟨q, hother q (hold q hq) ▸ hq, hother q (hold q hq) ▸ hqi, hx⟩
  · intro q hq k hk hne
    rcases hent q hq with rfl | ⟨hqp, hq⟩
    · rw [hself] at hk
      exact absurd (hcur ▸ hk) (Nat.not_lt_zero k)
    · rw [hother q hqp] at hk hne ⊢
      obtain ⟨r, hr, hrk, hm⟩ := h.heard q hq k hk hne
      exact ⟨r, hother r (hold r hr) ▸ hr, hother r (hold r hr) ▸ hrk, hm⟩
  · intro q hq
    rcases eq_or_ne q p with rfl | hqp
    · rw [hself] at hq
      rcases hq with hq | hq <;> cases hq
    · rw [hother q hqp] at hq ⊢
      exact h.self q hq

theorem Step.inv (hs : Step maxServer localMeta s p s') (hp : p < maxServer) (h : Inv maxServer localMeta s) :
    Inv maxServer localMeta s' := by
  have hb := h.bounded p
  have hcard := card_entered_le maxServer s
  have htold := h.told p
  have hheard := h.heard p
  have hself := h.self p
  have hent : (s.nodes p).pc ≠ .enter → (s.nodes p).entered := id
  -- nothing is set
  have hown : ∀ {k x}, (s.nodes p).entered → s.memcached (setKey (s.nodes p).myNodeID k) = some x →
      x = .exchange (localMeta p k) := by
    intro k x hpe hx
    obtain ⟨q, hq, hqi, hx⟩ := h.only _ k x hx
    exact h.inj q p hq hpe hqi ▸ hx
  cases hs with
  | @enter n hpc hn =>
    cases h.counter.symm.trans hn
    exact h.enter hp hpc
  | @read n hpc hcur hn =>
    cases h.counter.symm.trans hn
    have hpe := hent (by rw [hpc]; nofun)
    simp only [Node.Bounded, Node.told, Node.heard, hpc] at hb htold hheard
    exact h.goOn hpe nofun rfl rfl (fun _ _ _ => rfl) (fun k x => hown hpe) ⟨hb, le_rfl⟩ (htold hpe) (hheard hpe) nofun
  | all hpc hcur =>
    have hpe := hent (by rw [hpc]; nofun)
    simp only [Node.Bounded, Node.told, Node.heard, hpc] at hb htold hheard
    obtain hmax : (s.nodes p).curServer = maxServer := by omega
    rw [hmax] at htold hheard hb
    exact h.goOn hpe nofun rfl rfl (fun _ _ _ => rfl) (fun k x => hown hpe) (le_antisymm hcard hb) (htold hpe)
      (hheard hpe) nofun
  | @tell k n hpc hk hid =>
    have hpe := hent (by rw [hpc]; nofun)
    simp only [Node.Bounded, Node.told, Node.heard, hpc] at hb htold hheard
    have hset : ∀ j, Function.update s.memcached (setKey (s.nodes p).myNodeID k) (some (.exchange (localMeta p k)))
        (setKey (s.nodes p).myNodeID j) =
          if j = k then some (.exchange (localMeta p k)) else s.memcached (setKey (s.nodes p).myNodeID j) := by
      intro j
      split
      · rename_i hj
        rw [hj, Function.update_self]
      · rename_i hj
        rw [Function.update_of_ne fun he => hj (setKey_inj he).2]
    refine h.goOn hpe nofun rfl (Function.update_of_ne (setKey_ne_serverNum _ _).symm ..)
      (fun i j hi => Function.update_of_ne (fun he => hi (setKey_inj he).1) ..) ?_ ⟨hk, hb.2, hid⟩ ?_ (hheard hpe) nofun
    · intro j x hx
      rw [hset] at hx
      split at hx
      · rename_i hj
        rw [hj]
        exact (Option.some.inj hx).symm
      · exact hown hpe hx
    · intro j hj hne
      rw [Node.goto_id, hset]
      split
      · rename_i hjk
        rw [hjk]
      · rename_i hjk
        simp only [Node.told, Node.goto_pc] at hj
        exact htold hpe j (by omega) hne
  | @skip n hpc hk =>
    have hpe := hent (by rw [hpc]; nofun)
    simp only [Node.Bounded, Node.told, Node.heard, hpc] at hb htold hheard
    refine h.goOn hpe nofun rfl rfl (fun _ _ _ => rfl) (fun k x => hown hpe) ⟨hk, hb.2⟩ (fun j hj hne => ?_)
      (fun j hj hne => ?_) nofun
    · simp only [Node.told, Node.heard, Node.goto_pc, Node.goto_id] at hj hne
      exact htold hpe j (by omega) hne
    · simp only [Node.heard, Node.goto_pc, Node.goto_id] at hj hne
      exact hheard hpe j (by omega) hne
  | @again k n hpc hk =>
    have hpe := hent (by rw [hpc]; nofun)
    simp only [Node.Bounded, Node.told, Node.heard, hpc] at hb htold hheard
    refine h.goOn hpe nofun rfl rfl (fun _ _ _ => rfl) (fun k x => hown hpe) hb.2 (fun j hj hne => ?_)
      (fun j hj hne => ?_) nofun
    · simp only [Node.told, Node.heard] at hj
      exact htold hpe j (by omega) hne
    · simp only [Node.heard] at hj
      exact hheard hpe j (by omega) hne
  | @hear k n m hpc hm =>
    have hpe := hent (by rw [hpc]; nofun)
    simp only [Node.Bounded, Node.told, Node.heard, hpc] at hb htold hheard
    obtain ⟨hk, hn, hid⟩ := hb
    obtain ⟨q, hq, hqk, hx⟩ := h.only _ _ _ hm
    cases hx
    refine h.goOn hpe nofun rfl rfl (fun _ _ _ => rfl) (fun k x => hown hpe) ⟨hk, hn⟩ (fun j hj hne => ?_)
      (fun j hj hne => ?_) nofun
    · simp only [Node.told, Node.heard, Node.goto_pc] at hj
      exact htold hpe j (by omega) hne
    · simp only [Node.heard, Node.goto_pc] at hj
      simp only [Node.goto_remoteCon, Node.goto_id, Node.setDataFromRemote]
      by_cases hjk : j = k
      · subst hjk
        exact ⟨q, hq, hqk, Function.update_self ..⟩
      · rw [Function.update_of_ne hjk]
        exact hheard hpe j (by omega) hne
  | self hpc =>
    have hpe := hent (by rw [hpc]; nofun)
    simp only [Node.Bounded, Node.told, Node.heard, hpc] at hb htold hheard
    refine h.goOn hpe nofun rfl rfl (fun _ _ _ => rfl) (fun k x => hown hpe) hb (htold hpe) (fun j hj hne => ?_)
      fun _ => Function.update_self ..
    simp only [Node.goto_remoteCon, Node.goto_id, Node.setDataFromRemote] at hne ⊢
    rw [Function.update_of_ne hne]
    exact hheard hpe j hj hne
  | route hpc =>
    have hpe := hent (by rw [hpc]; nofun)
    have hmem : ∀ i k, Function.update s.memcached (routeKey (s.nodes p).myNodeID) (some .address) (setKey i k) =
        s.memcached (setKey i k) := fun i k => Function.update_of_ne (setKey_ne_route i k _) ..
    simp only [Node.Bounded, Node.told, Node.heard, hpc] at hb htold hheard
    refine h.goOn hpe nofun rfl (Function.update_of_ne (serverNum_ne_route _) ..) (fun i k _ => hmem i k)
      (fun k x hx => hown hpe ((hmem _ k).symm.trans hx)) hb (fun j hj hne => ?_) (hheard hpe) fun _ => hself (.inl hpc)
    exact (hmem _ j).trans (htold hpe j hj hne)

/-- **The invariant** holds in every run. -/
theorem run_inv {h : List Unit} (hrun : (machine maxServer localMeta).Run (fun _ _ => True) s h) :
    Inv maxServer localMeta s := by
  refine hrun.invariant (I := fun s _ => Inv maxServer localMeta s) init_inv ?_
  intro s h p s' es _ hinv _ hs
  obtain ⟨hp, hs, -⟩ := step_iff.1 hs
  exact hs.inv hp hinv

/-- **The start connects the nodes**: a node that is done has the metadata of every number, which the node with that
number set for it; in every interleaving. -/
theorem bootstrap_connects {h : List Unit} (hrun : (machine maxServer localMeta).Run (fun _ _ => True) s h)
    (hp : (s.nodes p).pc = .done) : ∀ k < maxServer, ∃! q, q < maxServer ∧ (s.nodes q).entered ∧
      (s.nodes q).myNodeID = k ∧ (s.nodes p).remoteCon k = some (localMeta q (s.nodes p).myNodeID) := by
  have hinv := run_inv hrun
  have hpe : (s.nodes p).entered := fun he => by cases he.symm.trans hp
  intro k hk
  have hex : ∃ q, (s.nodes q).entered ∧ (s.nodes q).myNodeID = k ∧
      (s.nodes p).remoteCon k = some (localMeta q (s.nodes p).myNodeID) := by
    by_cases hid : k = (s.nodes p).myNodeID
    · exact ⟨p, hpe, hid.symm, hid ▸ hinv.self p (.inr hp)⟩
    · have hheard := hinv.heard p hpe
      simp only [Node.heard, hp] at hheard
      exact hheard k hk hid
  obtain ⟨q, hq, hqk, hm⟩ := hex
  exact ⟨q, ⟨hinv.known q hq, hq, hqk, hm⟩, fun r hr => hinv.inj r q hr.2.1 hq (hr.2.2.1.trans hqk.symm)⟩

/-- Two nodes make their steps in turns; the second one takes the first number. -/
theorem bootstrap_connects_two : ∃ s h, (machine 2 Prod.mk).Run (fun _ _ => True) s h ∧ (s.nodes 0).pc = .done ∧
    (s.nodes 0).myNodeID = 1 ∧ ∀ k < 2, ∃! q, q < 2 ∧ (s.nodes q).entered ∧ (s.nodes q).myNodeID = k ∧
      (s.nodes 0).remoteCon k = some (q, (s.nodes 0).myNodeID) := by
  have hsome : (((machine 2 Prod.mk).exec (fun _ _ => true) (machine 2 Prod.mk).init []
      (List.replicate 9 [1, 0]).flatten).map fun y => ((y.1.nodes 0).pc, (y.1.nodes 0).myNodeID)) =
        some (.done, 1) := by decide +kernel
  obtain ⟨⟨s, h⟩, hexec, heq⟩ := Option.map_eq_some_iff.1 hsome
  obtain ⟨hpc, hid⟩ := Prod.mk.inj heq
  have hrun : (machine 2 Prod.mk).Run (fun _ _ => True) s h := .of_exec (I := fun _ => True) (fun _ _ => trivial)
    (fun _ _ _ => trivial) trivial .init hexec
  exact ⟨s, h, hrun, hpc, hid, bootstrap_connects hrun hpc⟩

/-! ## Progress -/

/-- The steps that a node has at most left, when all nodes have their numbers. -/
def Node.left (maxServer : Nat) (nd : Node M) : Nat :=
  match nd.pc with
  | .enter => 4 * maxServer + 7
  | .connect => if nd.curServer < maxServer then 4 * (maxServer - nd.curServer) + 6 else 3
  | .loop k serverNum => 4 * (maxServer - k) + if serverNum < maxServer then 8 else 5
  | .wait k serverNum => 4 * (maxServer - k) + if serverNum < maxServer then 7 else 4
  | .self => 2
  | .route => 1
  | .done => 0

/-- A step that brings its node closer to the end. -/
def Productive (maxServer : Nat) (localMeta : Nat → Nat → M) (s : State M) : Prop :=
  ∃ p < maxServer, ∃ memcached nd, Step maxServer localMeta s p (goOn s memcached p nd) ∧
    nd.left maxServer < (s.nodes p).left maxServer

/-- **No circle of waiting nodes**: a node that waits, or one that it waits for, or so on, finds what it waits for. -/
theorem Inv.productive_of_wait (h : Inv maxServer localMeta s) (hcard : (s.entered maxServer).card = maxServer)
    (hall : ∀ p, (s.nodes p).entered → (∃ k n, (s.nodes p).pc = .wait k n) ∨ (s.nodes p).pc = .done) :
    ∀ {p k n}, (s.nodes p).pc = .wait k n → Productive maxServer localMeta s := by
  intro p k n hpc
  -- the numbers of the nodes that wait and of those they wait for get smaller
  induction hsum : (s.nodes p).myNodeID + k using Nat.strong_induction_on generalizing p k n with
  | _ sum ih =>
    have hpe : (s.nodes p).entered := fun he => by cases he.symm.trans hpc
    have hb := h.bounded p
    simp only [Node.Bounded, hpc] at hb
    obtain ⟨hk, hn, hid⟩ := hb
    obtain ⟨q, hq, rfl⟩ := h.surj k (hk.trans_le hn)
    have hnum := h.number p hpe
    by_cases htold : (s.nodes p).myNodeID < (s.nodes q).told maxServer
    · have hm := h.told q hq _ htold hid.symm
      refine ⟨p, h.known p hpe, _, _, .hear hpc hm, ?_⟩
      simp only [Node.left, hpc, Node.goto_pc]
      split <;> omega
    · rcases hall q hq with ⟨k', n', hpc'⟩ | hpc'
      · simp only [Node.told, hpc'] at htold
        exact ih _ (by omega) hpc' rfl
      · simp only [Node.told, Node.heard, hpc'] at htold
        omega

/-- **A step that brings its node closer to the end**, while not all nodes are done. -/
theorem Inv.productive (h : Inv maxServer localMeta s) (hp : p < maxServer) (hdone : (s.nodes p).pc ≠ .done) :
    Productive maxServer localMeta s := by
  by_cases henter : ∃ q < maxServer, (s.nodes q).pc = .enter
  · obtain ⟨q, hq, hpc⟩ := henter
    have hb := h.bounded q
    simp only [Node.Bounded, hpc] at hb
    refine ⟨q, hq, _, _, .enter hpc h.counter, ?_⟩
    simp only [Node.left, hpc, hb]
    split <;> omega
  have hent : ∀ q < maxServer, (s.nodes q).entered := fun q hq he => henter ⟨q, hq, he⟩
  have hcard : (s.entered maxServer).card = maxServer := by
    have hall : s.entered maxServer = Finset.range maxServer :=
      Finset.filter_true_of_mem fun q hq => hent q (Finset.mem_range.1 hq)
    rw [hall, Finset.card_range]
  by_cases hall : ∀ q, (s.nodes q).entered → (∃ k n, (s.nodes q).pc = .wait k n) ∨ (s.nodes q).pc = .done
  · obtain ⟨k, n, hpc⟩ := (hall p (hent p hp)).resolve_right hdone
    exact h.productive_of_wait hcard hall hpc
  obtain ⟨q, hq⟩ := not_forall.1 hall
  obtain ⟨hqe, hq⟩ := Classical.not_imp.1 hq
  rw [not_or] at hq
  have hqm := h.known q hqe
  have hb := h.bounded q
  cases hpc : (s.nodes q).pc with
  | enter => exact absurd hpc hqe
  | wait k n => exact absurd ⟨k, n, hpc⟩ hq.1
  | done => exact absurd hpc hq.2
  | connect =>
    by_cases hcur : (s.nodes q).curServer < maxServer
    · refine ⟨q, hqm, _, _, .read hpc hcur h.counter, ?_⟩
      simp only [Node.left, hpc, hcur, if_true, Node.goto_pc, hcard, lt_irrefl, if_false]
      omega
    · refine ⟨q, hqm, _, _, .all hpc (not_lt.1 hcur), ?_⟩
      simp only [Node.left, hpc, hcur, if_false, Node.goto_pc]
      omega
  | loop k n =>
    simp only [Node.Bounded, hpc] at hb
    by_cases hk : k < n
    · by_cases hid : k = (s.nodes q).myNodeID
      · subst hid
        refine ⟨q, hqm, _, _, .skip hpc hk, ?_⟩
        simp only [Node.left, hpc, Node.goto_pc]
        split <;> omega
      · refine ⟨q, hqm, _, _, .tell hpc hk hid, ?_⟩
        simp only [Node.left, hpc, Node.goto_pc]
        split <;> omega
    · refine ⟨q, hqm, _, _, .again hpc (not_lt.1 hk), ?_⟩
      simp only [Node.left, hpc]
      split <;> omega
  | self =>
    refine ⟨q, hqm, _, _, .self hpc, ?_⟩
    simp only [Node.left, hpc, Node.goto_pc]
    omega
  | route =>
    refine ⟨q, hqm, _, _, .route hpc, ?_⟩
    simp only [Node.left, hpc, Node.goto_pc]
    omega

/-- **The start comes to its end**: from every state that is reached, all nodes can be led to where they are done. No
order of the nodes and of their exchanges ends in a circle of nodes that wait for each other. -/
theorem bootstrap_completes {h : List Unit} (hrun : (machine maxServer localMeta).Run (fun _ _ => True) s h) :
    ∃ s' h', (machine maxServer localMeta).Steps (fun _ _ => True) s h s' h' ∧
      ∀ p < maxServer, (s'.nodes p).pc = .done := by
  let total (s : State M) : Nat := ∑ p ∈ Finset.range maxServer, (s.nodes p).left maxServer
  have hlead := Machine.Steps.of_rank (M := machine maxServer localMeta) (G := fun _ _ => True) Nat.lt_wfRel.wf
    (I := fun n s => Inv maxServer localMeta s ∧ total s = n)
    (Q := fun s => ∀ p < maxServer, (s.nodes p).pc = .done) ?_
  · exact hlead _ s ⟨run_inv hrun, rfl⟩ h
  rintro n s ⟨hinv, rfl⟩
  by_cases hall : ∀ p < maxServer, (s.nodes p).pc = .done
  · exact .inl hall
  obtain ⟨p, hp⟩ := not_forall.1 hall
  obtain ⟨hpm, hdone⟩ := Classical.not_imp.1 hp
  obtain ⟨q, hq, memcached, nd, hs, hlt⟩ := hinv.productive hpm hdone
  have hle : ∀ r, ((goOn s memcached q nd).nodes r).left maxServer ≤ (s.nodes r).left maxServer := by
    intro r
    rcases eq_or_ne r q with rfl | hr
    · rw [goOn_self]
      exact hlt.le
    · rw [goOn_of_ne hr]
  have htotal : total (goOn s memcached q nd) < total s :=
    Finset.sum_lt_sum (fun r _ => hle r) ⟨q, Finset.mem_range.2 hq, by rwa [goOn_self]⟩
  exact .inr ⟨q, _, [], trivial, step_iff.2 ⟨hq, hs, rfl⟩, .inr ⟨_, htotal, hs.inv hq hinv, rfl⟩⟩

/-- Node 2 has come first and waits for node 0, which has entered; node 1 has not. -/
theorem bootstrap_completes_waiting : ∃ (s : State (Nat × Nat)) (h : List Unit),
    (machine 3 Prod.mk).Run (fun _ _ => True) s h ∧ (s.nodes 2).pc = .wait 1 2 ∧ (s.nodes 1).pc = .enter ∧
    ∃ s' h', (machine 3 Prod.mk).Steps (fun _ _ => True) s h s' h' ∧ ∀ p < 3, (s'.nodes p).pc = .done := by
  have hpcs : (((machine 3 Prod.mk).exec (fun _ _ => true) (init (Nat × Nat)) [] [2, 0, 2, 2, 2]).map fun y =>
      ((y.1.nodes 2).pc, (y.1.nodes 1).pc)) = some (.wait 1 2, .enter) := by decide +kernel
  obtain ⟨⟨s, h⟩, hexec, heq⟩ := Option.map_eq_some_iff.1 hpcs
  obtain ⟨hwait, henter⟩ := Prod.mk.inj heq
  have hrun : (machine 3 Prod.mk).Run (fun _ _ => True) s h :=
    .of_exec (I := fun _ => True) (fun _ _ => trivial) (fun _ _ _ => trivial) trivial .init hexec
  exact ⟨s, h, hrun, hwait, henter, bootstrap_completes hrun⟩

end Bootstrap
end Chime

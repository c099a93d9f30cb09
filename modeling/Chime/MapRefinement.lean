import Chime.Sequential

/-!
# The tree of one client is a map

The runs of a single client with empty caches. `entries` is the map that its operations make, in the order of their
returns; `Solo` ties the leaves to it, with the place of the client (`SoloAt`). In every such run no assertion fails,
every operation ends, and a search returns what the map has (`map_refinement`).
-/

namespace Chime

open Boundary (Next Extends Below)
open Records

variable {L : Layout}

namespace Tree

/-- Client 0 is the only one, the caches are left out, and the keys and values are proper ones. -/
def Single (_ : Tree L) : Action L → Prop
  | .invoke c request key =>
    c = 0 ∧ kKeyMin ≤ key ∧ key < L.ghostKey ∧ (request ≠ .search → request.value ≠ kValueNull)
  | .step _ ch => ch.cache = none ∧ ch.speculativeIdx = none
  | .ret _ => True

/-- Inserts are of new keys, and updates of keys that have been inserted. -/
def Legal : List Event → Prop
  | [] => True
  | .invoke _ (.insert _) k :: h => insertions k h = 0 ∧ Legal h
  | .invoke _ (.update _) k :: h => 0 < insertions k h ∧ Legal h
  | _ :: h => Legal h

/-- The map after the operations that have returned. -/
def entries : List Event → Nat → Option Nat
  | [] => fun _ => none
  | .ret _ (.insert v) k _ :: h | .ret _ (.update v) k _ :: h => Function.update (entries h) k (some v)
  | _ :: h => entries h

theorem Legal.tail {e : Event} {h : List Event} (hl : Legal (e :: h)) : Legal h := by
  cases e with
  | invoke c request key =>
    cases request with
    | search => exact hl
    | _ => exact hl.2
  | _ => exact hl

theorem Legal.of_append {es h : List Event} (hl : Legal (es ++ h)) : Legal h := by
  induction es with
  | nil => exact hl
  | cons e es ih => exact ih hl.tail

/-- Every key is inserted once at most. -/
theorem Legal.insertions_le {h : List Event} (hl : Legal h) (k : Nat) : insertions k h ≤ 1 := by
  induction h with
  | nil => exact Nat.zero_le 1
  | cons e h ih =>
    have := ih hl.tail
    rw [insertions_cons]
    split
    · rename_i hins
      cases e with
      | invoke c request key =>
        cases request with
        | insert v =>
          simp only [Event.inserts, decide_eq_true_eq] at hins
          subst hins
          have := hl.1
          omega
        | _ => cases hins
      | _ => cases hins
    · omega

end Tree

namespace Client

/-- The steps of a client that is alone. -/
def after [Arithmetic] (s : Store L) (cl : Client L) (ch : Nat → Choice L) : Nat → Option (Store L × Client L)
  | 0 => some (s, cl)
  | n + 1 => (cl.after s ch n).bind fun x => x.2.step x.1 (ch n)

/-- The client has written its pair. -/
def Wrote (cl : Client L) : Prop := cl.request ≠ .search ∧ cl.pc.unwritten = false

end Client

/-- A pair stays unwritten until the leaf is written. -/
theorem TreeMove.unwritten_of_same [Arithmetic] {g g' : Charted L} {ch : Choice L} {cl cl' : Client L} {pc : TreePc L}
    (hcl : cl.pc = pc) (hm : TreeMove g ch cl pc g' cl') (hu : cl.pc.unwritten = true) (hw : cl.writesLeaf = false)
    (hs : cl.request ≠ .search) (hcrash : ∀ a, cl'.pc ≠ .crashed a) : cl'.pc.unwritten = true := by
  rw [Client.writesLeaf, hcl] at hw
  rw [hcl] at hu
  cases hm with
  | found h | absent h | walk h => exact absurd h hs
  | stuck | keyMissing => exact absurd rfl (hcrash _)
  | unlockLeaf => exact unwritten_afterLeaf
  | writeLeaf | splitLeaf => cases hw
  | spinLeaf => rw [hcl]; rfl
  | newRoot | growRoot | parentPath | parentCache | parentNull | parentRoot | readRoot | noTarget | atTarget | targetRight
  | targetDown | spinInternal | lockInternal | staleInternal | internalRight | toInternalWrite | toInternalSplit
  | unlockInternal | writeInternal | writeInternalSibling | splitInternal => cases hu
  | _ => rfl

section Solo

open Chime.Tree

variable {s s' : Tree L} {d d' : Directory} {h es : List Event} {cl cl' : Client L} {ch : Choice L}

variable [Arithmetic]

/-- The client in its operation. -/
structure Busy (g : Charted L) (cl : Client L) : Prop where
  locks : Locks g cl
  top : TopAlone g cl
  place : (∃ r, SoloAt g cl r cl.pc) ∨ ∃ v, cl.pc = .done v ∧ (cl.request = .search → FoundIn g cl.key v)
  key : cl.key < L.ghostKey
  value : cl.request ≠ .search → cl.request.value ≠ kValueNull
  update : ∀ v, cl.request = .update v → ∃ w, Contents g cl.key w

/-- What holds in the runs of a single client. -/
structure Solo (s : Tree L) (d : Directory) (h : List Event) : Prop where
  good : TreeGood s d
  tracked : ∀ {k}, k ≠ 0 → k ≠ L.ghostKey → Tracked k s d h
  ghost : OnceEach ⟨s.store, d⟩ L.ghostKey
  others : ∀ {c}, c ≠ 0 → s.clients c = none
  idle : s.clients 0 = none → (∀ m l a, d m l = some a → (s.store.mem a).isLocked = false) ∧
    ∀ k a, d (s.store.root.level - 1) k = some a → k = 1
  busy : ∀ {cl}, s.clients 0 = some cl → Busy ⟨s.store, d⟩ cl
  inserted : ∀ k, 0 < insertions k h → (∃ cl, s.clients 0 = some cl ∧ cl.inserting k) ∨ ∃ w, Contents ⟨s.store, d⟩ k w
  /-- the map has what was written last, up to the pair of the client -/
  wrote : ∀ {cl}, s.clients 0 = some cl → cl.Wrote →
    ∀ k, lastWrite k h = if k = cl.key then some cl.request.value else entries h k
  agrees : (∀ cl, s.clients 0 = some cl → ¬cl.Wrote) → ∀ k, lastWrite k h = entries h k
  values : ∀ k v, entries h k = some v → v ≠ kValueNull
  results : ∀ h₁ h₂ c k v, h = h₁ ++ .ret c .search k v :: h₂ →
    v = (entries h₂ k).getD kValueNull ∧ (v = kValueNull ↔ insertions k h₂ = 0)

namespace Solo

theorem init (L : Layout) : Solo (Tree.init L) rootDirectory [] where
  good := init_good L
  tracked hk0 hk := .init hk hk0
  ghost l lf hl := by
    obtain ⟨lf₀, lock, he, -, -, hd, -⟩ := rootLeaf_ok L
    obtain ⟨lf', lock', he', hm⟩ := init_store L
    cases he.symm.trans he'
    obtain ⟨a, ha, hlf⟩ := hl
    obtain ⟨-, -, rfl⟩ := rootDirectory_eq ha
    rw [hm] at hlf
    cases hlf
    exact Records.distinct_iff.1 hd _ (ghostKey_pos (L := L))
  others _ := rfl
  idle _ := by
    obtain ⟨lf', lock', he', hm⟩ := init_store L
    refine ⟨fun m l a ha => ?_, fun k a ha => (rootDirectory_eq ha).2.1⟩
    obtain ⟨-, -, rfl⟩ := rootDirectory_eq ha
    rw [hm]
    rfl
  busy := nofun
  inserted _ hpos := absurd hpos (lt_irrefl _)
  wrote := nofun
  agrees _ _ := rfl
  values := nofun
  results h₁ _ _ _ _ heq := by simp at heq

/-- No key is stored twice. -/
theorem onceEach (hs : Solo s d h) (hl : Legal h) {k : Nat} (hk : k ≠ 0) : OnceEach ⟨s.store, d⟩ k := by
  by_cases hkg : k = L.ghostKey
  · exact hkg ▸ hs.ghost
  · exact (hs.tracked hk hkg).once (hl.insertions_le k)

theorem known (hs : Solo s d h) (hl : Legal h) (hc : s.clients 0 = some cl) : Known ⟨s.store, d⟩ cl := by
  have hb := hs.busy hc
  have hk0 : cl.key ≠ 0 := by
    have := (hs.good.client hc).key_pos
    omega
  have ht := hs.tracked hk0 hb.key.ne
  exact ⟨fun k hk => hs.onceEach hl hk, fun hins hu => ht.absent (hl.insertions_le _) hc ⟨rfl, hins, hu⟩, hb.update,
    ht.writes hc⟩

/-- Client 0 begins an operation. -/
theorem invoke (hs : Solo s d h) {key : Nat} {request : Request} (hv : Single s (.invoke 0 request key))
    (hl : Legal ([.invoke 0 request key] ++ h)) (hc : s.clients 0 = none) (hkf : key < L.keyFull) :
    Solo { s with clients := Function.update s.clients 0 (some ⟨request, key, fun _ => .null, .start⟩) } d
      ([.invoke 0 request key] ++ h) := by
  obtain ⟨-, hk, hghost, hvalue⟩ := hv
  obtain ⟨hunlocked, htop⟩ := hs.idle hc
  have hl₀ : Legal h := hl.of_append
  have hnone : ∀ cl, s.clients 0 = some cl → False := fun cl h => by cases hc.symm.trans h
  have hself : ∀ {cl}, Function.update s.clients 0 (some ⟨request, key, fun _ => .null, .start⟩) 0 = some cl →
      cl = ⟨request, key, fun _ => .null, .start⟩ := by
    intro cl hcl
    rw [Function.update_self] at hcl
    exact (Option.some.inj hcl).symm
  have hpath : PathOk ⟨s.store, d⟩ (fun _ => .null) key 0 := fun _ _ hne => absurd rfl hne
  refine ⟨Protocol.Good.enter hs.good ⟨hk, hkf, hpath⟩ nofun, fun hk0 hkg => (hs.tracked hk0 hkg).invoke, hs.ghost,
    fun hne => ?_, fun hn => ?_, fun hcl => ?_, fun k hpos => ?_, fun hcl hw => ?_, fun _ k => ?_, hs.values,
    fun h₁ h₂ c k v heq => ?_⟩
  · show Function.update s.clients 0 _ _ = none
    rw [Function.update_of_ne hne]
    exact hs.others hne
  · have hn' : Function.update s.clients 0 _ 0 = none := hn
    rw [Function.update_self] at hn'
    cases hn'
  · obtain rfl := hself hcl
    refine ⟨fun m l a ha hlock => ?_, fun k a ha => .inl (htop k a ha), .inl ⟨_, .start⟩, hghost, hvalue,
      fun v hreq => ?_⟩
    · cases (hunlocked m l a ha).symm.trans hlock
    · simp only at hreq
      subst hreq
      exact (hs.inserted key hl.1).resolve_left fun ⟨cl, hcl, _⟩ => hnone cl hcl
  · have hcons : insertions k ([.invoke 0 request key] ++ h) = insertions k h + _ := insertions_cons
    rw [hcons] at hpos
    by_cases hins : Event.inserts k (.invoke 0 request key) = true
    · cases request with
      | insert v =>
        simp only [Event.inserts, decide_eq_true_eq] at hins
        have hnew : Function.update s.clients 0 (some ⟨.insert v, key, fun _ => .null, .start⟩) 0 = some _ :=
          Function.update_self ..
        exact .inl ⟨_, hnew, hins, ⟨v, rfl⟩, rfl⟩
      | _ => cases hins
    · rw [if_neg hins, Nat.add_zero] at hpos
      exact .inr ((hs.inserted k hpos).resolve_left fun ⟨cl, hcl, _⟩ => hnone cl hcl)
  · obtain rfl := hself hcl
    cases hw.2
  · exact hs.agrees (fun cl hcl => (hnone cl hcl).elim) k
  · rcases List.cons_eq_append_iff.1 heq with ⟨-, heq⟩ | ⟨h₁', -, heq⟩
    · cases heq
    · exact hs.results h₁' h₂ c k v heq

/-- What a search finds: the value in the map, and the null value if the key was never inserted. -/
theorem search_result (hs : Solo s d h) (hl : Legal h) (hc : s.clients 0 = some cl) (hr : cl.request = .search) {w : Nat}
    (hpc : cl.pc = .done w) :
    w = (entries h cl.key).getD kValueNull ∧ (w = kValueNull ↔ insertions cl.key h = 0) := by
  have hb := hs.busy hc
  have hk0 : cl.key ≠ 0 := by
    have := (hs.good.client hc).key_pos
    omega
  have ht := hs.tracked hk0 hb.key.ne
  have hagree := hs.agrees (fun cl' hcl' hw => hw.1 (by cases hc.symm.trans hcl'; exact hr)) cl.key
  have hfound : FoundIn ⟨s.store, d⟩ cl.key w := by
    rcases hb.place with ⟨r, hat⟩ | ⟨v, hv, hfound⟩
    · rw [hpc] at hat
      cases hat
    · cases hpc.symm.trans hv
      exact hfound hr
  rcases hfound with hst | ⟨rfl, hno⟩
  · have hent := hagree.symm.trans (ht.stored (hl.insertions_le _) w hst)
    refine ⟨by rw [hent, Option.getD_some], fun hw => absurd hw (hs.values _ _ hent), fun h0 => ?_⟩
    exact absurd hst (ht.fresh h0 w)
  · have hent : entries h cl.key = none := by
      by_contra hne
      obtain ⟨w, hw⟩ := Option.ne_none_iff_exists'.1 hne
      obtain ⟨w', hw'⟩ := ht.found w (hagree.trans hw)
      exact hno w' hw'
    refine ⟨by rw [hent, Option.getD_none], fun _ => ?_, fun _ => rfl⟩
    by_contra hne
    rcases hs.inserted cl.key (Nat.pos_of_ne_zero hne) with ⟨cl', hcl', _, ⟨v, hv⟩, _⟩ | ⟨w, hw⟩
    · cases hc.symm.trans hcl'
      cases hr.symm.trans hv
    · exact hno w hw

/-- Client 0 returns. -/
theorem ret (hs : Solo s d h) (hl : Legal h) {v : Nat} (hc : s.clients 0 = some cl) (hpc : cl.pc = .done v) :
    Solo { s with clients := Function.update s.clients 0 none } d ([.ret 0 cl.request cl.key v] ++ h) := by
  have hb := hs.busy hc
  have hself : ∀ {cl}, Function.update s.clients 0 none 0 = some cl → False := by
    intro cl hcl
    rw [Function.update_self] at hcl
    cases hcl
  have hown : cl.pc.owned = [] := by rw [hpc]; rfl
  have hins : ∀ k, insertions k ([.ret 0 cl.request cl.key v] ++ h) = insertions k h := fun k => by
    rw [List.singleton_append, insertions_cons]
    rfl
  -- the map after the return
  have hlast : ∀ k, lastWrite k h = entries ([.ret 0 cl.request cl.key v] ++ h) k := by
    intro k
    cases hr : cl.request with
    | search => exact hs.agrees (fun cl' hcl' hw => hw.1 (by cases hc.symm.trans hcl'; exact hr)) k
    | _ =>
      have hwrote := hs.wrote hc ⟨by simp [hr], by rw [hpc]; rfl⟩ k
      rw [hwrote, hr]
      simp only [List.singleton_append, entries, Function.update_apply]
      rfl
  refine ⟨Protocol.Good.leave hs.good, fun hk0 hkg => (hs.tracked hk0 hkg).ret, hs.ghost, fun hne => ?_,
    fun _ => ⟨?_, ?_⟩,
    fun hcl => (hself hcl).elim, fun k hpos => .inr ?_, fun hcl => (hself hcl).elim, fun _ k => hlast k,
      fun k w hw => ?_,
    fun h₁ h₂ c k w heq => ?_⟩
  · show Function.update s.clients 0 _ _ = none
    rw [Function.update_of_ne hne]
    exact hs.others hne
  · intro m l a ha
    by_contra hlock
    have := hb.locks m l a ha (by simpa using hlock)
    rw [hown] at this
    cases this
  · intro k a ha
    refine (hb.top k a ha).resolve_right ?_
    rw [hown]
    nofun
  · rw [hins] at hpos
    refine (hs.inserted k hpos).resolve_left fun ⟨cl', hcl', _, _, hu⟩ => ?_
    cases hc.symm.trans hcl'
    rw [hpc] at hu
    cases hu
  · -- the value is one that was written
    cases hr : cl.request with
    | search =>
      rw [hr] at hw
      exact hs.values k w hw
    | _ =>
      have hvalue := hb.value (by simp [hr])
      rw [hr] at hw hvalue
      simp only [List.singleton_append, entries, Function.update_apply] at hw
      split at hw
      · cases hw
        exact hvalue
      · exact hs.values k w hw
  · rcases List.cons_eq_append_iff.1 heq with ⟨-, hcons⟩ | ⟨h₁', -, heq⟩
    · obtain ⟨hret, rfl⟩ := List.cons.inj hcons
      obtain ⟨-, hr, rfl, rfl⟩ := Event.ret.inj hret
      exact hs.search_result hl hc hr.symm hpc
    · exact hs.results h₁' h₂ c k w heq

/-- What was stored is stored, and the pair of a client is, once it has been written. -/
theorem contents_of_move {g g' : Charted L} (hg : TreeOk g) (hcl : ClientOk g cl) (hm : TreeMove g ch cl cl.pc g' cl')
    {k : Nat} (h : ∃ w, Contents g k w) : ∃ w, Contents g' k w := by
  obtain ⟨w, hw⟩ := h
  cases hm.leaves hg hcl rfl with
  | same _ hsame => exact ⟨w, by simpa only [Contents, hsame _ _] using hw⟩
  | puts _ hputs =>
    by_cases hkk : k = cl.key
    · exact ⟨_, hkk ▸ hputs.self⟩
    · exact ⟨w, hputs.kept k w hkk hw⟩

/-- A client that has not written after a step had not before, and the step is not the write. -/
theorem not_wrote_of_move {g g' : Charted L} (hm : TreeMove g ch cl cl.pc g' cl') (hnw : ¬cl'.Wrote)
    (hfound : cl.request = .search → cl.writesLeaf = false) : ¬cl.Wrote ∧ cl.writesLeaf = false := by
  obtain ⟨-, hreq⟩ := hm.operation
  by_cases hns : cl.request = .search
  · exact ⟨fun hw => hw.1 hns, hfound hns⟩
  · have hu : cl'.pc.unwritten = true := by
      by_contra hu
      exact hnw ⟨hreq ▸ hns, by simpa using hu⟩
    obtain ⟨hu', hw⟩ := hm.unwritten rfl hu
    exact ⟨fun hwrote => (by cases hu'.symm.trans hwrote.2), hw⟩

/-- **A step** of client 0: the invariant stays, and the client goes on with a lower rank. -/
theorem move (hs : Solo s d h) (hl : Legal h) (h3 : 3 ≤ L.internalSpanSize) (hoff : ch.cache = none)
    (hc : s.clients 0 = some cl) {g' : Charted L} (hm : TreeMove ⟨s.store, d⟩ ch cl cl.pc g' cl') {r : Rank}
    (hat : SoloAt ⟨s.store, d⟩ cl r cl.pc) : SoloNext ⟨s.store, d⟩ cl r g' cl' ∧
    Solo ⟨g'.store, Function.update s.clients 0 (some cl')⟩ g'.dir
      ((if cl.writesLeaf then [.write 0 cl.key cl.request.value] else []) ++ h) := by
  have hb := hs.busy hc
  have hcl := hs.good.client hc
  have hg := hs.good.shared
  have hknown := hs.known hl hc
  have hk0 : cl.key ≠ 0 := by
    have := hcl.key_pos
    omega
  have hnext := hat.step hg h3 hcl hoff hb.locks hb.top hknown hm
  have hch := hm.change hg hcl rfl
  have hg' : TreeOk g' := Protocol.Change.shared hch
  have hgood : TreeGood ⟨g'.store, Function.update s.clients 0 (some cl')⟩ g'.dir := Protocol.Good.step hs.good hc hch
  obtain ⟨hkey, hreq⟩ := hm.operation
  have hcrash : ∀ a, cl'.pc ≠ .crashed a := by
    intro a ha
    rcases hnext with ⟨r', -, hat'⟩ | ⟨v, hv, -⟩
    · rw [ha] at hat'
      cases hat'
    · cases ha.symm.trans hv
  have hself : ∀ {cl₁}, Function.update s.clients 0 (some cl') 0 = some cl₁ → cl₁ = cl' := by
    intro cl₁ hcl₁
    rw [Function.update_self] at hcl₁
    exact (Option.some.inj hcl₁).symm
  have hins : ∀ k, insertions k ((if cl.writesLeaf then [.write 0 cl.key cl.request.value] else []) ++ h) =
      insertions k h := by
    intro k
    split
    · rw [List.singleton_append, insertions_cons]
      rfl
    · rfl
  have hent : entries ((if cl.writesLeaf then [.write 0 cl.key cl.request.value] else []) ++ h) = entries h := by
    split <;> rfl
  have hghost : OnceEach g' L.ghostKey := by
    cases hm.leaves hg hcl rfl with
    | same _ hsame => exact fun l lf hlf => hs.ghost l lf ((hsame l lf).1 hlf)
    | puts _ hputs =>
      exact hputs.once _ (ghostKey_pos (L := L)) hs.ghost fun hkk => absurd hkk.symm hb.key.ne
  have hfound : cl.request = .search → cl.writesLeaf = false := by
    intro hsearch
    by_contra hw
    exact hknown.writes (by simpa using hw) hsearch
  refine ⟨hnext, hgood, fun hk0 hkg => (hs.tracked hk0 hkg).move hs.good hg' hk0 hc hm, hghost, fun hne => ?_,
    fun hn => ?_,
    fun hcl₁ => ?_, fun k hpos => ?_, fun hcl₁ hw k => ?_, fun hno k => ?_, fun k v hv => hs.values k v (hent ▸ hv),
    fun h₁ h₂ c k v heq => ?_⟩
  · show Function.update s.clients 0 _ _ = none
    rw [Function.update_of_ne hne]
    exact hs.others hne
  · have hn' : Function.update s.clients 0 (some cl') 0 = none := hn
    rw [Function.update_self] at hn'
    cases hn'
  · obtain rfl := hself hcl₁
    refine ⟨hm.locks hcl rfl hb.locks hcrash, hm.topAlone hg hcl rfl hb.top, ?_, hkey ▸ hb.key, hreq ▸ hb.value,
      fun v hv => hkey ▸ contents_of_move hg hcl hm (hb.update v (hreq ▸ hv))⟩
    rcases hnext with ⟨r', -, hat'⟩ | ⟨v, hv, hres⟩
    · exact .inl ⟨r', hat'⟩
    · refine .inr ⟨v, hv, fun hsearch => ?_⟩
      rw [hreq] at hsearch
      cases hm.leaves hg hcl rfl with
      | same _ hsame =>
        rw [hkey]
        simpa only [FoundIn, Contents, hsame _ _] using hres hsearch
      | puts hw _ => cases (hfound hsearch).symm.trans hw
  · rw [hins] at hpos
    rcases hs.inserted k hpos with ⟨cl₁, hcl₁, hi⟩ | hst
    · cases hc.symm.trans hcl₁
      cases hm.leaves hg hcl rfl with
      | same hw _ =>
        obtain ⟨hk, ⟨v, hv⟩, hu⟩ := hi
        have hu' := hm.unwritten_of_same rfl hu hw (by simp [hv]) hcrash
        have hnew : Function.update s.clients 0 (some cl') 0 = some cl' := Function.update_self ..
        exact .inl ⟨cl', hnew, hkey.trans hk, ⟨v, hreq.trans hv⟩, hu'⟩
      | puts _ hputs => exact .inr ⟨_, hi.1 ▸ hputs.self⟩
    · exact .inr (contents_of_move hg hcl hm hst)
  · obtain rfl := hself hcl₁
    obtain ⟨hns, hu⟩ := hw
    rw [hreq] at hns
    rw [hkey, hreq, hent]
    by_cases hw : cl.writesLeaf = true
    · rw [hw, if_pos rfl, List.singleton_append]
      have hagree := hs.agrees (fun cl₁ hcl₁ hwrote => by
        cases hc.symm.trans hcl₁
        cases (unwritten_of_writesLeaf hw).symm.trans hwrote.2) k
      show (if cl.key = k then some cl.request.value else lastWrite k h) = _
      rw [hagree]
      simp only [eq_comm]
    · have hw' : cl.writesLeaf = false := by simpa using hw
      rw [hw']
      refine hs.wrote hc ⟨hns, ?_⟩ k
      by_contra hu'
      cases hu.symm.trans (hm.unwritten_of_same rfl (by simpa using hu') hw' hns hcrash)
  · rw [hent]
    have hnew : Function.update s.clients 0 (some cl') 0 = some cl' := Function.update_self ..
    obtain ⟨hnw, hw⟩ := not_wrote_of_move hm (hno cl' hnew) hfound
    rw [hw]
    refine hs.agrees (fun cl₁ hcl₁ => ?_) k
    cases hc.symm.trans hcl₁
    exact hnw
  · split at heq
    · rcases List.cons_eq_append_iff.1 heq with ⟨-, hcons⟩ | ⟨h₁', -, heq⟩
      · cases hcons
      · exact hs.results h₁' h₂ c k v heq
    · exact hs.results h₁ h₂ c k v heq

/-- A client that makes a step is not done. -/
theorem place_of_move (hs : Solo s d h) (hc : s.clients 0 = some cl) {g' : Charted L}
    (hm : TreeMove ⟨s.store, d⟩ ch cl cl.pc g' cl') : ∃ r, SoloAt ⟨s.store, d⟩ cl r cl.pc := by
  rcases (hs.busy hc).place with hat | ⟨v, hv, -⟩
  · exact hat
  · rw [hv] at hm
    cases hm

/-- **All runs** of a single client. -/
theorem of_run (h3 : 3 ≤ L.internalSpanSize) (hrun : (machine L).Run (fun s a => Single s a ∧ InRange s a) s h)
    (hl : Legal h) : ∃ d, Solo s d h := by
  refine hrun.invariant (I := fun s h => Legal h → ∃ d, Solo s d h) (fun _ => ⟨_, init L⟩) ?_ hl
  intro s h a s' es _ ih hv hstep hl
  obtain ⟨d, hs⟩ := ih hl.of_append
  obtain ⟨hv, hrange⟩ := hv
  obtain ⟨d', hts⟩ := Tree.step_cases_of_inRange hs.good hrange hstep
  have hzero : ∀ {c cl}, s.clients c = some cl → c = 0 := by
    intro c cl hc
    by_contra hne
    cases (hs.others hne).symm.trans hc
  cases hts with
  | @invoke c key request hc =>
    obtain rfl := hv.1
    have hkf : key < L.keyFull := by
      have := hv.2.2.1
      have := L.keySpace_ge
      simp only [Layout.ghostKey, Layout.keyFull] at *
      omega
    exact ⟨_, hs.invoke hv hl hc hkf⟩
  | move hc hm =>
    obtain rfl := hzero hc
    obtain ⟨r, hat⟩ := hs.place_of_move hc hm
    exact ⟨_, (hs.move hl.of_append h3 hv.1 hc hm hat).2⟩
  | ret hc hpc =>
    obtain rfl := hzero hc
    exact ⟨_, hs.ret hl.of_append hc hpc⟩

/-- **Every operation ends.** -/
theorem ends (hs : Solo s d h) (hl : Legal h) (h3 : 3 ≤ L.internalSpanSize) {ch : Nat → Choice L}
    (hoff : ∀ i, (ch i).cache = none) (hc : s.clients 0 = some cl)
    (hrange : ∀ n s' cl', cl.after s.store ch n = some (s', cl') → cl'.InRange) :
    ∃ n s' cl' v, cl.after s.store ch n = some (s', cl') ∧ cl'.pc = .done v := by
  -- the operation under way after `n` steps
  let I : Rank → Nat → Prop := fun r n => ∃ s' cl' d' h', cl.after s.store ch n = some (s', cl') ∧ Legal h' ∧
    Solo ⟨s', Function.update s.clients 0 (some cl')⟩ d' h' ∧ SoloAt ⟨s', d'⟩ cl' r cl'.pc
  let Q : Nat → Prop := fun n => ∃ s' cl' v, cl.after s.store ch (n + 1) = some (s', cl') ∧ cl'.pc = .done v
  have hstep : ∀ r n, I r n → Q n ∨ ∃ r', Rank.Lt r' r ∧ I r' (n + 1) := by
    rintro r n ⟨s₁, cl₁, d₁, h₁, haft, hl₁, hs₁, hat⟩
    have hc₁ : Function.update s.clients 0 (some cl₁) 0 = some cl₁ := Function.update_self ..
    have hgoing : (∀ v, cl₁.pc ≠ .done v) ∧ ∀ a, cl₁.pc ≠ .crashed a := by
      constructor <;> intro _ he <;> rw [he] at hat <;> cases hat
    have hg₁ : TreeOk ⟨s₁, d₁⟩ := hs₁.good.shared
    have hcl₁ : ClientOk ⟨s₁, d₁⟩ cl₁ := TreeGood.client (c := 0) hs₁.good hc₁
    obtain ⟨s₂, cl₂, hst⟩ := Client.exists_step hg₁ h3 hcl₁ (hoff n) hgoing.1 hgoing.2
    obtain ⟨d₂, hm⟩ := cl₁.step_moves_of_inRange hg₁ hcl₁ (hrange n s₁ cl₁ haft) hst
    obtain ⟨hnext, hs₂⟩ := hs₁.move hl₁ h3 (hoff n) hc₁ hm hat
    have haft₂ : cl.after s.store ch (n + 1) = some (s₂, cl₂) := by
      rw [Client.after, haft]
      exact hst
    rcases hnext with ⟨r', hr, hat₂⟩ | ⟨v, hv, -⟩
    · refine .inr ⟨r', hr, s₂, cl₂, d₂, (if cl₁.writesLeaf then [.write 0 cl₁.key cl₁.request.value] else []) ++ h₁,
        haft₂, ?_, ?_, hat₂⟩
      · split <;> exact hl₁
      · have hup : Function.update (Function.update s.clients 0 (some cl₁)) 0 (some cl₂) =
            Function.update s.clients 0 (some cl₂) := Function.update_idem ..
        rw [← hup]
        exact hs₂
    · exact .inl ⟨s₂, cl₂, v, haft₂, hv⟩
  rcases (hs.busy hc).place with ⟨r, hat⟩ | ⟨v, hv, -⟩
  · have hself : Function.update s.clients 0 (some cl) = s.clients := by rw [← hc, Function.update_eq_self]
    obtain ⟨n, -, s', cl', v, haft, hv⟩ := Machine.exists_of_rank (Q := Q) Rank.lt_wellFounded hstep r 0
      ⟨s.store, cl, d, h, rfl, hl, by rw [hself]; exact hs, hat⟩
    exact ⟨n + 1, s', cl', v, haft, hv⟩
  · exact ⟨0, s.store, cl, v, rfl, hv⟩

/-- The conclusions for a run, with either arithmetic. -/
theorem refines (h3 : 3 ≤ L.internalSpanSize) (hrun : (machine L).Run (fun s a => Single s a ∧ InRange s a) s h)
    (hl : Legal h) : (∀ c cl a, s.clients c = some cl → cl.pc ≠ .crashed a) ∧
    (∀ h₁ h₂ c k v, h = h₁ ++ .ret c .search k v :: h₂ →
      v = (entries h₂ k).getD kValueNull ∧ (v = kValueNull ↔ insertions k h₂ = 0)) ∧
    ∀ cl, s.clients 0 = some cl → ∀ ch : Nat → Choice L, (∀ i, (ch i).cache = none ∧ (ch i).speculativeIdx = none) →
      (∀ n s' cl', cl.after s.store ch n = some (s', cl') → cl'.InRange) →
      ∃ n s' cl' v, cl.after s.store ch n = some (s', cl') ∧ cl'.pc = .done v := by
  obtain ⟨d, hs⟩ := Solo.of_run h3 hrun hl
  refine ⟨fun c cl a hc hcrash => ?_, hs.results, fun cl hc ch hoff => hs.ends hl h3 (fun i => (hoff i).1) hc⟩
  obtain rfl : c = 0 := by
    by_contra hne
    cases (hs.others hne).symm.trans hc
  rcases (hs.busy hc).place with ⟨r, hat⟩ | ⟨v, hv, -⟩
  · rw [hcrash] at hat
    cases hat
  · cases hcrash.symm.trans hv

end Solo

end Solo

/-! ## The map -/

/-- With exact buckets every step meets `InRange`. -/
theorem Solo.of_exact_run {s : Tree L} {h : List Tree.Event} (h3 : 3 ≤ L.internalSpanSize)
    (hrun : (Tree.machine L).Run Tree.Single s h) (hl : Tree.Legal h) : ∃ d, Solo s d h :=
  Solo.of_run h3 (hrun.mono fun s a hv => ⟨hv, Tree.inRange_exact s a⟩) hl

/-- In the default build no bucket is rounded that a step could read up to. -/
theorem Client.inRange_default (hash : Nat → Fin 64) (cl : Client (.default hash)) :
    @Client.InRange (.default hash) .double cl := by
  have hbits := Layout.default_vacancyMapBit hash
  have hlast : getFirst 57 64 57 = 64 := by decide +kernel
  intro _ _ lock _ _ _
  refine Valock.inRange_of_coprime ?_ ?_ lock _
  · rw [hbits]
    exact (show Nat.Coprime 57 64 by decide)
  · rw [hbits]
    exact hlast

section Double

open Chime.Tree

variable {s : Tree L} {h : List Event}

/-- **Refinement to a map**, with the arithmetic of the source: in every run of one client with empty caches, whose
inserts are of new keys and whose updates are of inserted ones, no assertion fails, a search returns the value that the
map of the operations before it has, or the null value exactly if the key has not been inserted, and every operation
ends. No insert may read up to a bucket whose range lacks slots of the bucket. -/
theorem map_refinement (L : Layout) (h3 : 3 ≤ L.internalSpanSize) : ∀ s h,
    (@machine .double L).Run (fun s a => Single s a ∧ @InRange L .double s a) s h → Legal h →
    (∀ c cl a, s.clients c = some cl → cl.pc ≠ .crashed a) ∧
    (∀ h₁ h₂ c k v, h = h₁ ++ .ret c .search k v :: h₂ →
      v = (entries h₂ k).getD kValueNull ∧ (v = kValueNull ↔ insertions k h₂ = 0)) ∧
    ∀ cl, s.clients 0 = some cl → ∀ ch : Nat → Choice L, (∀ i, (ch i).cache = none ∧ (ch i).speculativeIdx = none) →
      (∀ n s' cl', @Client.after L .double s.store cl ch n = some (s', cl') → @Client.InRange L .double cl') →
      ∃ n s' cl' v, @Client.after L .double s.store cl ch n = some (s', cl') ∧ cl'.pc = .done v :=
  fun _ _ hrun hl => @Solo.refines L _ _ .double h3 hrun hl

/-- `Single`, as a check. -/
def singleChecked (_ : Tree L) : Action L → Bool
  | .invoke c request key =>
    c = 0 ∧ kKeyMin ≤ key ∧ key < L.ghostKey ∧ (request ≠ .search → request.value ≠ kValueNull)
  | .step _ ch => ch.cache.isNone && ch.speculativeIdx.isNone
  | .ret _ => true

theorem single_of_check {a : Action L} (hcheck : singleChecked s a = true) : Single s a := by
  cases a with
  | invoke c request key =>
    simp only [singleChecked, decide_eq_true_eq] at hcheck
    exact hcheck
  | step c ch =>
    simp only [singleChecked, Bool.and_eq_true, Option.isNone_iff_eq_none] at hcheck
    exact hcheck
  | ret => trivial

/-- `Client.InRange`, as a check. -/
def inRangeChecked [Arithmetic] (cl : Client L) : Bool :=
  match cl.pc, cl.request with
  | .leafLocked _ _ lock, .insert _ => decide (lock.InRange (L.getHashedLeafEntryIndex cl.key).val)
  | _, _ => true

theorem inRange_of_check [Arithmetic] {cl : Client L} (hcheck : inRangeChecked cl = true) : cl.InRange := by
  intro b p lock v hpc hreq
  simp only [inRangeChecked, hpc, hreq, decide_eq_true_eq] at hcheck
  exact hcheck

/-- `Single` and `InRange`, as a check. -/
def soloChecked [Arithmetic] (s : Tree L) (a : Action L) : Bool :=
  singleChecked s a && match a with
    | .step c _ => (s.clients c).all inRangeChecked
    | _ => true

theorem solo_of_check [Arithmetic] {a : Action L} (hcheck : soloChecked s a = true) : Single s a ∧ InRange s a := by
  cases a with
  | invoke c request key => exact ⟨single_of_check (Bool.and_eq_true_iff.1 hcheck).1, trivial⟩
  | step c ch =>
    obtain ⟨hsingle, hrange⟩ := Bool.and_eq_true_iff.1 hcheck
    refine ⟨single_of_check hsingle, fun cl hc => inRange_of_check ?_⟩
    simpa only [hc, Option.all_some] using hrange
  | ret c => exact ⟨single_of_check (Bool.and_eq_true_iff.1 hcheck).1, trivial⟩

theorem rounded_keyLen_pos : 0 < 8 := Nat.succ_pos 7

theorem rounded_neighborSize_pos : 0 < 1 := Nat.one_pos

/-- Fifteen slots in eleven buckets. With doubles the last bucket ends at its first slot. -/
def rounded : Layout where
  keyLen := 8
  leafSpanSize := 15
  internalSpanSize := 11
  neighborSize := 1
  getHashedLeafEntryIndex k := ⟨(k + 1) % 15, Nat.mod_lt _ (Nat.succ_pos 14)⟩
  keyLen_pos := rounded_keyLen_pos
  neighborSize_pos := rounded_neighborSize_pos
  neighborSize_le := by decide
  internalSpanSize_pos := by decide
  leafSpanSize_lt := by decide
  internalSpanSize_lt := by decide

/-- The steps of a client with one choice, from the first one on. -/
theorem after_succ [Arithmetic] (s : Store L) (cl : Client L) (ch : Choice L) (n : Nat) :
    cl.after s (fun _ => ch) (n + 1) = (cl.step s ch).bind fun x => x.2.after x.1 (fun _ => ch) n := by
  induction n with
  | zero => cases h : cl.step s ch <;> simp [Client.after, h]
  | succ n ih =>
    rw [Client.after, ih, Option.bind_assoc]
    rfl

/-- The client has no more than `n` steps with the choice, and they meet `InRange`: a check. -/
def endsInRange [Arithmetic] (s : Store L) (cl : Client L) (ch : Choice L) : Nat → Bool
  | 0 => false
  | n + 1 => inRangeChecked cl && (cl.step s ch).all fun x => endsInRange x.1 x.2 ch n

theorem inRange_of_ends [Arithmetic] {s s' : Store L} {cl cl' : Client L} {ch : Choice L} {n i : Nat}
    (hcheck : endsInRange s cl ch n = true) (h : cl.after s (fun _ => ch) i = some (s', cl')) : cl'.InRange := by
  induction n generalizing s cl i with
  | zero => cases hcheck
  | succ n ih =>
    obtain ⟨hrange, hnext⟩ := Bool.and_eq_true_iff.1 hcheck
    cases i with
    | zero =>
      cases h
      exact inRange_of_check hrange
    | succ i =>
      rw [after_succ, Option.bind_eq_some_iff] at h
      obtain ⟨x, hstep, haft⟩ := h
      rw [hstep, Option.all_some] at hnext
      exact ih hnext haft

/-- Two inserts, the second of which splits the root leaf, an update, a search, and an insert that is under way. -/
def splitThenInsert : List (Action rounded) :=
  completed _ 0 (.insert 11) 1 5 ++ completed _ 0 (.insert 26) 16 8 ++ completed _ 0 (.update 12) 1 6 ++
    completed _ 0 .search 1 4 ++ operation _ 0 (.insert 13) 3 2

/-- What has happened before the last insert began. -/
def splitThenInsertEvents : List Event := [.invoke 0 .search 1,
  .ret 0 (.update 12) 1 0, .write 0 1 12, .invoke 0 (.update 12) 1,
  .ret 0 (.insert 26) 16 0, .write 0 16 26, .invoke 0 (.insert 26) 16,
  .ret 0 (.insert 11) 1 0, .write 0 1 11, .invoke 0 (.insert 11) 1]

/-- In that run the search for 1 returned what the update wrote, and the insert under way ends. -/
theorem map_refinement_sample : ∃ s, (@machine .double rounded).Run (fun s a => Single s a ∧ @InRange rounded .double s a)
      s (.invoke 0 (.insert 13) 3 :: .ret 0 .search 1 12 :: splitThenInsertEvents) ∧
    12 = (entries splitThenInsertEvents 1).getD kValueNull ∧ ∃ cl, s.clients 0 = some cl ∧
    ∃ n s' cl' v, @Client.after rounded .double s.store cl (fun _ => ⟨none, LeafNode.empty, none⟩) n = some (s', cl') ∧
      cl'.pc = .done v := by
  have hsome : (((@machine .double rounded).exec (@soloChecked rounded .double) (@init .double rounded) []
      splitThenInsert).map fun y => (y.2, (y.1.clients 0).isSome, (y.1.clients 0).all fun cl =>
        @endsInRange rounded .double y.1.store cl ⟨none, LeafNode.empty, none⟩ 8)) =
      some (.invoke 0 (.insert 13) 3 :: .ret 0 .search 1 12 :: splitThenInsertEvents, true, true) := by
    decide +kernel
  obtain ⟨⟨s, h⟩, hexec, heq⟩ := Option.map_eq_some_iff.1 hsome
  simp only [Prod.mk.injEq] at heq
  obtain ⟨rfl, hclient, hends⟩ := heq
  obtain ⟨cl, hcl⟩ := Option.isSome_iff_exists.1 hclient
  rw [hcl, Option.all_some] at hends
  have hrun : (@machine .double rounded).Run (fun s a => Single s a ∧ @InRange rounded .double s a) s _ :=
    .of_exec (I := fun _ => True) (fun _ hc => @solo_of_check rounded _ .double _ hc) (fun _ _ _ => trivial) trivial
      .init hexec
  have hl : Legal (.invoke 0 (.insert 13) 3 :: .ret 0 .search 1 12 :: splitThenInsertEvents) := by
    simp [Legal, splitThenInsertEvents, insertions, Event.inserts]
  obtain ⟨-, hres, hret⟩ := map_refinement rounded (by decide) s _ hrun hl
  exact ⟨s, hrun, (hres [_] _ 0 1 12 rfl).1, cl, hcl,
    hret cl hcl _ (fun _ => ⟨rfl, rfl⟩) fun _ _ _ haft => @inRange_of_ends rounded .double _ _ _ _ _ _ _ hends haft⟩

/-- Two inserts of keys with the home 13. -/
def crowdedEnd : List (Action rounded) := completed _ 0 (.insert 22) 12 5 ++ operation _ 0 (.insert 37) 27 4

/-- The second one reads up to the last bucket, whose range ends before its first slot: it reads slot 13 only, which is
full, and fails the assertion on empty slots. -/
theorem not_map_refinement : ¬∀ L : Layout, 3 ≤ L.internalSpanSize → ∀ s h, (@machine .double L).Run Single s h →
    Legal h → ∀ c cl a, s.clients c = some cl → cl.pc ≠ .crashed a := by
  intro hno
  have hsome : (((@machine .double rounded).exec singleChecked (@init .double rounded) [] crowdedEnd).map fun y =>
      (y.2, (y.1.clients 0).any fun cl => match cl.pc with | .crashed .hasEmpty => true | _ => false)) =
      some ([.invoke 0 (.insert 37) 27, .ret 0 (.insert 22) 12 0, .write 0 12 22, .invoke 0 (.insert 22) 12], true) := by
    decide +kernel
  obtain ⟨⟨s, h⟩, hexec, heq⟩ := Option.map_eq_some_iff.1 hsome
  simp only [Prod.mk.injEq] at heq
  obtain ⟨rfl, hcrash⟩ := heq
  obtain ⟨cl, hcl, hpc⟩ := (Option.any_eq_true _ _).1 hcrash
  have hrun : (@machine .double rounded).Run Single s _ :=
    .of_exec (I := fun _ => True) (fun _ hc => single_of_check hc) (fun _ _ _ => trivial) trivial .init hexec
  have hl : Legal [.invoke 0 (.insert 37) 27, .ret 0 (.insert 22) 12 0, .write 0 12 22, .invoke 0 (.insert 22) 12] := by
    simp [Legal, insertions, Event.inserts]
  have hgo := hno rounded (by decide) s _ hrun hl 0 cl .hasEmpty hcl
  split at hpc
  · rename_i hc
    exact hgo hc
  · cases hpc

end Double
end Chime

/-
  Interning of the states of the timed construction.

  A state is entered under the sorted list of its tuples, with repetitions, and
  looked up by the list without repetitions.

  * `Moment` are the moments of the construction, at each part; `LooksUp` are its
    lookups;
  * `Interns b`: no two states hold the same set; `LookupFinds b part`: the lookup
    finds the state that was made for the set, if there is one;
  * `LookupOk b part`: the state that was made for the set of the part was made
    for a list without repetitions;
  * `Found.addPart`: such lookups keep the states interned;
  * `toTimedMooreMachine_interns_iff`: the states are interned, and the
    construction ends if there are finitely many configurations, exactly if all
    lookups are such, and no successor is initial.
-/
import MooreFilter.Proof.Timed

namespace MooreFilter

variable {n : ℕ} {addr : Ptr ↪ ℕ} {order : Ptr → UInt8 → ℕ} {N : ℕ}
  {A : AutomatonWithCounter TATransition} {M : Bounds}

/-! ## Moments -/

/-- The builder in the middle of the body of the worklist loop: after the letters
    `L₁` and the parts `ps` of the letter `a`. -/
def midway (addr : Ptr ↪ ℕ) (N : ℕ) (A : AutomatonWithCounter TATransition) (p : Ptr)
    (st : DRTABuilder n × List Ptr) (L₁ : List (UInt8 × List (Part n))) (a : UInt8)
    (ps : List (Part n)) : DRTABuilder n × List Ptr :=
  addParts addr N A p (L₁.foldl (addParts addr N A p) st) (a, ps)

/-- The moments of the construction. -/
inductive Moment (addr : Ptr ↪ ℕ) (order : Ptr → UInt8 → ℕ) (N : ℕ)
    (A : AutomatonWithCounter TATransition) (M : Bounds) : DRTABuilder n → Prop
  | item {b curr rest} :
      Worklist.Reached (addTimedTransitions addr order N A M) (drtaStart addr N A M) b curr rest →
      Moment addr order N A M b
  | part {b curr p rest L L₁ a ps₁ ps₂ L₂} :
      Worklist.Reached (addTimedTransitions addr order N A M) (drtaStart addr N A M) b curr
        (p :: rest) →
      linearlizeNexts (initConfs A n M) (constructNexts A (b.toOldStates p)) = some L →
      iterate (order p) L = L₁ ++ (a, ps₁ ++ ps₂) :: L₂ →
      Moment addr order N A M (midway addr N A p (b, curr) L₁ a ps₁).1

/-- The lookups of the construction: the builder, and the part looked up. -/
inductive LooksUp (addr : Ptr ↪ ℕ) (order : Ptr → UInt8 → ℕ) (N : ℕ)
    (A : AutomatonWithCounter TATransition) (M : Bounds) : DRTABuilder n → Part n → Prop
  | part {b curr p rest L L₁ a ps₁ part ps₂ L₂} :
      Worklist.Reached (addTimedTransitions addr order N A M) (drtaStart addr N A M) b curr
        (p :: rest) →
      linearlizeNexts (initConfs A n M) (constructNexts A (b.toOldStates p)) = some L →
      iterate (order p) L = L₁ ++ (a, ps₁ ++ part :: ps₂) :: L₂ →
      LooksUp addr order N A M (midway addr N A p (b, curr) L₁ a ps₁).1 part

/-- No two states hold the same set of configurations. -/
def Interns (b : DRTABuilder n) : Prop :=
  ∀ p ∈ b.states, ∀ q ∈ b.states,
    (∀ k, k ∈ tuples (b.toOldStates p) ↔ k ∈ tuples (b.toOldStates q)) → p = q

/-- The lookup of a part finds the state that was made for its set. -/
def LookupFinds (addr : Ptr ↪ ℕ) (b : DRTABuilder n) (part : Part n) : Prop :=
  ∀ p, MadeFor b p part.1 → b.toNewState (lookupKey addr part.1) = some p

/-- The state that was made for the set of a part was made for a list without
    repetitions. -/
def LookupOk (b : DRTABuilder n) (part : Part n) : Prop :=
  ∀ p, MadeFor b p part.1 → (tuples (b.toOldStates p)).Nodup

theorem stateKey_eq_lookupKey_iff (addr : Ptr ↪ ℕ) {s : List (Conf n)} :
    stateKey addr s = lookupKey addr s ↔ (tuples s).Nodup :=
  Sorting.sortBy_eq_unique_sortBy_iff

theorem lookupKey_eq_iff (addr : Ptr ↪ ℕ) {s t : List (Conf n)} :
    lookupKey addr s = lookupKey addr t ↔ ∀ k, k ∈ tuples s ↔ k ∈ tuples t :=
  Sorting.unique_sortBy_eq_iff

theorem MadeFor.lookupKey_eq {b : DRTABuilder n} {p : Ptr} {s : List (Conf n)}
    (h : MadeFor b p s) : lookupKey addr (b.toOldStates p) = lookupKey addr s :=
  (lookupKey_eq_iff addr).2 h.2

/-- A lookup that finds the state finds one made for a list without repetitions. -/
theorem LookupFinds.lookupOk {b : DRTABuilder n} (hI : InternedZones addr N A b) {part : Part n}
    (h : LookupFinds addr b part) : LookupOk b part := by
  intro p hp
  obtain ⟨-, hkey⟩ := hI.lookup _ _ (h p hp)
  rw [← hp.lookupKey_eq] at hkey
  exact (stateKey_eq_lookupKey_iff addr).1 hkey

/-- The states are interned, and those without repetitions are found. -/
structure Found (addr : Ptr ↪ ℕ) (b : DRTABuilder n) : Prop where
  interns : Interns b
  find : ∀ p ∈ b.states, (tuples (b.toOldStates p)).Nodup →
    b.toNewState (lookupKey addr (b.toOldStates p)) = some p

theorem Found.lookupFinds {b : DRTABuilder n} (h : Found addr b) {part : Part n}
    (hok : LookupOk b part) : LookupFinds addr b part := by
  intro p hp
  rw [← hp.lookupKey_eq]
  exact h.find p hp.1 (hok p hp)

/-! ## One part -/

/-- The keys are those of the states' lists, and the states made since `st₀` are
    the items found since. -/
structure Stored (addr : Ptr ↪ ℕ) (N : ℕ) (A : AutomatonWithCounter TATransition)
    (st₀ st : DRTABuilder n × List Ptr) : Prop where
  interned : InternedZones addr N A st.1
  grown : ∃ new, st.1.states = st₀.1.states ++ new ∧ st.2 = st₀.2 ++ new

section
variable {st₀ st : DRTABuilder n × List Ptr} {p : Ptr} {a : UInt8} {part : Part n}

theorem Stored.mem (h : Stored addr N A st₀ st) (hp : p ∈ st₀.1.states) : p ∈ st.1.states := by
  obtain ⟨new, hst, -⟩ := h.grown
  rw [hst]; exact List.mem_append_left _ hp

theorem Stored.addPart (h : Stored addr N A st₀ st) (hp : p ∈ st₀.1.states) :
    Stored addr N A st₀ (addPart addr N A p a st part) := by
  obtain ⟨new, hst, hcur⟩ := h.grown
  obtain ⟨b', new', t, he, hI, hg, -⟩ := addPart_spec h.interned (h.mem hp) a st.2 part
  rw [show MooreFilter.addPart addr N A p a st part = _ from he]
  exact ⟨hI, new ++ new', by rw [hg.states, hst, List.append_assoc],
    by rw [hcur, List.append_assoc]⟩

/-- The states stay interned after a lookup that finds the state made for its
    set. -/
theorem Found.addPart (hI : InternedZones addr N A st.1) (hp : p ∈ st.1.states)
    (h : Found addr st.1) (hok : LookupOk st.1 part) :
    Found addr (addPart addr N A p a st part).1 := by
  obtain ⟨b', new, t, he, -, hg, ht, -, hnew⟩ := addPart_spec hI hp a st.2 part
  rw [show MooreFilter.addPart addr N A p a st part = _ from he]
  change Found addr b'
  rcases hnew with ⟨rfl, hnew, hold⟩ | ⟨rfl, hlk, hnew, hold⟩
  · -- the state is found
    have hst : b'.states = st.1.states := by rw [hg.states, List.append_nil]
    refine ⟨?_, ?_⟩
    · unfold Interns; rw [hst, hold]; exact h.interns
    · rw [hst, hold, hnew]; exact h.find
  · -- no state was made for the set
    have hnone : ∀ q ∈ st.1.states,
        ¬ ∀ k, k ∈ tuples (b'.toOldStates q) ↔ k ∈ tuples (b'.toOldStates t) := by
      intro q hq hqt
      rw [hg.old_eq q hq, hold] at hqt
      rw [h.lookupFinds hok q ⟨hq, hqt⟩] at hlk
      exact absurd hlk (by simp)
    refine ⟨fun q hq q' hq' hqq' => ?_, fun q hq hnd => ?_⟩
    · rw [hg.states] at hq hq'
      rcases List.mem_append.1 hq with hq₁ | hq₁ <;> rcases List.mem_append.1 hq' with hq₂ | hq₂
      · rw [hg.old_eq q hq₁, hg.old_eq q' hq₂] at hqq'; exact h.interns q hq₁ q' hq₂ hqq'
      · rw [List.mem_singleton.1 hq₂] at hqq'
        exact absurd hqq' (hnone q hq₁)
      · rw [List.mem_singleton.1 hq₁] at hqq'
        exact absurd (fun k => (hqq' k).symm) (hnone q' hq₂)
      · rw [List.mem_singleton.1 hq₁, List.mem_singleton.1 hq₂]
    · rw [hg.states] at hq
      rw [hnew]
      rcases List.mem_append.1 hq with hq | hq
      · have hne : lookupKey addr (b'.toOldStates q) ≠ stateKey addr part.1 := by
          intro hkey
          rw [← (stateKey_eq_lookupKey_iff addr).2 hnd] at hkey
          refine hnone q hq fun k => ?_
          rw [hold]; exact (Sorting.sortBy_eq_iff.1 hkey).mem_iff
        rw [Function.update_of_ne hne]
        rw [hg.old_eq q hq] at hnd ⊢
        exact h.find q hq hnd
      · obtain rfl := List.mem_singleton.1 hq
        rw [← (stateKey_eq_lookupKey_iff addr).2 hnd, hold, Function.update_self]

end

/-! ## One state -/

section
variable {st : DRTABuilder n × List Ptr} {p : Ptr} {L : List (UInt8 × List (Part n))}
  {Inv : DRTABuilder n × List Ptr → Prop}

/-- What writing transitions and each lookup preserve, the body of the worklist
    loop preserves. -/
theorem foldl_addParts_inv (h₀ : Inv st)
    (hset : ∀ st a es, Inv st → Inv (setNextDRTA st.1 p a es, st.2))
    (hpart : ∀ L₁ a ps₁ part ps₂ L₂, L = L₁ ++ (a, ps₁ ++ part :: ps₂) :: L₂ →
      Inv (midway addr N A p st L₁ a ps₁) →
      Inv (addPart addr N A p a (midway addr N A p st L₁ a ps₁) part)) :
    Inv (L.foldl (addParts addr N A p) st) := by
  refine Worklist.foldl_inv Inv h₀ fun L₁ nextPair L₂ hL h => ?_
  obtain ⟨a, ps⟩ := nextPair
  refine Worklist.foldl_inv Inv (hset _ _ _ h) fun ps₁ part ps₂ hps h' => ?_
  dsimp only at hps
  exact hpart L₁ a ps₁ part ps₂ L₂ (by rw [hL, hps]) h'

/-- And so does its beginning. -/
theorem midway_inv (h₀ : Inv st)
    (hset : ∀ st a es, Inv st → Inv (setNextDRTA st.1 p a es, st.2))
    (hpart : ∀ L₁ a ps₁ part ps₂ L₂, L = L₁ ++ (a, ps₁ ++ part :: ps₂) :: L₂ →
      Inv (midway addr N A p st L₁ a ps₁) →
      Inv (addPart addr N A p a (midway addr N A p st L₁ a ps₁) part))
    {L₁ : List (UInt8 × List (Part n))} {a : UInt8} {ps₁ ps₂ : List (Part n)}
    {L₂ : List (UInt8 × List (Part n))} (hL : L = L₁ ++ (a, ps₁ ++ ps₂) :: L₂) :
    Inv (midway addr N A p st L₁ a ps₁) := by
  have hfold : midway addr N A p st L₁ a ps₁ =
      (L₁ ++ [(a, ps₁)]).foldl (addParts addr N A p) st := by
    rw [List.foldl_append]; rfl
  rw [hfold]
  refine foldl_addParts_inv h₀ hset fun L₁' a' ps₁' part ps₂' L₂' hL' => ?_
  rcases List.eq_nil_or_concat L₂' with rfl | ⟨L₃, x, rfl⟩
  · -- the lookup is one of the last letter
    obtain ⟨rfl, he⟩ := List.append_inj' hL' rfl
    obtain ⟨rfl, rfl⟩ := Prod.mk.inj (List.cons.inj he).1
    exact hpart L₁ a ps₁' part (ps₂' ++ ps₂) L₂ (by rw [hL]; simp)
  · rw [List.concat_eq_append, ← List.cons_append, ← List.append_assoc] at hL'
    obtain ⟨rfl, -⟩ := List.append_inj' hL' rfl
    exact hpart L₁' a' ps₁' part ps₂' (L₃ ++ (a, ps₁ ++ ps₂) :: L₂) (by rw [hL]; simp)

end

/-! ## The construction -/

section
variable {b : DRTABuilder n} {curr rest : List Ptr} {p : Ptr} {L : List (UInt8 × List (Part n))}

theorem Stored.refl {st : DRTABuilder n × List Ptr} (hI : InternedZones addr N A st.1) :
    Stored addr N A st st :=
  ⟨hI, [], (List.append_nil _).symm, (List.append_nil _).symm⟩

theorem Stored.setNextDRTA {st₀ st : DRTABuilder n × List Ptr} (h : Stored addr N A st₀ st)
    (p : Ptr) (a : UInt8) (es : List DRTATransition) :
    Stored addr N A st₀ (setNextDRTA st.1 p a es, st.2) :=
  ⟨(setNextDRTA_spec h.interned a es).1, h.grown⟩

/-- A moment of the construction: the keys are those of the states' lists. -/
theorem interned_of_reached
    (hr : Worklist.Reached (addTimedTransitions addr order N A M) (drtaStart addr N A M) b curr
      rest) : InternedZones addr N A b :=
  (linking_of_reached hr).1.interned

theorem mem_of_reached
    (hr : Worklist.Reached (addTimedTransitions addr order N A M) (drtaStart addr N A M) b curr
      (p :: rest)) : p ∈ b.states :=
  (linking_of_reached hr).2.1 p (by simp)

theorem LooksUp.interned {part : Part n} (h : LooksUp addr order N A M b part) :
    InternedZones addr N A b := by
  obtain ⟨hr, -, hL⟩ := h
  exact (midway_inv (Stored.refl (interned_of_reached hr)) (fun _ _ _ h => h.setNextDRTA _ _ _)
    (fun _ _ _ _ _ _ _ h => h.addPart (mem_of_reached hr)) hL).interned

/-- The states are interned at the start. -/
theorem found_drtaStart : Found addr (drtaStart (n := n) addr N A M).1 := by
  obtain ⟨q, b, he, -, hst, -, hself, -, hnew⟩ := drtaStart_spec addr N A n M
  have hmem : ∀ {p}, p ∈ b.states → p = q := by intro p hp; rw [hst] at hp; simpa using hp
  rw [he]
  refine ⟨fun p hp p' hp' _ => by rw [hmem hp, hmem hp'], fun p hp hnd => ?_⟩
  change (tuples (b.toOldStates p)).Nodup at hnd
  change b.toNewState (lookupKey addr (b.toOldStates p)) = some p
  rw [← (stateKey_eq_lookupKey_iff addr).2 hnd, hmem hp, hself, hnew]

/-- What holds at the start, and writing transitions and each lookup preserve, holds
    at all moments. -/
theorem Moment.inv {P : DRTABuilder n → Prop} (h₀ : P (drtaStart addr N A M).1)
    (hset : ∀ b p a es, P b → P (setNextDRTA b p a es))
    (hpart : ∀ b part curr p a, LooksUp addr order N A M b part → p ∈ b.states → P b →
      P (addPart addr N A p a (b, curr) part).1)
    (h : Moment addr order N A M b) : P b := by
  -- the body of the worklist loop, and its beginnings
  have hstep : ∀ {b : DRTABuilder n} {curr p rest} {L : List (UInt8 × List (Part n))},
      Worklist.Reached (addTimedTransitions addr order N A M) (drtaStart addr N A M) b curr
        (p :: rest) →
      linearlizeNexts (initConfs A n M) (constructNexts A (b.toOldStates p)) = some L → P b →
      P ((iterate (order p) L).foldl (addParts addr N A p) (b, curr)).1 ∧
        ∀ L₁ a ps₁ ps₂ L₂, iterate (order p) L = L₁ ++ (a, ps₁ ++ ps₂) :: L₂ →
          P (midway addr N A p (b, curr) L₁ a ps₁).1 := by
    intro b curr p rest L hr hL hb
    let Inv st := Stored addr N A (b, curr) st ∧ P st.1
    have hset' : ∀ st a es, Inv st → Inv (setNextDRTA st.1 p a es, st.2) :=
      fun _ _ _ h => ⟨h.1.setNextDRTA _ _ _, hset _ _ _ _ h.2⟩
    have hpart' : ∀ L₁ a ps₁ part ps₂ L₂,
        iterate (order p) L = L₁ ++ (a, ps₁ ++ part :: ps₂) :: L₂ →
        Inv (midway addr N A p (b, curr) L₁ a ps₁) →
        Inv (addPart addr N A p a (midway addr N A p (b, curr) L₁ a ps₁) part) := by
      intro L₁ a ps₁ part ps₂ L₂ hsplit h
      exact ⟨h.1.addPart (mem_of_reached hr), hpart _ _ _ _ _ (.part hr hL hsplit)
        (h.1.mem (mem_of_reached hr)) h.2⟩
    have hInv : Inv (b, curr) := ⟨.refl (interned_of_reached hr), hb⟩
    exact ⟨(foldl_addParts_inv hInv hset' hpart').2,
      fun L₁ a ps₁ ps₂ L₂ hsplit => (midway_inv hInv hset' hpart' hsplit).2⟩
  have hitem : ∀ {b : DRTABuilder n} {curr rest},
      Worklist.Reached (addTimedTransitions addr order N A M) (drtaStart addr N A M) b curr rest →
        P b := by
    intro b curr rest hr
    refine hr.inv (fun b _ => P b) h₀ fun b curr p rest b' curr' hr hb he => ?_
    obtain ⟨L, hL, he⟩ := Option.map_eq_some_iff.1 he
    have h := (hstep hr hL hb).1
    rw [he] at h
    exact h
  cases h with
  | item hr => exact hitem hr
  | part hr hL hsplit => exact (hstep hr hL (hitem hr)).2 _ _ _ _ _ hsplit

/-- If no lookup finds a list with repetitions, the states are interned. -/
theorem Moment.found
    (hok : ∀ (b : DRTABuilder n) part, LooksUp addr order N A M b part → LookupOk b part)
    (h : Moment addr order N A M b) : Found addr b :=
  h.inv found_drtaStart (fun _ _ _ _ hb => ⟨hb.interns, hb.find⟩)
    fun b part _ _ _ hl hp hb => hb.addPart hl.interned hp (hok b part hl)

theorem LooksUp.moment {part : Part n} (h : LooksUp addr order N A M b part) :
    Moment addr order N A M b := by
  obtain ⟨hr, hL, hsplit⟩ := h
  exact .part hr hL hsplit

/-- The states are interned at every moment, and every lookup finds the state made
    for its set, iff no lookup is of a set whose state has repetitions. -/
theorem interns_iff :
    ((∀ b : DRTABuilder n, Moment addr order N A M b → Interns b) ∧
      ∀ (b : DRTABuilder n) part, LooksUp addr order N A M b part → LookupFinds addr b part) ↔
    ∀ (b : DRTABuilder n) part, LooksUp addr order N A M b part → LookupOk b part := by
  constructor
  · rintro ⟨-, hfinds⟩ b part h
    exact (hfinds b part h).lookupOk h.interned
  · intro hok
    exact ⟨fun b h => (h.found hok).interns,
      fun b part h => (h.moment.found hok).lookupFinds (hok b part h)⟩

/-- The initial configurations are distinct if the initial states are. -/
theorem nodup_tuples_initConfs (h : A.initialStates.Nodup) : (tuples (initConfs A n M)).Nodup := by
  unfold tuples initConfs
  rw [List.map_map]
  exact h.map fun s s' he => (Prod.mk.inj he).1

/-- No lookup finds a list with repetitions if the initial states are distinct and no
    part has repetitions. -/
theorem lookupOk_of_nodup (hinit : A.initialStates.Nodup)
    (hparts : ∀ (b : DRTABuilder n) part, LooksUp addr order N A M b part → (tuples part.1).Nodup)
    {part : Part n} (h : LooksUp addr order N A M b part) : LookupOk b part := by
  have hall : ∀ p ∈ b.states, (tuples (b.toOldStates p)).Nodup := by
    refine h.moment.inv (P := fun b => ∀ p ∈ b.states, (tuples (b.toOldStates p)).Nodup) ?_
      (fun _ _ _ _ hb => hb) fun b part curr p a hl hp hb q hq => ?_
    · obtain ⟨q, b, he, -, hst, -, hself, -⟩ := drtaStart_spec addr N A n M
      rw [he]
      intro p hp
      rw [show p = q by rw [hst] at hp; simpa using hp]
      change (tuples (b.toOldStates q)).Nodup
      rw [hself]; exact nodup_tuples_initConfs hinit
    · obtain ⟨b', new, t, he, -, hg, -, -, hnew⟩ := addPart_spec hl.interned hp a curr part
      rw [he] at hq ⊢
      change q ∈ b'.states at hq
      change (tuples (b'.toOldStates q)).Nodup
      rw [hg.states] at hq
      rcases hnew with ⟨rfl, -, hold⟩ | ⟨rfl, -, -, hold⟩
      · rw [List.append_nil] at hq
        rw [hold]; exact hb q hq
      · rcases List.mem_append.1 hq with hq | hq
        · rw [hg.old_eq q hq]; exact hb q hq
        · rw [List.mem_singleton.1 hq, hold]; exact hparts b part hl
  exact fun p hp => hall p hp.1

/-! ## Termination -/

/-- There are at most as many interned states as sets. -/
theorem Interns.length_le (h : Interns b) (hnd : b.states.Nodup) {S : Finset (Ptr × DBM.Tuple)}
    (hS : ∀ p ∈ b.states, ∀ k ∈ tuples (b.toOldStates p), k ∈ S) :
    b.states.length ≤ 2 ^ S.card := by
  have hinj : Set.InjOn (fun p => (tuples (b.toOldStates p)).toFinset) b.states.toFinset := by
    intro p hp q hq hpq
    refine h p (List.mem_toFinset.1 hp) q (List.mem_toFinset.1 hq) fun k => ?_
    rw [← List.mem_toFinset, ← List.mem_toFinset]
    exact (Finset.ext_iff.1 hpq) k
  have hmaps : ∀ p ∈ b.states.toFinset, (tuples (b.toOldStates p)).toFinset ∈ S.powerset := by
    intro p hp
    rw [Finset.mem_powerset]
    intro k hk
    exact hS p (List.mem_toFinset.1 hp) k (List.mem_toFinset.1 hk)
  rw [← List.toFinset_card_of_nodup hnd, ← Finset.card_powerset]
  exact Finset.card_le_card_of_injOn _ hmaps hinj

/-- The states hold reachable configurations. -/
theorem Zones.mem_confTuples {T : Set Ptr} (h : Zones addr N A M T b) {p : Ptr}
    (hp : p ∈ b.states) {k : Ptr × DBM.Tuple} (hk : k ∈ tuples (b.toOldStates p)) :
    k ∈ confTuples A n M := by
  obtain ⟨q, hq, rfl⟩ := List.mem_map.1 hk
  obtain ⟨z, hz, hqz⟩ := h.denotes p hp q hq
  obtain ⟨q', hq', hqz'⟩ := exists_reaches (M := M) hz
  exact ⟨q', hq', (hqz'.tuple_iff hqz).2 rfl⟩

/-- The construction ends if the states are interned, there are finitely many
    configurations and no successor is initial: a state pays for a set. -/
theorem exists_toTimedMooreMachine
    (hok : ∀ (b : DRTABuilder n) part, LooksUp addr order N A M b part → LookupOk b part)
    (hfin : (confTuples A n M).Finite)
    (hA : ∀ (b : DRTABuilder n) curr p rest,
      Worklist.Reached (addTimedTransitions addr order N A M) (drtaStart addr N A M) b curr
        (p :: rest) → NoReturn A M (b.toOldStates p)) :
    ∃ fuel T, toTimedMooreMachine addr order N A n M fuel = some T := by
  obtain ⟨fuel, b, hrun⟩ : ∃ fuel b, Worklist.run (addTimedTransitions addr order N A (n := n) M)
      fuel (drtaStart addr N A M) = some b :=
    Worklist.exists_run (fun b => 2 ^ hfin.toFinset.card - b.states.length)
      fun b curr p rest hr => by
      obtain ⟨b', new, he, -, hg, -⟩ := (linking_of_reached hr).addTimedTransitions (hA _ _ _ _ hr)
      have hr' := Worklist.Reached.process hr he
      obtain ⟨hZ, -⟩ := linking_of_reached hr'
      have hle : b'.states.length ≤ 2 ^ hfin.toFinset.card :=
        (Moment.found hok (.item hr')).interns.length_le hZ.interned.nodup fun p hp k hk =>
          hfin.mem_toFinset.2 (hZ.mem_confTuples hp hk)
      refine ⟨b', curr ++ new, he, ?_⟩
      rw [hg.states] at hle ⊢
      rw [List.length_append] at hle ⊢
      rw [List.length_append]
      omega
  exact ⟨fuel, _, by rw [toTimedMooreMachine, hrun, Option.map_some]⟩

/-- For the results of `toAutomatonWithCounter` no successor is initial. -/
theorem CounterProduct.noReturn_of_reached {T : FiniteAutomaton TATransition}
    {src : Ptr → Ptr × ℕ} (hN : 0 < N) (hP : CounterProduct T.toAutomaton N A src)
    (hr : Worklist.Reached (addTimedTransitions addr order N A M) (drtaStart addr N A M) b curr
      (p :: rest)) : NoReturn A M (b.toOldStates p) := by
  obtain ⟨hZ, hmem, -⟩ := linking_of_reached hr
  refine hP.noReturn fun q hq => ?_
  obtain ⟨z, hz, hqz⟩ := hZ.denotes p (hmem p (by simp)) q hq
  rw [hqz.state]; exact (hP.wellFormed hN).mem_states hz

/-- If the construction ends, no successor is initial. -/
theorem noReturn_of_toTimedMooreMachine {fuel : ℕ} {T : MooreMachine N (UInt8 × ℚ) DRTAState}
    (h : toTimedMooreMachine addr order N A n M fuel = some T)
    (hr : Worklist.Reached (addTimedTransitions addr order N A M) (drtaStart addr N A M) b curr
      (p :: rest)) : NoReturn A M (b.toOldStates p) := by
  obtain ⟨b', hrun, -⟩ := Option.map_eq_some_iff.1 h
  obtain ⟨st, he⟩ := hr.exists_process hrun
  obtain ⟨L, hL, -⟩ := Option.map_eq_some_iff.1 he
  exact noReturn_of_linearlizeNexts hL

end

/-- **The states are interned** at every moment, each lookup finds the state made
    for its set, and the construction ends if there are finitely many reachable
    configurations, exactly if no lookup is of a set whose state was made for a list
    with repetitions, and (with finitely many configurations) no successor is
    initial.  This is for each order of the letters. -/
theorem toTimedMooreMachine_interns_iff (addr : Ptr ↪ ℕ) (order : Ptr → UInt8 → ℕ) (N : ℕ)
    (A : AutomatonWithCounter TATransition) (n : ℕ) (M : Bounds) :
    ((∀ b : DRTABuilder n, Moment addr order N A M b → Interns b) ∧
      (∀ (b : DRTABuilder n) part, LooksUp addr order N A M b part → LookupFinds addr b part) ∧
      ((confTuples A n M).Finite →
        ∃ fuel T, toTimedMooreMachine addr order N A n M fuel = some T)) ↔
    ((∀ (b : DRTABuilder n) part, LooksUp addr order N A M b part → LookupOk b part) ∧
      ((confTuples A n M).Finite → ∀ (b : DRTABuilder n) curr p rest,
        Worklist.Reached (addTimedTransitions addr order N A M) (drtaStart addr N A M) b curr
          (p :: rest) → NoReturn A M (b.toOldStates p))) := by
  rw [← and_assoc, interns_iff]
  refine and_congr_right fun hok => ?_
  constructor
  · intro hend hfin b curr p rest hr
    obtain ⟨fuel, T, h⟩ := hend hfin
    exact noReturn_of_toTimedMooreMachine h hr
  · intro hA hfin
    exact exists_toTimedMooreMachine hok hfin (hA hfin)

/-- The loop on `a` without timing, with two parallel transitions. -/
def doubleLoop : FiniteAutomaton TATransition :=
  FiniteAutomaton.loop 97 [(⟨0, [], []⟩ : TATransition), ⟨0, [], []⟩] (by decide)

/-- The second and the third state made for it hold the same set. -/
theorem toTimedMooreMachine_interns_doubleLoop : ∃ B,
    toAutomatonWithCounter (Function.Embedding.refl ℕ) 1 doubleLoop.toAutomaton 5 = some B ∧
      ∃ b : DRTABuilder 1, Moment (Function.Embedding.refl ℕ) letterOrder 1 B (.fin 1 true) b ∧
        ¬ Interns b := by
  let addr := Function.Embedding.refl ℕ
  have h : ((toAutomatonWithCounter addr 1 doubleLoop.toAutomaton 5).bind fun B =>
      (addTimedTransitions (n := 1) addr letterOrder 1 B (.fin 1 true) 0
        ((drtaStart addr 1 B (.fin 1 true)).1, [])).bind fun st₁ =>
        (addTimedTransitions addr letterOrder 1 B (.fin 1 true) 1 (st₁.1, [])).map fun st₂ =>
          decide ((drtaStart (n := 1) addr 1 B (.fin 1 true)).2 = [0] ∧ st₁.2 = [1] ∧
            1 ∈ st₂.1.states ∧ 2 ∈ st₂.1.states ∧
            (∀ k ∈ tuples (st₂.1.toOldStates 1), k ∈ tuples (st₂.1.toOldStates 2)) ∧
            ∀ k ∈ tuples (st₂.1.toOldStates 2), k ∈ tuples (st₂.1.toOldStates 1))) =
      some true := by decide +kernel
  obtain ⟨B, hB, h⟩ := Option.bind_eq_some_iff.1 h
  obtain ⟨⟨b₁, curr₁⟩, h₁, h⟩ := Option.bind_eq_some_iff.1 h
  obtain ⟨⟨b₂, curr₂⟩, h₂, h⟩ := Option.map_eq_some_iff.1 h
  obtain ⟨h₀, rfl, hm₁, hm₂, hsub₁, hsub₂⟩ := of_decide_eq_true h
  have hr₀ : Worklist.Reached (addTimedTransitions addr letterOrder 1 B (.fin 1 true))
      (drtaStart (n := 1) addr 1 B (.fin 1 true)) (drtaStart addr 1 B (.fin 1 true)).1 [] [0] := by
    rw [← h₀]; exact .refill .start
  have hr₂ := (Worklist.Reached.refill (.process hr₀ h₁)).process h₂
  refine ⟨B, hB, b₂, .item hr₂, fun hb => ?_⟩
  exact absurd (hb 1 hm₁ 2 hm₂ fun k => ⟨hsub₁ k, hsub₂ k⟩) (by decide)

end MooreFilter

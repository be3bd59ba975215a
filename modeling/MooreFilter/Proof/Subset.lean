/-
  Determinisation: the states made for sets of configurations, and the untimed
  construction.

  * `lt_maxCounter_iff` is the level of a counter;
  * `SubsetBuilder.Interned`: each state has the flag and the counter of its
    configurations, and a key finds a state made for this key;
  * `Subsets T b` is the invariant of `toMooreMachine`: the transition of a state
    leads to a state made for its targets with the initial states, but for the
    pairs in `T`, which are still to be added;
  * `toMooreMachine_terminates`, and `mem_toOldStates_stateAfter`: the state after
    a word was made for the states of the runs over its suffixes.
-/
import MooreFilter.Proof.AddCounter
import MooreFilter.Lib.Masking
import MooreFilter.Lib.SetKeys
import MooreFilter.MooreMachine
import MooreFilter.Proof.DelayLine

namespace MooreFilter

/-! ## The counter of a set -/

section
variable {Conf : Type} {N : ℕ} {isMatch : Conf → Bool} {counter : Conf → ℕ} {s : List Conf}

theorem lt_foldl_counter (hs : ∀ q ∈ s, counter q ≤ N) {m : ℕ} : ∀ {x : ℕ}, x ≤ N →
    (m < s.foldl (fun x ps => if counter ps = N then N else
        if isMatch ps then max x (counter ps) else x) x ↔
      m < x ∨ ∃ q ∈ s, (counter q = N ∨ isMatch q = true) ∧ m < counter q) := by
  induction s with
  | nil => intro x _; simp
  | cons q s ih =>
    intro x hx
    have hq := hs q (by simp)
    rw [List.foldl_cons, ih (fun q hq => hs q (by simp [hq])) (by split_ifs <;> omega)]
    simp only [List.mem_cons, exists_eq_or_imp, ← or_assoc]
    refine or_congr_left ?_
    split_ifs with h₁ h₂
    · simp only [h₁, true_or, true_and]; omega
    · simp only [h₂, or_true, true_and]; omega
    · simp [h₁, h₂]

/-- **The level of a counter**: the counter of a set exceeds `m` iff it has a
    configuration that does and is accepting or has the counter `N`. -/
theorem lt_maxCounter_iff (hs : ∀ q ∈ s, counter q ≤ N) {m : ℕ} :
    m < maxCounter N isMatch counter s ↔
      ∃ q ∈ s, (counter q = N ∨ isMatch q = true) ∧ m < counter q := by
  rw [maxCounter, lt_foldl_counter hs (Nat.zero_le N)]; simp

theorem maxCounter_le (hs : ∀ q ∈ s, counter q ≤ N) : maxCounter N isMatch counter s ≤ N := by
  by_contra hcon
  obtain ⟨q, hq, -, hlt⟩ := (lt_maxCounter_iff hs).1 (not_le.1 hcon)
  exact absurd (hs q hq) (not_le.2 hlt)

/-- The counter of a set, in the source's words: `N` if a configuration has the
    counter `N`, and otherwise the largest counter of an accepting one, or `0`. -/
theorem maxCounter_spec (isMatch : Conf → Bool) {counter : Conf → ℕ} {s : List Conf}
    (hs : ∀ q ∈ s, counter q ≤ N) :
    ((∃ q ∈ s, counter q = N) → maxCounter N isMatch counter s = N) ∧
      ((∀ q ∈ s, counter q ≠ N) →
        IsGreatest (insert 0 {m | ∃ q ∈ s, isMatch q = true ∧ counter q = m})
          (maxCounter N isMatch counter s)) := by
  have hlt : ∀ m, m < maxCounter N isMatch counter s ↔
      ∃ q ∈ s, (counter q = N ∨ isMatch q = true) ∧ m < counter q := fun m => lt_maxCounter_iff hs
  refine ⟨?_, fun hN => ⟨?_, ?_⟩⟩
  · rintro ⟨q, hq, hqN⟩
    refine le_antisymm (maxCounter_le hs) (le_of_not_gt fun hc => ?_)
    exact lt_irrefl _ ((hlt _).2 ⟨q, hq, Or.inl hqN, hqN ▸ hc⟩)
  · rcases Nat.eq_zero_or_pos (maxCounter N isMatch counter s) with h0 | hpos
    · exact Or.inl h0
    · obtain ⟨q, hq, hm, hlt'⟩ := (hlt _).1 (Nat.sub_one_lt_of_lt hpos)
      have hm := hm.resolve_left (hN q hq)
      refine Or.inr ⟨q, hq, hm, le_antisymm (le_of_not_gt fun hc => ?_) (by omega)⟩
      exact lt_irrefl _ ((hlt _).2 ⟨q, hq, Or.inr hm, hc⟩)
  · rintro m (rfl | ⟨q, hq, hm, rfl⟩)
    · exact Nat.zero_le _
    · refine le_of_not_gt fun hc => ?_
      exact lt_irrefl _ ((hlt _).2 ⟨q, hq, Or.inr hm, hc⟩)

end

/-! ## States made for sets -/

namespace SubsetBuilder
variable {State Conf Key α : Type} [DecidableEq Key] [DeterministicState State α]

/-- Each state has the flag and the counter of its configurations, and a key
    finds a state made for this key. -/
structure Interned (N : ℕ) (isMatch : Conf → Bool) (counter : Conf → ℕ) (keyOf : List Conf → Key)
    (b : SubsetBuilder State Conf Key) : Prop where
  lt : ∀ p ∈ b.states, p < b.heap.size
  nodup : b.states.Nodup
  counter_eq : ∀ p ∈ b.states, b.counter p = maxCounter N isMatch counter (b.toOldStates p)
  isMatch_eq : ∀ p ∈ b.states,
    DeterministicState.isMatch (b.heap.cell p) = (b.toOldStates p).any isMatch
  lookup : ∀ k p, b.toNewState k = some p → p ∈ b.states ∧ keyOf (b.toOldStates p) = k

variable {N : ℕ} {isMatch : Conf → Bool} {counter : Conf → ℕ} {keyOf : List Conf → Key}
  {b : SubsetBuilder State Conf Key} {mk : Bool → State}

omit [DecidableEq Key] in
theorem interned_empty :
    Interned N isMatch counter keyOf (empty mk : SubsetBuilder State Conf Key) := by
  constructor <;> simp [empty]

/-- Making a state keeps the others. -/
theorem Interned.addNewState (h : Interned N isMatch counter keyOf b)
    (hmk : ∀ m, DeterministicState.isMatch (mk m) = m) {s : List Conf} (currStates : List Ptr)
    {q : Ptr} {b' : SubsetBuilder State Conf Key} {currStates' : List Ptr}
    (he : SubsetBuilder.addNewState mk N isMatch counter (keyOf s) s (b, currStates) =
      (q, b', currStates')) :
    Interned N isMatch counter keyOf b' ∧ q ∉ b.states ∧ b'.states = b.states ++ [q] ∧
      currStates' = currStates ++ [q] ∧ b'.initialStates = b.initialStates ∧
      b'.toNewState = Function.update b.toNewState (keyOf s) (some q) ∧
      b'.toOldStates = Function.update b.toOldStates q s ∧
      b'.heap.cell = Function.update b.heap.cell q (mk (s.any isMatch)) := by
  simp only [SubsetBuilder.addNewState, Heap.makeShared, Prod.mk.injEq] at he
  obtain ⟨rfl, rfl, rfl⟩ := he
  have hq : b.heap.size ∉ b.states := fun hp => lt_irrefl _ (h.lt _ hp)
  refine ⟨?_, hq, rfl, rfl, rfl, rfl, rfl, rfl⟩
  constructor
  case lt =>
    refine forall_mem_concat hq (fun p hp _ => ?_) (Nat.lt_succ_self _)
    exact (h.lt p hp).trans (Nat.lt_succ_self _)
  case nodup => exact h.nodup.append (List.nodup_singleton _) (by simpa using hq)
  case counter_eq =>
    refine forall_mem_concat hq (fun p hp hne => ?_) ?_
    · simp only [Function.update_of_ne hne]; exact h.counter_eq p hp
    · simp only [Function.update_self]
  case isMatch_eq =>
    refine forall_mem_concat hq (fun p hp hne => ?_) ?_
    · simp only [Function.update_of_ne hne]; exact h.isMatch_eq p hp
    · simp only [Function.update_self, hmk]
  case lookup =>
    intro k p hk
    rcases eq_or_ne k (keyOf s) with rfl | hks
    · have : b.heap.size = p := by simpa using hk
      subst this; simp
    · have hk : b.toNewState k = some p := by simpa [hks] using hk
      obtain ⟨hp, hkey⟩ := h.lookup k p hk
      have hne : p ≠ b.heap.size := fun e => hq (e ▸ hp)
      exact ⟨List.mem_append_left _ hp, by simp only [Function.update_of_ne hne]; exact hkey⟩

section
variable [Alphabet α] {p₀ : Ptr}
omit [DecidableEq Key]

/-- The machine starts in its initial state. -/
theorem stateAfter_nil (h : b.initialStates = [p₀]) :
    (b.toMachine N : MooreMachine N α State).stateAfter [] = p₀ := by
  change b.initialStates.headD 0 = p₀
  rw [h]; rfl

/-- Without a transition it returns to its initial state. -/
theorem nextState_toMachine (h : b.initialStates = [p₀]) (p : Ptr) (c : α) :
    (b.toMachine N : MooreMachine N α State).nextState p c =
      (DeterministicState.next (b.heap.cell p) c).getD p₀ := by
  change (DeterministicState.next (b.heap.cell p) c).getD (b.initialStates.headD 0) = _
  rw [h]; rfl

end

end SubsetBuilder

/-! ## The untimed construction -/

/-- What the determinisations use of the automaton with counter. -/
structure AutomatonWithCounter.WellFormed {τ : Type} [Transition τ] (N : ℕ)
    (A : AutomatonWithCounter τ) : Prop where
  initial_mem : ∀ s ∈ A.initialStates, s ∈ A.states
  target_mem : ∀ s ∈ A.states, ∀ c, ∀ t ∈ A.next s c, lock t ∈ A.states
  counter_le : ∀ s ∈ A.states, A.counter s ≤ N

theorem CounterProduct.wellFormed {τ : Type} [Transition τ] {A : FiniteAutomaton τ} {N : ℕ}
    {B : AutomatonWithCounter τ} {src : Ptr → Ptr × ℕ} (hN : 0 < N)
    (h : CounterProduct A.toAutomaton N B src) : B.WellFormed N where
  initial_mem := h.initial_mem
  target_mem s hs c t ht := by
    obtain ⟨-, -, hq, -, -⟩ := h.exists_of_mem_next hs ht
    exact hq
  counter_le s hs := by rw [h.counter s hs]; exact (h.reach s hs).le hN

section
variable {addr : Ptr ↪ ℕ} {N : ℕ} {A : AutomatonWithCounter NFATransition}

theorem mem_mergedNext {s : List Ptr} {a : UInt8} {l : List Ptr}
    (h : (mergedNext A s).lookup a = some l) (q : Ptr) : q ∈ l ↔ ∃ p ∈ s, q ∈ A.next p a := by
  rw [mergedNext, AssocList.lookup_collect_flatMap s (fun p => (A.heap.cell p).nextMap)
    (fun _ l => l.map lock)] at h
  split_ifs at h
  obtain rfl := Option.some.inj h
  simp only [List.mem_flatMap, Automaton.next, NDState.next]
  refine exists_congr fun p => and_congr_right fun _ => ?_
  cases (A.heap.cell p).nextMap.lookup a <;> simp [lock]

theorem next_eq_nil_of_mergedNext {s : List Ptr} {a : UInt8}
    (h : (mergedNext A s).lookup a = none) : ∀ p ∈ s, A.next p a = [] := by
  rw [mergedNext, AssocList.lookup_collect_flatMap s (fun p => (A.heap.cell p).nextMap)
    (fun _ l => l.map lock)] at h
  split_ifs at h with hex
  intro p hp
  have hnot : a ∉ (A.heap.cell p).nextMap := fun ha => hex ⟨p, hp, ha⟩
  rw [Automaton.next, NDState.next, AList.lookup_eq_none.2 hnot]; rfl

theorem mem_withInitial {l : List Ptr} {q : Ptr} :
    q ∈ withInitial addr A l ↔ q ∈ l ∨ q ∈ A.initialStates := by
  simp [withInitial]

/-- The states made so far: their transitions lead to states made for their
    targets, but for the pairs in `T`. -/
structure Subsets (addr : Ptr ↪ ℕ) (N : ℕ) (A : AutomatonWithCounter NFATransition)
    (T : Set (Ptr × UInt8)) (b : DFABuilder) : Prop where
  interned : b.Interned N A.isMatch A.counter id
  mem : ∀ p ∈ b.states, ∀ s ∈ b.toOldStates p, s ∈ A.states
  initial : ∃ p, b.initialStates = [p] ∧ p ∈ b.states ∧ b.toOldStates p = A.initialStates
  none : ∀ p ∈ b.states, ∀ a, (mergedNext A (b.toOldStates p)).lookup a = none →
    (b.heap.cell p).nextMap a = none
  some : ∀ p ∈ b.states, ∀ a l, (mergedNext A (b.toOldStates p)).lookup a = some l → (p, a) ∉ T →
    ∃ q, (b.heap.cell p).nextMap a = some q ∧ q ∈ b.states ∧
      b.toOldStates q = withInitial addr A l

/-- The sets of states that have not got a state yet. -/
noncomputable def unmadeSets (addr : Ptr ↪ ℕ) (A : AutomatonWithCounter NFATransition)
    (b : DFABuilder) : Finset (Finset Ptr) :=
  Sorting.missing addr A.states.toFinset b.toNewState

/-- From `b` to `b'` the states `new` were made. -/
structure GrowsSets (addr : Ptr ↪ ℕ) (A : AutomatonWithCounter NFATransition) (b : DFABuilder)
    (new : List Ptr) (b' : DFABuilder) : Prop where
  states : b'.states = b.states ++ new
  old_eq : ∀ p ∈ b.states, b'.toOldStates p = b.toOldStates p
  unmade_le : (unmadeSets addr A b').card + new.length ≤ (unmadeSets addr A b).card

section
variable {T : Set (Ptr × UInt8)} {b b' b'' : DFABuilder} {new new' : List Ptr}

theorem GrowsSets.mono (h : GrowsSets addr A b new b') {p : Ptr} (hp : p ∈ b.states) :
    p ∈ b'.states := by rw [h.states]; exact List.mem_append_left _ hp

theorem GrowsSets.refl : GrowsSets addr A b [] b := ⟨by simp, fun _ _ => rfl, by simp⟩

theorem GrowsSets.trans (h : GrowsSets addr A b new b') (h' : GrowsSets addr A b' new' b'') :
    GrowsSets addr A b (new ++ new') b'' where
  states := by rw [h'.states, h.states, List.append_assoc]
  old_eq p hp := by rw [h'.old_eq p (h.mono hp), h.old_eq p hp]
  unmade_le := by
    have := h.unmade_le; have := h'.unmade_le
    rw [List.length_append]; omega

theorem card_unmadeSets_update {l : List Ptr} {q : Ptr}
    (hl : ∀ s ∈ withInitial addr A l, s ∈ A.states)
    (hnew : b.toNewState (withInitial addr A l) = Option.none)
    (hb : b'.toNewState = Function.update b.toNewState (withInitial addr A l) (Option.some q)) :
    (unmadeSets addr A b').card + 1 ≤ (unmadeSets addr A b).card := by
  unfold unmadeSets
  rw [hb]
  refine Sorting.card_missing_update (l := l ++ A.initialStates) (fun s hs => ?_) hnew
  exact List.mem_toFinset.2 (hl s (mem_withInitial.2 (List.mem_append.1 hs)))

theorem Subsets.mono {T' : Set (Ptr × UInt8)} (h : Subsets addr N A T b)
    (hT : ∀ p ∈ b.states, ∀ a l, (mergedNext A (b.toOldStates p)).lookup a = Option.some l →
      (p, a) ∈ T → (p, a) ∈ T') : Subsets addr N A T' b :=
  { h with some := fun p hp a l hl hT' => h.some p hp a l hl fun h' => hT' (hT p hp a l hl h') }

/-- Adding a transition to a state that was made for its targets. -/
theorem Subsets.setNext (h : Subsets addr N A T b) {p q : Ptr} (hq : q ∈ b.states) {a : UInt8}
    {l : List Ptr} (hl : (mergedNext A (b.toOldStates p)).lookup a = Option.some l)
    (hold : b.toOldStates q = withInitial addr A l) :
    Subsets addr N A (T \ {(p, a)}) (setNextDFA b p a q) := by
  have hcell : ∀ {p'}, p' ≠ p → (setNextDFA b p a q).heap.cell p' = b.heap.cell p' :=
    fun hne => Heap.cell_write_of_ne _ _ hne
  have hself : (setNextDFA b p a q).heap.cell p = { b.heap.cell p with
      nextMap := Function.update (b.heap.cell p).nextMap a (Option.some q) } :=
    Heap.cell_write_self _ _ _
  refine ⟨{ h.interned with isMatch_eq := fun p' hp' => ?_ }, h.mem, h.initial,
    fun p' hp' a' hl' => ?_, fun p' hp' a' l' hl' hT => ?_⟩
  · rw [show (setNextDFA b p a q).toOldStates = b.toOldStates from rfl,
      ← h.interned.isMatch_eq p' hp']
    rcases eq_or_ne p' p with rfl | hne
    · rw [hself]; rfl
    · rw [hcell hne]
  · rcases eq_or_ne p' p with rfl | hne
    · have hne : a' ≠ a := by
        rintro rfl
        rw [show (setNextDFA b p' a' q).toOldStates = b.toOldStates from rfl, hl] at hl'
        exact absurd hl' (by simp)
      rw [hself]
      exact (Function.update_of_ne hne _ _).trans (h.none p' hp' a' hl')
    · rw [hcell hne]; exact h.none p' hp' a' hl'
  · rcases eq_or_ne (p', a') (p, a) with he | hne
    · obtain ⟨rfl, rfl⟩ := Prod.mk.inj he
      obtain rfl := Option.some.inj (hl.symm.trans hl')
      exact ⟨q, by rw [hself]; exact Function.update_self .., hq, hold⟩
    · obtain ⟨q', hq', hmem, hold'⟩ := h.some p' hp' a' l' hl' fun hT' => hT ⟨hT', hne⟩
      refine ⟨q', ?_, hmem, hold'⟩
      rcases eq_or_ne p' p with rfl | hpp
      · have haa : a' ≠ a := fun e => hne (by rw [e])
        rw [hself]; exact (Function.update_of_ne haa _ _).trans hq'
      · rw [hcell hpp]; exact hq'

/-- Making a state for targets with the initial states. -/
theorem Subsets.addNew (h : Subsets addr N A T b) {l : List Ptr}
    (hl : ∀ s ∈ withInitial addr A l, s ∈ A.states) (currStates : List Ptr)
    {q : Ptr} {b' : DFABuilder} {currStates' : List Ptr}
    (he : addNewDFAState N A (withInitial addr A l) (b, currStates) = (q, b', currStates')) :
    Subsets addr N A (T ∪ {z | z.1 = q}) b' ∧ q ∉ b.states ∧ b'.states = b.states ++ [q] ∧
      currStates' = currStates ++ [q] ∧ b'.toOldStates q = withInitial addr A l ∧
      (∀ p ∈ b.states, b'.toOldStates p = b.toOldStates p) ∧
      b'.toNewState = Function.update b.toNewState (withInitial addr A l) (Option.some q) := by
  obtain ⟨hI, hq, hst, hcur, hin, hnew, hold, hcell⟩ :=
    h.interned.addNewState (s := withInitial addr A l) (fun _ => rfl) currStates he
  have hne : ∀ {p}, p ∈ b.states → p ≠ q := fun hp e => hq (e ▸ hp)
  have hmem : ∀ {p}, p ∈ b'.states → p ∈ b.states ∨ p = q := by
    intro p hp; rw [hst] at hp; simpa using hp
  have hmono : ∀ {p}, p ∈ b.states → p ∈ b'.states := fun hp => by
    rw [hst]; exact List.mem_append_left _ hp
  have hself : b'.toOldStates q = withInitial addr A l := by rw [hold, Function.update_self]
  have holdne : ∀ p ∈ b.states, b'.toOldStates p = b.toOldStates p := fun p hp => by
    rw [hold, Function.update_of_ne (hne hp)]
  refine ⟨⟨hI, fun p hp => ?_, ?_, fun p hp a hla => ?_, fun p hp a l' hla hT => ?_⟩, hq, hst, hcur,
    hself, holdne, hnew⟩
  · rcases hmem hp with hp | rfl
    · rw [holdne p hp]; exact h.mem p hp
    · rw [hself]; exact hl
  · obtain ⟨p, hp, hps, hpo⟩ := h.initial
    exact ⟨p, hin.trans hp, hmono hps, (holdne p hps).trans hpo⟩
  · rcases hmem hp with hp | rfl
    · rw [hcell, Function.update_of_ne (hne hp)]
      exact h.none p hp a (by rw [← holdne p hp]; exact hla)
    · rw [hcell, Function.update_self]
  · rcases hmem hp with hp | rfl
    · obtain ⟨q', hq', hqs, hqo⟩ := h.some p hp a l' (by rw [← holdne p hp]; exact hla)
        fun hT' => hT (Or.inl hT')
      exact ⟨q', by rw [hcell, Function.update_of_ne (hne hp)]; exact hq', hmono hqs,
        (holdne q' hqs).trans hqo⟩
    · exact absurd (Or.inr rfl) hT

/-- The body of the loop over the letters. -/
theorem Subsets.addTransition (hA : A.WellFormed N) (h : Subsets addr N A T b) {p : Ptr}
    (hp : p ∈ b.states) {a : UInt8} {l : List Ptr}
    (hl : (mergedNext A (b.toOldStates p)).lookup a = Option.some l) (currStates : List Ptr) :
    ∃ b' new, MooreFilter.addTransition addr N A p (b, currStates) ⟨a, l⟩ =
        (b', currStates ++ new) ∧
      Subsets addr N A (T \ {(p, a)} ∪ {z | z.1 ∈ new}) b' ∧ GrowsSets addr A b new b' := by
  simp only [MooreFilter.addTransition]
  cases hlk : b.toNewState (withInitial addr A l) with
  | some q =>
    obtain ⟨hq, hold⟩ := h.interned.lookup _ _ hlk
    refine ⟨setNextDFA b p a q, [], by simp, by simpa using h.setNext hq hl hold, ?_⟩
    exact ⟨by simp [setNextDFA], fun _ _ => rfl, le_rfl⟩
  | none =>
    have hsub : ∀ s ∈ withInitial addr A l, s ∈ A.states := by
      intro s hs
      rcases mem_withInitial.1 hs with hs | hs
      · obtain ⟨p', hp', hs⟩ := (mem_mergedNext hl s).1 hs
        exact hA.target_mem p' (h.mem p hp p' hp') a s hs
      · exact hA.initial_mem s hs
    obtain ⟨q, b₁, curr₁, he⟩ : ∃ q b₁ curr₁,
      addNewDFAState N A (withInitial addr A l) (b, currStates) = (q, b₁, curr₁) := ⟨_, _, _, rfl⟩
    obtain ⟨h₁, hq, hst, rfl, hself, holdne, hnew⟩ := h.addNew hsub currStates he
    have hpq : p ≠ q := fun e => hq (e ▸ hp)
    have hq₁ : q ∈ b₁.states := by rw [hst]; simp
    have h₂ := h₁.setNext (p := p) (a := a) hq₁ (by rw [holdne p hp]; exact hl) hself
    refine ⟨setNextDFA b₁ p a q, [q], by simp only [he], ?_, hst, holdne, ?_⟩
    · convert h₂ using 1
      ext ⟨p', a'⟩
      simp only [Set.mem_union, Set.mem_sdiff, Set.mem_singleton_iff, Set.mem_ofPred_eq,
        List.mem_singleton, Prod.mk.injEq]
      constructor
      · rintro (⟨hz, hne⟩ | rfl)
        exacts [⟨Or.inl hz, hne⟩, ⟨Or.inr rfl, fun e => hpq e.1.symm⟩]
      · rintro ⟨hz | hz, hne⟩
        exacts [Or.inl ⟨hz, hne⟩, Or.inr hz]
    · exact card_unmadeSets_update hsub hlk hnew

/-- The loop over the letters. -/
theorem foldl_addTransition (hA : A.WellFormed N) {p : Ptr} (es : List ((_ : UInt8) × List Ptr)) :
    ∀ {T : Set (Ptr × UInt8)} {b : DFABuilder} (currStates : List Ptr), Subsets addr N A T b →
      p ∈ b.states →
      (∀ e ∈ es, (mergedNext A (b.toOldStates p)).lookup e.1 = Option.some e.2) →
      ∃ b' new, es.foldl (MooreFilter.addTransition addr N A p) (b, currStates) =
          (b', currStates ++ new) ∧
        Subsets addr N A (T \ {z | z.1 = p ∧ z.2 ∈ es.map Sigma.fst} ∪ {z | z.1 ∈ new}) b' ∧
        GrowsSets addr A b new b' := by
  induction es with
  | nil =>
    intro T b currStates h _ _
    exact ⟨b, [], by simp, by simpa using h, .refl⟩
  | cons e es ih =>
    intro T b currStates h hp hes
    obtain ⟨b₁, new₁, he₁, h₁, hg₁⟩ := h.addTransition hA hp (hes e (by simp)) currStates
    have hold : b₁.toOldStates p = b.toOldStates p := hg₁.old_eq p hp
    obtain ⟨b₂, new₂, he₂, h₂, hg₂⟩ := ih (currStates ++ new₁) h₁ (hg₁.mono hp) fun e' he' => by
      rw [hold]; exact hes e' (by simp [he'])
    refine ⟨b₂, new₁ ++ new₂, ?_, h₂.mono ?_, hg₁.trans hg₂⟩
    · rw [List.foldl_cons, he₁, he₂, List.append_assoc]
    · intro p' _ a _ _
      simp only [Set.mem_union, Set.mem_sdiff, Set.mem_singleton_iff, Set.mem_ofPred_eq,
        Prod.mk.injEq, List.map_cons, List.mem_cons, List.mem_append]
      tauto

/-- The moments of the construction: the pending states are those whose
    transitions have not been added. -/
def Determinizing (addr : Ptr ↪ ℕ) (N : ℕ) (A : AutomatonWithCounter NFATransition)
    (b : DFABuilder) (pend : List Ptr) : Prop :=
  Subsets addr N A {z | z.1 ∈ pend} b ∧ ∀ p ∈ pend, p ∈ b.states

/-- **The body of the worklist loop** keeps the sets, and pays for the states that
    it makes. -/
theorem Determinizing.addTransitions (hA : A.WellFormed N) {p : Ptr} {rest currStates : List Ptr}
    (h : Determinizing addr N A b (p :: rest ++ currStates)) :
    ∃ b' currStates', MooreFilter.addTransitions addr N A p (b, currStates) =
        Option.some (b', currStates') ∧
      Determinizing addr N A b' (rest ++ currStates') ∧
      (unmadeSets addr A b').card + currStates'.length ≤
        (unmadeSets addr A b).card + currStates.length := by
  obtain ⟨h, hmem⟩ := h
  have hp : p ∈ b.states := hmem p (by simp)
  obtain ⟨b', new, he, h', hg⟩ := foldl_addTransition hA (mergedNext A (b.toOldStates p)).entries
    currStates h hp fun e he => AList.mem_lookup_iff.2 he
  refine ⟨b', currStates ++ new, by rw [MooreFilter.addTransitions, he], ⟨h'.mono ?_, ?_⟩, ?_⟩
  · intro p' hp' a l hl
    simp only [Set.mem_union, Set.mem_sdiff, Set.mem_ofPred_eq, List.cons_append, List.mem_cons,
      List.mem_append]
    rintro (⟨rfl | hz, hne⟩ | hz)
    · -- a letter of `p` with targets is one of the loop
      refine absurd ⟨rfl, ?_⟩ hne
      rw [hg.old_eq p' hp] at hl
      exact List.mem_map.2 ⟨⟨a, l⟩, AList.mem_lookup_iff.1 hl, rfl⟩
    · rcases hz with hz | hz
      exacts [Or.inl hz, Or.inr (Or.inl hz)]
    · exact Or.inr (Or.inr hz)
  · intro q hq
    rw [← List.append_assoc] at hq
    rcases List.mem_append.1 hq with hq | hq
    · exact hg.mono (hmem q (List.mem_cons_of_mem p hq))
    · rw [hg.states]; exact List.mem_append_right _ hq
  · have := hg.unmade_le
    rw [List.length_append]; omega

end

theorem dfaStart_determinizing (hA : A.WellFormed N) :
    Determinizing addr N A (dfaStart N A).1 (dfaStart N A).2 := by
  obtain ⟨q, b, curr, he⟩ : ∃ q b curr, addNewDFAState N A A.initialStates
    (SubsetBuilder.empty fun m => ⟨m, fun _ => none⟩, []) = (q, b, curr) := ⟨_, _, _, rfl⟩
  have hI : (SubsetBuilder.empty fun m => (⟨m, fun _ => none⟩ : DFAState) : DFABuilder).Interned N
      A.isMatch A.counter id := SubsetBuilder.interned_empty
  obtain ⟨hI, -, hst, rfl, -, -, hold, hcell⟩ := hI.addNewState (fun _ => rfl) [] he
  have hst : b.states = [q] := hst
  have hmem : ∀ {p}, p ∈ b.states → p = q := by intro p hp; rw [hst] at hp; simpa using hp
  have hself : b.toOldStates q = A.initialStates := by rw [hold, Function.update_self]
  rw [dfaStart, he]
  refine ⟨⟨{ hI with }, fun p hp => ?_, ⟨q, rfl, ?_, hself⟩, fun p hp a _ => ?_,
    fun p hp a l _ hT => ?_⟩, fun p hp => ?_⟩
  · rw [hmem hp]
    change ∀ s ∈ b.toOldStates q, _
    rw [hself]; exact hA.initial_mem
  · change q ∈ b.states; rw [hst]; simp
  · rw [hmem hp]
    change (b.heap.cell q).nextMap a = none
    rw [hcell, Function.update_self]
  · rw [hmem hp] at hT; exact absurd List.mem_cons_self hT
  · change p ∈ b.states; rw [hst]; exact hp

theorem determinizing_of_reached (hA : A.WellFormed N) {b : DFABuilder} {curr rest : List Ptr}
    (hr : Worklist.Reached (addTransitions addr N A) (dfaStart N A) b curr rest) :
    Determinizing addr N A b (rest ++ curr) := by
  refine hr.inv (Determinizing addr N A) (dfaStart_determinizing hA)
    fun b curr p rest b' curr' _ hC he => ?_
  obtain ⟨b₁, curr₁, he₁, hC₁, -⟩ := hC.addTransitions hA
  rw [he₁] at he
  obtain ⟨rfl, rfl⟩ := Prod.mk.inj (Option.some.inj he)
  exact hC₁

/-- **The untimed construction terminates.** -/
theorem toMooreMachine_terminates (addr : Ptr ↪ ℕ) (hA : A.WellFormed N) :
    ∃ fuel M, toMooreMachine addr N A fuel = some M := by
  obtain ⟨fuel, b, h⟩ : ∃ fuel b,
      Worklist.run (addTransitions addr N A) fuel (dfaStart N A) = some b := by
    refine Worklist.exists_run (fun b => (unmadeSets addr A b).card) fun b curr p rest hr => ?_
    obtain ⟨b', curr', he, -, hle⟩ := (determinizing_of_reached hA hr).addTransitions hA
    exact ⟨b', curr', he, hle⟩
  exact ⟨fuel, b.toMachine N, by rw [toMooreMachine, h]; rfl⟩

/-! ## The states after words -/

/-- A machine whose states after the words in `P` are made for the states of the
    runs over the suffixes. -/
structure TracksSuffixes {α State : Type} [Alphabet α] [DeterministicState State α] {σ : Type}
    (P : List α → Prop) (N : ℕ) (isMatch : σ → Bool) (counter : σ → ℕ) (R : List α → Set σ)
    (M : MooreMachine N α State) : Prop where
  fresh : M.IsFresh
  counter_le : ∀ x, P x → M.counter (M.stateAfter x) ≤ N
  lt_counter : ∀ x, P x → ∀ m, m < M.counter (M.stateAfter x) ↔
    ∃ q ∈ R x, (counter q = N ∨ isMatch q = true) ∧ m < counter q

/-- When no state is pending, the state after a word was made for the states of
    the runs over its suffixes. -/
theorem Subsets.mem_toOldStates_stateAfter {b : DFABuilder} (h : Subsets addr N A ∅ b)
    (x : List UInt8) :
    (b.toMachine N).stateAfter x ∈ b.states ∧
      ∀ s, s ∈ b.toOldStates ((b.toMachine N).stateAfter x) ↔
        s ∈ Masking.suffixEval A.toNFA x := by
  obtain ⟨p₀, hp₀, hps, hpo⟩ := h.initial
  induction x using List.reverseRecOn with
  | nil =>
    rw [SubsetBuilder.stateAfter_nil hp₀, hpo, Masking.suffixEval_nil]
    exact ⟨hps, fun s => Iff.rfl⟩
  | append_singleton x c ih =>
    obtain ⟨hmem, ih⟩ := ih
    rw [MooreMachine.stateAfter_append_singleton, Masking.suffixEval_append_singleton]
    set p := (b.toMachine N : MooreMachine N UInt8 DFAState).stateAfter x
    have hpost : ∀ s, s ∈ A.toNFA.stepSet (Masking.suffixEval A.toNFA x) c ↔
        ∃ q ∈ b.toOldStates p, s ∈ A.next q c := by
      intro s
      rw [NFA.mem_stepSet]
      refine exists_congr fun q => and_congr (ih q).symm ?_
      change s ∈ (A.next q c).map id ↔ _
      rw [List.map_id]
    cases hl : (mergedNext A (b.toOldStates p)).lookup c with
    | none =>
      have hnext : (b.toMachine N : MooreMachine N UInt8 DFAState).nextState p c = p₀ := by
        rw [SubsetBuilder.nextState_toMachine hp₀]
        exact congrArg (Option.getD · p₀) (h.none p hmem c hl)
      rw [hnext]
      refine ⟨hps, fun s => ?_⟩
      rw [hpo, Set.mem_union, hpost]
      have hnil := next_eq_nil_of_mergedNext hl
      constructor
      · exact Or.inl
      · rintro (hs | ⟨q, hq, hs⟩)
        · exact hs
        · rw [hnil q hq] at hs; exact absurd hs (by simp)
    | some l =>
      obtain ⟨q, hq, hqs, hqo⟩ := h.some p hmem c l hl (Set.notMem_empty _)
      have hnext : (b.toMachine N : MooreMachine N UInt8 DFAState).nextState p c = q := by
        rw [SubsetBuilder.nextState_toMachine hp₀]
        exact congrArg (Option.getD · p₀) hq
      rw [hnext]
      refine ⟨hqs, fun s => ?_⟩
      rw [hqo, mem_withInitial, mem_mergedNext hl, Set.mem_union, hpost, or_comm]
      exact Iff.rfl

/-- **The untimed machine tracks the suffixes.** -/
theorem tracksSuffixes_of_run (hA : A.WellFormed N) {fuel : ℕ} {M : MooreMachine N UInt8 DFAState}
    (h : toMooreMachine addr N A fuel = some M) :
    TracksSuffixes (fun _ => True) N A.isMatch A.counter (Masking.suffixEval A.toNFA) M := by
  obtain ⟨b, hrun, rfl⟩ := Option.map_eq_some_iff.1 h
  obtain ⟨hS, -⟩ := determinizing_of_reached hA (Worklist.reached_of_run hrun)
  have hS : Subsets addr N A ∅ b := hS.mono fun p _ a _ _ hT => absurd hT (by simp)
  have hle : ∀ p ∈ b.states, ∀ q ∈ b.toOldStates p, A.counter q ≤ N :=
    fun p hp q hq => hA.counter_le q (hS.mem p hp q hq)
  refine ⟨⟨rfl, rfl⟩, fun x _ => ?_, fun x _ m => ?_⟩ <;>
    obtain ⟨hmem, hold⟩ := hS.mem_toOldStates_stateAfter x
  · change b.counter _ ≤ N
    rw [hS.interned.counter_eq _ hmem]; exact maxCounter_le (hle _ hmem)
  · change m < b.counter _ ↔ _
    rw [hS.interned.counter_eq _ hmem, lt_maxCounter_iff (hle _ hmem)]
    exact exists_congr fun q => and_congr_left fun _ => hold q

/-! ## The sets of the states -/

/-- The states are found by their lists, which are strictly sorted. -/
structure Keyed (addr : Ptr ↪ ℕ) (b : DFABuilder) : Prop where
  lt : ∀ p ∈ b.states, p < b.heap.size
  found : ∀ p ∈ b.states, b.toNewState (b.toOldStates p) = some p
  sorted : ∀ p ∈ b.states, (b.toOldStates p).Pairwise fun s t => addr s < addr t

/-- States for the same set are the same. -/
theorem Keyed.eq_of_forall_mem (h : Keyed addr b) {p q : Ptr} (hp : p ∈ b.states)
    (hq : q ∈ b.states) (hpq : ∀ s, s ∈ b.toOldStates p ↔ s ∈ b.toOldStates q) : p = q := by
  have hlist : b.toOldStates p = b.toOldStates q := by
    have hnodup : ∀ l : List Ptr, l.Pairwise (fun s t => addr s < addr t) → l.Nodup :=
      fun l hl => hl.imp fun hlt e => absurd hlt (by rw [e]; exact lt_irrefl _)
    refine Sorting.eq_of_perm_of_pairwise addr ?_ ((h.sorted p hp).imp le_of_lt)
      ((h.sorted q hq).imp le_of_lt)
    exact (List.perm_ext_iff_of_nodup (hnodup _ (h.sorted p hp)) (hnodup _ (h.sorted q hq))).2 hpq
  have hpfound := h.found p hp
  rw [hlist, h.found q hq] at hpfound
  exact (Option.some.inj hpfound).symm

theorem Keyed.setNext (h : Keyed addr b) (p : Ptr) (a : UInt8) (q : Ptr) :
    Keyed addr (setNextDFA b p a q) := ⟨h.lt, h.found, h.sorted⟩

/-- Making a state for a list that is not found. -/
theorem Keyed.addNew (h : Keyed addr b) {l : List Ptr}
    (hl : l.Pairwise fun s t => addr s < addr t) (hnew : b.toNewState l = Option.none)
    (currStates : List Ptr) : Keyed addr (addNewDFAState N A l (b, currStates)).2.1 := by
  change Keyed addr { b with
    heap := _
    toNewState := Function.update b.toNewState l (some b.heap.size)
    toOldStates := Function.update b.toOldStates b.heap.size l
    counter := _
    states := b.states ++ [b.heap.size] }
  have hq : b.heap.size ∉ b.states := fun hp => lt_irrefl _ (h.lt _ hp)
  constructor
  case lt =>
    refine forall_mem_concat hq (fun p hp _ => ?_) (Nat.lt_succ_self _)
    exact (h.lt p hp).trans (Nat.lt_succ_self _)
  case found =>
    refine forall_mem_concat hq (fun p hp hne => ?_) ?_
    · -- the list of an old state is found, so it is another one
      have hpl : b.toOldStates p ≠ l := fun e => by
        have hp := h.found p hp
        rw [e, hnew] at hp
        exact absurd hp (by simp)
      dsimp only
      rw [Function.update_of_ne hne, Function.update_of_ne hpl, h.found p hp]
    · dsimp only
      rw [Function.update_self, Function.update_self]
  case sorted =>
    refine forall_mem_concat hq (fun p hp hne => ?_) ?_
    · dsimp only
      rw [Function.update_of_ne hne]; exact h.sorted p hp
    · dsimp only
      rw [Function.update_self]; exact hl

theorem Keyed.addTransition (h : Keyed addr b) (p : Ptr) (currStates : List Ptr)
    (nextPair : (_ : UInt8) × List Ptr) :
    Keyed addr (MooreFilter.addTransition addr N A p (b, currStates) nextPair).1 := by
  unfold MooreFilter.addTransition
  dsimp only
  cases hl : b.toNewState (withInitial addr A nextPair.2) with
  | none =>
    refine Keyed.setNext (h.addNew ?_ hl currStates) p _ _
    exact Sorting.pairwise_lt_unique (Sorting.pairwise_sortBy addr _)
  | some q => exact h.setNext p _ q

theorem Keyed.addTransitions (h : Keyed addr b) {p : Ptr} {currStates currStates' : List Ptr}
    (he : MooreFilter.addTransitions addr N A p (b, currStates) = Option.some (b', currStates')) :
    Keyed addr b' := by
  obtain rfl : _ = b' := congrArg Prod.fst (Option.some.inj he)
  exact Worklist.foldl_inv (fun st : DFABuilder × List Ptr => Keyed addr st.1) h
    fun _ nextPair _ _ hst => hst.addTransition p _ nextPair

theorem dfaStart_keyed (hinit : A.initialStates.Pairwise fun s t => addr s < addr t) :
    Keyed addr (dfaStart N A).1 := by
  have hempty : Keyed addr
      (SubsetBuilder.empty fun m => ⟨m, fun _ => Option.none⟩ : DFABuilder) := by
    constructor <;> simp [SubsetBuilder.empty]
  have h := hempty.addNew (N := N) (A := A) hinit rfl []
  exact ⟨h.lt, h.found, h.sorted⟩

theorem keyed_of_run (hinit : A.initialStates.Pairwise fun s t => addr s < addr t) {fuel : ℕ}
    (hrun : Worklist.run (MooreFilter.addTransitions addr N A) fuel (dfaStart N A) =
      Option.some b) : Keyed addr b :=
  (Worklist.reached_of_run hrun).inv (fun b _ => Keyed addr b) (dfaStart_keyed hinit)
    fun _ _ _ _ _ _ _ h he => h.addTransitions he

/-- The states are the sets of the runs over the suffixes of the words: distinct ones for
    distinct sets, with the flags and the counters of the sets. -/
structure ExactSubsets (N : ℕ) (A : AutomatonWithCounter NFATransition) (b : DFABuilder) :
    Prop where
  distinct : ∀ p ∈ b.states, ∀ q ∈ b.states, p ≠ q →
    ¬ ∀ s, s ∈ b.toOldStates p ↔ s ∈ b.toOldStates q
  reached : ∀ u, (b.toMachine N).stateAfter u ∈ b.states ∧
    ∀ s, s ∈ b.toOldStates ((b.toMachine N).stateAfter u) ↔
      ∃ i ≤ u.length, s ∈ A.toNFA.eval (u.drop i)
  isMatch : ∀ p ∈ b.states,
    (b.heap.cell p).isMatch = true ↔ ∃ s ∈ b.toOldStates p, A.isMatch s = true
  full : ∀ p ∈ b.states, (∃ s ∈ b.toOldStates p, A.counter s = N) → b.counter p = N
  greatest : ∀ p ∈ b.states, (∀ s ∈ b.toOldStates p, A.counter s ≠ N) →
    IsGreatest (insert 0 {m | ∃ s ∈ b.toOldStates p, A.isMatch s = true ∧ A.counter s = m})
      (b.counter p)

/-- **The untimed construction** is an exact subset construction, if no counter is over
    `N`. -/
theorem toMooreMachine_exact (addr : Ptr ↪ ℕ) (N : ℕ) (A : AutomatonWithCounter NFATransition)
    (hA : A.WellFormed N) (hinit : A.initialStates.Pairwise fun s t => addr s < addr t) :
    (∃ fuel M, toMooreMachine addr N A fuel = some M) ∧
      ∀ fuel M, toMooreMachine addr N A fuel = some M → ∃ b : DFABuilder,
        Worklist.run (addTransitions addr N A) fuel (dfaStart N A) = some b ∧
          M = b.toMachine N ∧ ExactSubsets N A b := by
  refine ⟨toMooreMachine_terminates addr hA, fun fuel M hM => ?_⟩
  obtain ⟨b, hrun, rfl⟩ := Option.map_eq_some_iff.1 hM
  obtain ⟨hS, -⟩ := determinizing_of_reached hA (Worklist.reached_of_run hrun)
  have hS : Subsets addr N A ∅ b := hS.mono fun p _ a _ _ hT => absurd hT (by simp)
  have hK := keyed_of_run hinit hrun
  have hspec : ∀ p ∈ b.states, _ := fun p hp =>
    maxCounter_spec A.isMatch fun q hq => hA.counter_le q (hS.mem p hp q hq)
  refine ⟨b, hrun, rfl, ⟨fun p hp q hq hne hpq => hne (hK.eq_of_forall_mem hp hq hpq),
    hS.mem_toOldStates_stateAfter, fun p hp => ?_, fun p hp => ?_, fun p hp => ?_⟩⟩
  · rw [← List.any_eq_true, ← hS.interned.isMatch_eq p hp]; rfl
  · rw [hS.interned.counter_eq p hp]; exact (hspec p hp).1
  · rw [hS.interned.counter_eq p hp]; exact (hspec p hp).2

/-- Two initial states with the counters `1` and `2`, the second one accepting. -/
def pairWithCounter : AutomatonWithCounter NFATransition where
  heap := { cell := fun p => ⟨p = 1, ∅⟩, size := 2 }
  states := [0, 1]
  initialStates := [0, 1]
  counter p := p + 1

/-- For `N = 3` the counter of their set is that of the accepting one. -/
theorem toMooreMachine_exact_pair : ∃ fuel M,
    toMooreMachine (Function.Embedding.refl ℕ) 3 pairWithCounter fuel = some M ∧
      M.counter (M.stateAfter []) = 2 := by
  have hA : pairWithCounter.WellFormed 3 :=
    ⟨fun _ => id, fun _ _ _ _ ht => absurd ht List.not_mem_nil, by decide⟩
  obtain ⟨⟨fuel, M, hM⟩, hexact⟩ := toMooreMachine_exact (Function.Embedding.refl ℕ) 3
    pairWithCounter hA (by decide)
  obtain ⟨b, -, rfl, hb⟩ := hexact fuel M hM
  obtain ⟨hp, hold⟩ := hb.reached []
  have hold : ∀ s, s ∈ b.toOldStates ((b.toMachine 3).stateAfter []) ↔ s ∈ [0, 1] := fun s =>
    (hold s).trans ⟨fun ⟨_, _, hs⟩ => by rwa [List.drop_nil] at hs, fun hs => ⟨0, le_rfl, hs⟩⟩
  refine ⟨fuel, _, hM, (hb.greatest _ hp ?_).unique
    ⟨Or.inr ⟨1, (hold 1).2 (by simp), rfl, rfl⟩, ?_⟩⟩
  · intro s hs
    rcases List.mem_pair.1 ((hold s).1 hs) with rfl | rfl <;> decide
  · rintro m (rfl | ⟨s, hs, -, rfl⟩)
    · exact Nat.zero_le _
    · rcases List.mem_pair.1 ((hold s).1 hs) with rfl | rfl <;> decide

/-- For `N = 1` the first one has the counter `N`, but the greater counter after it is taken. -/
theorem not_toMooreMachine_exact_pair :
    (pairWithCounter.initialStates.Pairwise fun s t => s < t) ∧
      ∃ b, Worklist.run (addTransitions (Function.Embedding.refl ℕ) 1 pairWithCounter) 5
          (dfaStart 1 pairWithCounter) = some b ∧
        toMooreMachine (Function.Embedding.refl ℕ) 1 pairWithCounter 5 = some (b.toMachine 1) ∧
        ∃ p ∈ b.states, (∃ s ∈ b.toOldStates p, pairWithCounter.counter s = 1) ∧
          b.counter p = 2 := by
  obtain ⟨b, hb, h⟩ := Option.map_eq_some_iff.1 (by decide +kernel :
    (Worklist.run (addTransitions (Function.Embedding.refl ℕ) 1 pairWithCounter) 5
      (dfaStart 1 pairWithCounter)).map (fun b =>
        decide (∃ p ∈ b.states, (∃ s ∈ b.toOldStates p, pairWithCounter.counter s = 1) ∧
          b.counter p = 2)) = some true)
  exact ⟨by decide, b, hb, by rw [toMooreMachine, hb]; rfl, of_decide_eq_true h⟩

end

end MooreFilter

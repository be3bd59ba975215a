/-
  The number of states that is printed (`construct_only.cc`).

  * `SetMade` are the lists that states are made for; each is the list of the state
    after some word (`SetMade.exists_stateAfter`);
  * `untimed_states`: the states of the untimed machine are those after the words, and
    words lead to the same state if the runs over their suffixes end in the same states
    with the same counters;
  * `constructOnly_untimed`: the number printed for a graph.
-/
import MooreFilter.Lib.Suffixes
import MooreFilter.Proof.Program

namespace MooreFilter

open Masking (suffixEval countedRuns)

/-! ## The initial states of the counter product -/

section
variable {τ : Type} [Transition τ]

theorem initialStates_rewriteTarget (s : Ptr) (count' : ℕ) (st : CounterBuilder τ × List Ptr)
    (i : UInt8 × ℕ) : (rewriteTarget s count' st i).1.initialStates = st.1.initialStates := by
  unfold rewriteTarget
  split
  · rfl
  · split <;> rfl

/-- The loop leaves the initial states as they are. -/
theorem initialStates_of_run {A : FiniteAutomaton τ} {N : ℕ} {addr : Ptr ↪ ℕ} {fuel : ℕ}
    {b : CounterBuilder τ}
    (h : Worklist.run (rewriteState N) fuel (counterStart addr A.toAutomaton) = some b) :
    b.initialStates = (counterStart addr A.toAutomaton).1.initialStates := by
  refine (Worklist.reached_of_run h).inv
    (fun b _ => b.initialStates = (counterStart addr A.toAutomaton).1.initialStates) rfl
    fun b curr p _ b' _ _ hb he => ?_
  obtain rfl : _ = b' := congrArg Prod.fst (Option.some.inj he)
  exact Worklist.foldl_inv (fun st : CounterBuilder τ × List Ptr =>
    st.1.initialStates = (counterStart addr A.toAutomaton).1.initialStates) hb
    fun _ i _ _ hst => (initialStates_rewriteTarget _ _ _ i).trans hst

/-- They are strictly sorted. -/
theorem pairwise_initialStates {A : FiniteAutomaton τ} (hnd : A.initialStates.Nodup) {N : ℕ}
    {addr : Ptr ↪ ℕ} {fuel : ℕ} {B : AutomatonWithCounter τ}
    (h : toAutomatonWithCounter addr N A.toAutomaton fuel = some B) {src : Ptr → Ptr × ℕ}
    (hP : CounterProduct A.toAutomaton N B src) :
    B.initialStates.Pairwise fun s t => addr s < addr t := by
  obtain ⟨b, hrun, rfl⟩ := Option.map_eq_some_iff.1 h
  have hmap : (b.initialStates.map src).Nodup :=
    hP.initial.nodup_iff.2 (hnd.map fun _ _ h => (Prod.mk.inj h).1)
  have hsorted : b.initialStates.Pairwise fun s t => addr s ≤ addr t := by
    rw [initialStates_of_run hrun]
    exact Sorting.pairwise_sortBy addr _
  refine (hsorted.and hmap.of_map).imp fun h => lt_of_le_of_ne h.1 fun e => h.2 (addr.injective e)

end

/-! ## The sets that states are made for -/

/-- The lists that states are made for, from the initial states on. -/
inductive SetMade (addr : Ptr ↪ ℕ) (A : AutomatonWithCounter NFATransition) : List Ptr → Prop
  | initial : SetMade addr A A.initialStates
  | next {s a l} : SetMade addr A s → (mergedNext A s).lookup a = some l →
      SetMade addr A (withInitial addr A l)

section
variable {addr : Ptr ↪ ℕ} {N : ℕ} {A : AutomatonWithCounter NFATransition}

/-- The states of the builder are made for such lists. -/
def MadeBy (addr : Ptr ↪ ℕ) (A : AutomatonWithCounter NFATransition) (b : DFABuilder) : Prop :=
  ∀ p ∈ b.states, SetMade addr A (b.toOldStates p)

theorem MadeBy.addTransition {b : DFABuilder} (h : MadeBy addr A b) (hK : Keyed addr b) (p : Ptr)
    (currStates : List Ptr) {nextPair : (_ : UInt8) × List Ptr}
    (hnext : SetMade addr A (withInitial addr A nextPair.2)) :
    MadeBy addr A (MooreFilter.addTransition addr N A p (b, currStates) nextPair).1 := by
  unfold MooreFilter.addTransition
  dsimp only
  cases b.toNewState (withInitial addr A nextPair.2) with
  | some q => exact h
  | none =>
    have hq : b.heap.size ∉ b.states := fun hp => lt_irrefl _ (hK.lt _ hp)
    change ∀ p ∈ b.states ++ [b.heap.size], SetMade addr A
      (Function.update b.toOldStates b.heap.size (withInitial addr A nextPair.2) p)
    refine forall_mem_concat hq (fun p hp hne => ?_) ?_
    · rw [Function.update_of_ne hne]; exact h p hp
    · rw [Function.update_self]; exact hnext

/-- The body of the worklist loop keeps this. -/
theorem MadeBy.addTransitions {b b' : DFABuilder} (h : MadeBy addr A b) (hK : Keyed addr b)
    {p : Ptr} (hp : p ∈ b.states) {currStates currStates' : List Ptr}
    (he : MooreFilter.addTransitions addr N A p (b, currStates) = some (b', currStates')) :
    MadeBy addr A b' := by
  obtain rfl : _ = b' := congrArg Prod.fst (Option.some.inj he)
  refine (Worklist.foldl_inv
    (fun st : DFABuilder × List Ptr => Keyed addr st.1 ∧ MadeBy addr A st.1)
    ⟨hK, h⟩ fun l₁ nextPair l₂ hl hst => ⟨hst.1.addTransition p _ nextPair, ?_⟩).2
  have hentry : nextPair ∈ (mergedNext A (b.toOldStates p)).entries :=
    hl ▸ List.mem_append_right l₁ List.mem_cons_self
  have hlookup : (mergedNext A (b.toOldStates p)).lookup nextPair.1 = some nextPair.2 :=
    AList.mem_lookup_iff.2 hentry
  exact hst.2.addTransition hst.1 p _ (.next (h p hp) hlookup)

theorem dfaStart_madeBy : MadeBy addr A (dfaStart N A).1 := by
  intro p hp
  obtain rfl : p = 0 := List.mem_singleton.1 hp
  exact .initial

theorem madeBy_of_run (hA : A.WellFormed N)
    (hinit : A.initialStates.Pairwise fun s t => addr s < addr t) {fuel : ℕ} {b : DFABuilder}
    (hrun : Worklist.run (addTransitions addr N A) fuel (dfaStart N A) = some b) :
    MadeBy addr A b := by
  refine ((Worklist.reached_of_run hrun).inv (fun b _ => Keyed addr b ∧ MadeBy addr A b)
    ⟨dfaStart_keyed hinit, dfaStart_madeBy⟩ fun b curr p rest b' curr' hr h he => ?_).2
  have hp : p ∈ b.states := (determinizing_of_reached hA hr).2 p (by simp)
  exact ⟨h.1.addTransitions he, h.2.addTransitions h.1 hp he⟩

/-- Each list is that of the state after some word. -/
theorem SetMade.exists_stateAfter {b : DFABuilder} (h : Subsets addr N A ∅ b) {s : List Ptr}
    (hs : SetMade addr A s) : ∃ u : List UInt8,
      b.toOldStates ((b.toMachine N : MooreMachine N UInt8 DFAState).stateAfter u) = s := by
  obtain ⟨p₀, hp₀, -, hpo⟩ := h.initial
  induction hs with
  | initial => exact ⟨[], by rw [SubsetBuilder.stateAfter_nil hp₀, hpo]⟩
  | @next s a l _ hl ih =>
    obtain ⟨u, rfl⟩ := ih
    obtain ⟨hmem, -⟩ := h.mem_toOldStates_stateAfter u
    obtain ⟨q, hq, -, hqo⟩ := h.some _ hmem a l hl (Set.notMem_empty _)
    have hnext : (b.toMachine N : MooreMachine N UInt8 DFAState).nextState
        ((b.toMachine N).stateAfter u) a = q := by
      rw [SubsetBuilder.nextState_toMachine hp₀]
      exact congrArg (Option.getD · p₀) hq
    exact ⟨u ++ [a], by rw [MooreMachine.stateAfter_append_singleton, hnext, hqo]⟩

/-- **The states of the machine** are those after the words, one for each set of the states
    of the runs over the suffixes. -/
theorem states_toMooreMachine (hA : A.WellFormed N)
    (hinit : A.initialStates.Pairwise fun s t => addr s < addr t) {fuel : ℕ}
    {M : MooreMachine N UInt8 DFAState} (h : toMooreMachine addr N A fuel = some M) :
    M.states.Nodup ∧ (∀ p, p ∈ M.states ↔ ∃ u, M.stateAfter u = p) ∧
      ∀ u v, M.stateAfter u = M.stateAfter v ↔ suffixEval A.toNFA u = suffixEval A.toNFA v := by
  obtain ⟨b, hrun, rfl⟩ := Option.map_eq_some_iff.1 h
  obtain ⟨hS, -⟩ := determinizing_of_reached hA (Worklist.reached_of_run hrun)
  have hS : Subsets addr N A ∅ b := hS.mono fun p _ a _ _ hT => absurd hT (by simp)
  have hK := keyed_of_run hinit hrun
  refine ⟨hS.interned.nodup, fun p => ⟨fun hp => ?_, ?_⟩, fun u v => ⟨fun he => ?_, fun he => ?_⟩⟩
  · obtain ⟨u, hu⟩ := (madeBy_of_run hA hinit hrun p hp).exists_stateAfter hS
    exact ⟨u, hK.eq_of_forall_mem (hS.mem_toOldStates_stateAfter u).1 hp fun s => by rw [hu]⟩
  · rintro ⟨u, rfl⟩
    exact (hS.mem_toOldStates_stateAfter u).1
  · ext s
    rw [← (hS.mem_toOldStates_stateAfter u).2, ← (hS.mem_toOldStates_stateAfter v).2, he]
  · refine hK.eq_of_forall_mem (hS.mem_toOldStates_stateAfter u).1
      (hS.mem_toOldStates_stateAfter v).1 fun s => ?_
    rw [(hS.mem_toOldStates_stateAfter u).2, (hS.mem_toOldStates_stateAfter v).2, he]

end

/-! ## The untimed machine -/

/-- States that are those after the words are as many as there are values that tell the
    words apart as they do. -/
theorem MooreMachine.length_states {N : ℕ} {α State β : Type} [Alphabet α]
    [DeterministicState State α] {M : MooreMachine N α State} (hnd : M.states.Nodup)
    (hmem : ∀ p, p ∈ M.states ↔ ∃ u, M.stateAfter u = p) {f : List α → β}
    (hf : ∀ u v, M.stateAfter u = M.stateAfter v ↔ f u = f v) :
    M.states.length = (Set.range f).ncard := by
  classical
  rw [← List.toFinset_card_of_nodup hnd, ← Set.ncard_coe_finset]
  choose! word hword using fun p => (hmem p).1
  refine Set.ncard_congr (fun p _ => f (word p)) (fun p _ => ⟨_, rfl⟩) (fun p q hp hq he => ?_) ?_
  · rw [← hword p (List.mem_toFinset.1 hp), ← hword q (List.mem_toFinset.1 hq)]
    exact (hf _ _).2 he
  · rintro _ ⟨u, rfl⟩
    have hu : M.stateAfter u ∈ M.states := (hmem _).2 ⟨u, rfl⟩
    exact ⟨M.stateAfter u, List.mem_toFinset.2 hu, (hf _ _).1 (hword _ hu)⟩

theorem iterate_nextCount_mem {N : ℕ} (hN : 0 < N) (k : ℕ) :
    (nextCount N)^[k + 1] 0 ∈ Finset.Icc 1 N := by
  have hlt := Nat.mod_lt k hN
  rw [iterate_nextCount N k hN, Finset.mem_Icc]
  omega

theorem mem_states_of_mem_eval {A : FiniteAutomaton NFATransition} (u : List UInt8) :
    ∀ s ∈ A.toAutomaton.toNFA.eval u, s ∈ A.states := by
  induction u using List.reverseRecOn with
  | nil => exact fun s hs => A.initial_mem s hs
  | append_singleton u c ih =>
    intro s hs
    rw [NFA.eval_append_singleton] at hs
    obtain ⟨s', hs', hstep⟩ := NFA.mem_stepSet.1 hs
    obtain ⟨t, ht, rfl⟩ := List.mem_map.1 hstep
    exact A.target_mem s' (ih s' hs') c t ht

section
variable {A : FiniteAutomaton NFATransition} {N : ℕ}

/-- The states of the untimed machine are those of the words with different runs over the
    suffixes. -/
theorem states_constructFilter (hnd : A.initialStates.Nodup) (hN : 0 < N) {addr : Ptr ↪ ℕ}
    {fuel : ℕ} {M : MooreMachine N UInt8 DFAState}
    (h : constructFilter addr N A.toAutomaton fuel = some M) :
    M.states.Nodup ∧ (∀ p, p ∈ M.states ↔ ∃ u, M.stateAfter u = p) ∧
      ∀ u v, M.stateAfter u = M.stateAfter v ↔
        countedRuns A.toNFA (nextCount N) u = countedRuns A.toNFA (nextCount N) v := by
  obtain ⟨B, hB, hM⟩ := Option.bind_eq_some_iff.1 h
  obtain ⟨src, hP⟩ := counterProduct_of_run hN hB
  obtain ⟨hnodup, hmem, heq⟩ :=
    states_toMooreMachine (hP.wellFormed hN) (pairwise_initialStates hnd hB hP) hM
  -- a state of the product is known by its pair
  have hinj : Set.InjOn (fun q => ((src q).1, B.counter q)) {p | p ∈ B.states} := by
    intro p hp q hq he
    dsimp only at he
    rw [hP.counter p hp, hP.counter q hq] at he
    exact hP.inj hnd hp hq he
  exact ⟨hnodup, hmem, fun u v =>
    (heq u v).trans (hP.isProduct.suffixEval_eq_iff hinj u v)⟩

theorem length_states_constructFilter (hnd : A.initialStates.Nodup) (hN : 0 < N) {addr : Ptr ↪ ℕ}
    {fuel : ℕ} {M : MooreMachine N UInt8 DFAState}
    (h : constructFilter addr N A.toAutomaton fuel = some M) :
    M.states.length = (Set.range (countedRuns A.toNFA (nextCount N))).ncard := by
  obtain ⟨hnodup, hmem, htell⟩ := states_constructFilter hnd hN h
  exact MooreMachine.length_states hnodup hmem htell

theorem ncard_range_countedRuns_nextCount_le (A : FiniteAutomaton NFATransition) (hN : 0 < N) :
    (Set.range (countedRuns A.toNFA (nextCount N))).ncard ≤ 2 ^ (A.states.toFinset.card * N) :=
  Masking.ncard_range_countedRuns_le
    (fun u s hs => List.mem_toFinset.2 (mem_states_of_mem_eval u s hs)) (iterate_nextCount_mem hN)

end

/-- **The states of the untimed machine** are those after the words, and two words lead to
    the same state iff the runs over their suffixes end in the same states, with the same
    counters.  There are at most `2 ^ (|A| * N)`. -/
theorem untimed_states (A : FiniteAutomaton NFATransition) (hnd : A.initialStates.Nodup) (N : ℕ)
    (hN : 0 < N) (addr : Ptr ↪ ℕ) (fuel : ℕ) (M : MooreMachine N UInt8 DFAState)
    (h : constructFilter addr N A.toAutomaton fuel = some M) :
    (∀ p, p ∈ M.states ↔ ∃ u, M.stateAfter u = p) ∧
      (∀ u v, M.stateAfter u = M.stateAfter v ↔
        countedRuns A.toNFA (nextCount N) u = countedRuns A.toNFA (nextCount N) v) ∧
      M.states.Nodup ∧ M.states.length ≤ 2 ^ (A.states.toFinset.card * N) := by
  obtain ⟨hnodup, hmem, htell⟩ := states_constructFilter hnd hN h
  refine ⟨hmem, htell, hnodup, ?_⟩
  rw [length_states_constructFilter hnd hN h]
  exact ncard_range_countedRuns_nextCount_le A hN

/-- The machine for the loop on `a` has at most two states. -/
theorem untimed_states_aLoop : ∃ fuel M,
    constructFilter (Function.Embedding.refl ℕ) 1 aLoop.toAutomaton fuel = some M ∧
      M.states.length ≤ 2 := by
  obtain ⟨fuel, M, hM⟩ := constructFilter_terminates (A := aLoop) one_pos
    (Function.Embedding.refl ℕ)
  have h := untimed_states aLoop (by decide) 1 one_pos (Function.Embedding.refl ℕ) fuel M hM
  exact ⟨fuel, M, hM, h.2.2.2.trans (by decide)⟩

/-! ## The number that is printed -/

/-- The vertices at the ends of the paths over the suffixes, with the counters of the
    lengths of the paths. -/
def BoostGraph.countedPaths {ε : Type} (G : BoostGraph ε) (label : ε → UInt8) (N : ℕ)
    (u : List UInt8) : Set (ℕ × ℕ) :=
  {x | ∃ i ≤ u.length, G.Path label (u.drop i) x.1 ∧ x.2 = (nextCount N)^[u.length - i] 0}

theorem nodup_initialStates_convBoostNFA (G : BoostTimedAutomaton) :
    (convBoostNFA G).initialStates.Nodup := by
  have hstates : ∀ vertices : List BoostTAState, (convStates vertices).initialStates.Nodup := by
    intro vertices
    induction vertices using List.reverseRecOn with
    | nil => exact List.nodup_nil
    | append_singleton vertices v ih =>
      obtain ⟨hS, -⟩ := statesFor_convStates vertices
      unfold convStates
      rw [List.foldl_append]
      change (if v.isInit then (convStates vertices).initialStates ++
        [(convStates vertices).heap.size] else (convStates vertices).initialStates).Nodup
      split_ifs
      · refine ih.append (List.nodup_singleton _) fun p hp hp' => ?_
        rw [List.mem_singleton.1 hp', hS.size] at hp
        exact lt_irrefl _ (hS.initial _ hp)
      · exact ih
  change (nfaLoop G).initialStates.Nodup
  rw [(erased_nfaLoop G).initialStates, (convLoop_states G).1]
  exact hstates _

/-- **The untimed `construct_only`** ends, and prints the number of the sets of vertices
    with counters that the words lead to. -/
theorem constructOnly_untimed (files : String → Option DotGraph) (N : ℕ) (hN : 0 < N)
    (addr : Ptr ↪ ℕ) (order : Ptr → UInt8 → ℕ) (opts : Options) (hopts : opts.Runs false)
    (D : DotGraph) (hfile : files opts.automatonFileName = some D) (G : BoostTimedAutomaton)
    (hD : parseBoostTA D = some G) :
    (∃ fuel r, constructOnly files N addr order fuel opts = some r) ∧
      ∀ fuel r, constructOnly files N addr order fuel opts = some r →
        ∃ n, r = .run n ∧ n = (Set.range (D.countedPaths DotTransition.label N)).ncard ∧
          n ≤ 2 ^ (D.vertices.length * N) := by
  have hmain : ∀ fuel, constructOnly files N addr order fuel opts =
      ((constructFilter addr N (convBoostNFA G).toAutomaton fuel).map fun M =>
        M.states.length).map .run := fun _ => dispatch_eq hopts hfile hD _ _
  refine ⟨?_, fun fuel r hr => ?_⟩
  · obtain ⟨fuel, M, hM⟩ := constructFilter_terminates (A := convBoostNFA G) hN addr
    exact ⟨fuel, _, (hmain fuel).trans (by rw [hM]; rfl)⟩
  · rw [hmain, Option.map_map] at hr
    obtain ⟨M, hM, rfl⟩ := Option.map_eq_some_iff.1 hr
    have hlen := length_states_constructFilter (nodup_initialStates_convBoostNFA G) hN hM
    have hle := ncard_range_countedRuns_nextCount_le (convBoostNFA G) hN
    have hpaths : countedRuns (convBoostNFA G).toNFA (nextCount N) =
        D.countedPaths DotTransition.label N := by
      ext u x
      refine exists_congr fun i => and_congr_right fun _ => and_congr_left fun _ => ?_
      exact mem_eval_convBoostNFA_iff.trans (path_parseBoostTA_iff hD).symm
    have hcard : (convBoostNFA G).states.toFinset.card = D.vertices.length := by
      have hstates : (convBoostNFA G).states = List.range G.vertices.length := by
        change (nfaLoop G).states = _
        rw [(erased_nfaLoop G).states]
        exact (edgesAdded_convLoop G).statesFor.states
      rw [List.toFinset_card_of_nodup (hstates ▸ List.nodup_range), hstates, List.length_range,
        (parseBoostTA_eq_some hD).1]
    rw [hpaths] at hlen hle
    rw [hcard] at hle
    exact ⟨_, rfl, hlen, hlen.le.trans hle⟩

/-- It prints a number for the graph. -/
theorem constructOnly_untimed_apartGraph : ∃ fuel r,
    constructOnly (fun _ => some apartGraph) 1 (Function.Embedding.refl ℕ) letterOrder fuel
      ⟨"nfa.dot", false, false, false, false, false⟩ = some r := by
  obtain ⟨G, hG, -⟩ := parseBoostTA_apartGraph
  exact (constructOnly_untimed (fun _ => some apartGraph) 1 one_pos (Function.Embedding.refl ℕ)
    letterOrder ⟨"nfa.dot", false, false, false, false, false⟩
    ⟨by decide, rfl, rfl, rfl, fun h => absurd h (by decide)⟩ apartGraph rfl G hG).1

end MooreFilter

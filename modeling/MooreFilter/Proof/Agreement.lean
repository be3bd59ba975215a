/-
  Automata without timing: the timed and the untimed machine.

  * `Untimed T A`: the timed automaton `T` is the NFA `A` with empty guards and
    resets;
  * `Zone.duration_nil`: without a guard all positive delays are allowed, so that
    there is one part for a letter;
  * `Zones.states_stateAfter`: the timed machine's state after a word holds the
    states of the runs over the suffixes, whatever the delays;
  * `filters_agree`: the two filters mask the same positions.
-/
import MooreFilter.Proof.Timed

namespace MooreFilter

open Difference (Sat)
open Masking (suffixEval suffixEval_nil suffixEval_append_singleton lastBlock)

variable {n : ℕ} {addr : Ptr ↪ ℕ} {N : ℕ} {A : FiniteAutomaton NFATransition}
  {T : FiniteAutomaton TATransition} {B : AutomatonWithCounter TATransition} {M : Bounds}

/-- The timed automaton `T` is the NFA `A`, with empty guards and resets. -/
structure Untimed (T : FiniteAutomaton TATransition) (A : FiniteAutomaton NFATransition) :
    Prop where
  states : T.states = A.states
  initialStates : T.initialStates = A.initialStates
  isMatch : ∀ s ∈ A.states, T.isMatch s = A.isMatch s
  next : ∀ s ∈ A.states, ∀ c, T.next s c = (A.next s c).map fun t => ⟨t, [], []⟩

/-! ## Transitions without a guard -/

namespace Zone

/-- There is a valuation of the zone after each positive delay. -/
theorem exists_delayed (Z : Zone n) {t : ℚ} (ht : 0 < t) :
    ∃ w, Sat Z.elapse.bound w ∧ Sat Z.bound (Function.update w 0 (w 0 + t)) := by
  obtain ⟨v, hv⟩ := Z.closed.exists_sat
  have hw : Function.update (Function.update v 0 (v 0 - t)) 0
      (Function.update v 0 (v 0 - t) 0 + t) = v := by
    rw [Function.update_self, sub_add_cancel, Function.update_idem, Function.update_eq_self]
  refine ⟨Function.update v 0 (v 0 - t), (Z.closed.sat_elapse_iff _).2 ⟨t, ht, ?_⟩, ?_⟩ <;>
    · rw [hw]; exact hv

theorem duration_nil (Z : Zone n) : Z.duration [] = (.fin 0 false, .inf) := by
  have h : ∀ t, 0 < t → (Z.duration []).1.Holds (-t) ∧ (Z.duration []).2.Holds t := by
    intro t ht
    obtain ⟨w, -, hw⟩ := Z.exists_delayed ht
    exact Z.holds_duration ht hw (by simp)
  have hle := Z.duration_lower_le []
  generalize Z.duration [] = d at h hle
  obtain ⟨l, u⟩ := d
  refine Prod.ext (le_antisymm hle ?_) ?_
  · rcases l with ⟨c, s⟩ | _
    · rw [Bound.fin_le_fin]
      rcases lt_trichotomy 0 c with hc | rfl | hc
      · exact Or.inl hc
      · exact Or.inr ⟨rfl, Bool.false_le _⟩
      · have hhalf := (h (-c / 2) (by linarith)).1.mono (Bound.fin_le_closed c s)
        have : -(-c / 2) ≤ c := hhalf
        linarith
    · exact Bound.le_inf _
  · rcases u with ⟨c, s⟩ | _
    · have hbig := (h (|c| + 1) (by positivity)).2.mono (Bound.fin_le_closed c s)
      have : |c| + 1 ≤ c := hbig
      linarith [le_abs_self c]
    · rfl

theorem exists_succ_of_guard_nil (Z : Zone n) {tr : TATransition} (hg : tr.guard = []) :
    ∃ Z', Succ tr Z Z' :=
  ⟨_, Z.elapse, fun w => by unfold Guarded; rw [hg]; simp, rfl⟩

end Zone

/-- The transitions of the timed automaton have no guards. -/
theorem Untimed.guard_nil {src : Ptr → Ptr × ℕ} (hTA : Untimed T A)
    (hP : CounterProduct T.toAutomaton N B src) {s : Ptr} (hs : s ∈ B.states) {c : UInt8}
    {tr : TATransition} (htr : tr ∈ B.next s c) : tr.guard = [] := by
  obtain ⟨t, ht, -, -, he⟩ := hP.exists_of_mem_next hs htr
  rw [hTA.next _ (hTA.states ▸ (hP.reach s hs).mem)] at ht
  obtain ⟨q, -, rfl⟩ := List.mem_map.1 ht
  rw [he]; rfl

/-- A transition without a guard has an entry for all positive delays. -/
theorem exists_successor_of_guard_nil {p : Conf n} {z : ZConf n} (h : p.Denotes M z)
    {tr : TATransition} (hg : tr.guard = []) :
    ∃ e, successor p.2 tr = some e ∧ e.conf.1 = lock tr ∧ e.lowerBound = .fin 0 false ∧
      e.upperBound = .inf := by
  rcases successor_cases h.zone tr with ⟨D', Z', -, -, -, he⟩ | ⟨hnone, -⟩
  · rw [hg, Zone.duration_nil] at he
    exact ⟨_, he, rfl, rfl, rfl⟩
  · obtain ⟨Z', hZ'⟩ := z.2.exists_succ_of_guard_nil hg
    exact absurd hZ' (hnone Z')

/-! ## The states after words -/

theorem exists_mem_initConfs_iff (n : ℕ) (M : Bounds) {s : Ptr} :
    (∃ q ∈ initConfs B n M, q.1 = s) ↔ s ∈ B.initialStates := by
  constructor
  · rintro ⟨q, hq, rfl⟩; exact (mem_initConfs.1 hq).1
  · intro hs; exact ⟨(s, { DBM.zero n with M := M }), mem_initConfs.2 ⟨hs, rfl⟩, rfl⟩

section
variable {b : DRTABuilder n} {src : Ptr → Ptr × ℕ}

/-- The configurations of the timed machine have no guards, so that their entries
    are for all positive delays. -/
theorem Zones.exists_successor (hTA : Untimed T A) (hN : 0 < N)
    (hP : CounterProduct T.toAutomaton N B src) (h : Zones addr N B M ∅ b) {p : Ptr}
    (hp : p ∈ b.states) {q : Conf n} (hq : q ∈ b.toOldStates p) {c : UInt8} {tr : TATransition}
    (htr : tr ∈ B.next q.1 c) :
    ∃ e, successor q.2 tr = some e ∧ e.conf.1 = lock tr ∧ e.lowerBound = .fin 0 false ∧
      e.upperBound = .inf := by
  obtain ⟨z, hz, hqz⟩ := h.denotes p hp q hq
  have hqB : q.1 ∈ B.states := hqz.state ▸ (hP.wellFormed hN).mem_states hz
  exact exists_successor_of_guard_nil hqz (hTA.guard_nil hP hqB htr)

/-- The entries of a letter: they are for all positive delays, and lead to the
    targets of the transitions. -/
theorem Zones.constructNexts_untimed (hTA : Untimed T A) (hN : 0 < N)
    (hP : CounterProduct T.toAutomaton N B src) (h : Zones addr N B M ∅ b) {p : Ptr}
    (hp : p ∈ b.states) {c : UInt8} {es : List (Entry n)}
    (hes : (constructNexts B (b.toOldStates p)).lookup c = some es) :
    (∀ e ∈ es, e.lowerBound = .fin 0 false ∧ e.upperBound = .inf) ∧
      ∀ s, (∃ e ∈ es, e.conf.1 = s) ↔
        ∃ q ∈ b.toOldStates p, ∃ tr ∈ B.next q.1 c, lock tr = s := by
  have hentry : ∀ e ∈ es, ∃ q ∈ b.toOldStates p, ∃ tr ∈ B.next q.1 c, lock tr = e.conf.1 ∧
      e.lowerBound = .fin 0 false ∧ e.upperBound = .inf := by
    intro e he
    obtain ⟨q, hq, tr, htr, he⟩ := (mem_constructNexts hes e).1 he
    obtain ⟨e', he', hlock, hl, hu⟩ := h.exists_successor hTA hN hP hp hq htr
    obtain rfl := Option.some.inj (he'.symm.trans he)
    exact ⟨q, hq, tr, htr, hlock.symm, hl, hu⟩
  refine ⟨fun e he => ?_, fun s => ⟨?_, ?_⟩⟩
  · obtain ⟨-, -, -, -, -, hl, hu⟩ := hentry e he
    exact ⟨hl, hu⟩
  · rintro ⟨e, he, rfl⟩
    obtain ⟨q, hq, tr, htr, hlock, -⟩ := hentry e he
    exact ⟨q, hq, tr, htr, hlock⟩
  · rintro ⟨q, hq, tr, htr, rfl⟩
    obtain ⟨e, he, hlock, -⟩ := h.exists_successor hTA hN hP hp hq htr
    exact ⟨e, (mem_constructNexts hes e).2 ⟨q, hq, tr, htr, he⟩, hlock⟩

/-- One event, with any delay. -/
theorem Zones.states_nextState (hTA : Untimed T A) (hN : 0 < N)
    (hP : CounterProduct T.toAutomaton N B src) (h : Zones addr N B M ∅ b) {p : Ptr}
    (hp : p ∈ b.states) (c : UInt8 × ℚ) :
    (b.toMachine N).nextState p c ∈ b.states ∧
      ∀ s, (∃ q ∈ b.toOldStates ((b.toMachine N).nextState p c), q.1 = s) ↔
        s ∈ B.initialStates ∨ ∃ q ∈ b.toOldStates p, ∃ tr ∈ B.next q.1 c.1, lock tr = s := by
  rcases h.nextState_cases hp c with ⟨hnil, hmem, hold⟩ | ⟨es, parts, hes, hparts, hmade⟩
  · refine ⟨hmem, fun s => ?_⟩
    rw [hold, exists_mem_initConfs_iff]
    refine ⟨Or.inl, fun hs => hs.resolve_right ?_⟩
    rintro ⟨q, hq, tr, htr, -⟩
    rw [hnil q hq] at htr
    exact absurd htr (by simp)
  · -- the entries are for all positive delays: there is one part
    obtain ⟨halways, hstates⟩ := h.constructNexts_untimed hTA hN hP hp hes
    rw [linearlize_of_always fun e he => ⟨(halways e he).1, (halways e he).2,
      not_initial_of_linearlize hparts e he⟩] at hparts
    obtain rfl := Option.some.inj hparts
    obtain ⟨hnext, htup⟩ := hmade _ (partAt_infinity _ c.2)
    refine ⟨hnext, fun s => ?_⟩
    rw [← exists_mem_tuples (P := fun p => p = s)]
    simp only [htup]
    rw [exists_mem_tuples (P := fun p => p = s), ← exists_mem_initConfs_iff n M, ← hstates]
    simp only [List.mem_append, List.mem_map, or_and_right, exists_or, exists_exists_and_eq_and]

/-- The state after a word holds the states of the runs over the suffixes. -/
theorem Zones.states_stateAfter (hTA : Untimed T A) (hN : 0 < N)
    (hP : CounterProduct T.toAutomaton N B src) (h : Zones addr N B M ∅ b)
    (x : List (UInt8 × ℚ)) :
    (b.toMachine N).stateAfter x ∈ b.states ∧
      ∀ s, (∃ q ∈ b.toOldStates ((b.toMachine N).stateAfter x), q.1 = s) ↔
        s ∈ suffixEval B.toNFA (x.map Prod.fst) := by
  obtain ⟨p₀, hp₀, hps, hpo⟩ := h.initial
  induction x using List.reverseRecOn with
  | nil =>
    rw [SubsetBuilder.stateAfter_nil hp₀, hpo, List.map_nil, suffixEval_nil]
    exact ⟨hps, fun s => exists_mem_initConfs_iff n M⟩
  | append_singleton x c ih =>
    obtain ⟨hmem, ih⟩ := ih
    obtain ⟨hmem', hnext⟩ := h.states_nextState hTA hN hP hmem c
    rw [MooreMachine.stateAfter_append_singleton, List.map_append, List.map_singleton,
      suffixEval_append_singleton]
    refine ⟨hmem', fun s => (hnext s).trans (or_congr Iff.rfl ?_)⟩
    rw [NFA.mem_stepSet]
    constructor
    · rintro ⟨q, hq, tr, htr, rfl⟩
      exact ⟨q.1, (ih q.1).1 ⟨q, hq, rfl⟩, List.mem_map.2 ⟨tr, htr, rfl⟩⟩
    · rintro ⟨s', hs', hstep⟩
      obtain ⟨q, hq, rfl⟩ := (ih s').2 hs'
      obtain ⟨tr, htr, rfl⟩ := List.mem_map.1 hstep
      exact ⟨q, hq, tr, htr, rfl⟩

end

/-! ## The two machines -/

/-- The counter product of the timed automaton is a product of the NFA. -/
theorem Untimed.isProduct {src : Ptr → Ptr × ℕ} (hTA : Untimed T A)
    (hP : CounterProduct T.toAutomaton N B src) :
    Masking.IsProduct B.toNFA A.toAutomaton.toNFA (nextCount N) (fun p => (src p).1) B.counter
      {p | p ∈ B.states} := by
  have hmem : ∀ p ∈ B.states, (src p).1 ∈ A.states := fun p hp => hTA.states ▸ (hP.reach p hp).mem
  have hstep : ∀ p ∈ B.states, ∀ a, T.toAutomaton.toNFA.step (src p).1 a =
      A.toAutomaton.toNFA.step (src p).1 a := by
    intro p hp a
    ext s
    change s ∈ (T.next (src p).1 a).map lock ↔ s ∈ (A.next (src p).1 a).map lock
    rw [hTA.next _ (hmem p hp), List.map_map]
    rfl
  have hprod := hP.isProduct
  refine ⟨fun s hs => ?_, fun s hs => ?_, fun s hs a t ht => ?_, fun s hs a t ht => ?_,
    fun s hs => ?_⟩
  · obtain ⟨h₁, h₂, h₃⟩ := hprod.start s hs
    refine ⟨h₁, ?_, h₃⟩
    change (src s).1 ∈ A.initialStates
    rw [← hTA.initialStates]; exact h₂
  · refine hprod.exists_start s ?_
    change s ∈ T.initialStates
    rw [hTA.initialStates]; exact hs
  · rw [← hstep s hs]; exact hprod.step s hs a t ht
  · rw [← hstep s hs] at ht; exact hprod.exists_step s hs a t ht
  · refine (hprod.accept s hs).trans ?_
    change T.isMatch (src s).1 = true ↔ A.isMatch (src s).1 = true
    rw [hTA.isMatch _ (hmem s hs)]

/-- The counters of the two machines agree. -/
theorem counter_agree (hTA : Untimed T A) (hN : 0 < N) {fuel : ℕ}
    {M₁ : MooreMachine N UInt8 DFAState}
    (hM₁ : constructFilter addr N A.toAutomaton fuel = some M₁) {addr' : Ptr ↪ ℕ} {fuel' : ℕ}
    (hB : toAutomatonWithCounter addr' N T.toAutomaton fuel' = some B) {fuel'' : ℕ}
    {order : Ptr → UInt8 → ℕ} {M₂ : MooreMachine N (UInt8 × ℚ) DRTAState}
    (hM₂ : toTimedMooreMachine addr' order N B n M fuel'' = some M₂) (x : List (UInt8 × ℚ)) :
    M₂.counter (M₂.stateAfter x) = M₁.counter (M₁.stateAfter (x.map Prod.fst)) := by
  obtain ⟨b, hrun, rfl⟩ := Option.map_eq_some_iff.1 hM₂
  obtain ⟨src, hP⟩ := counterProduct_of_run hN hB
  have hW := hP.wellFormed hN
  have hZ := zones_of_run hrun
  obtain ⟨hmem, hold⟩ := hZ.states_stateAfter hTA hN hP x
  have hle := hZ.counter_le hW hmem
  refine eq_of_forall_lt_iff fun m => ?_
  calc m < b.counter ((b.toMachine N).stateAfter x)
      ↔ ∃ q ∈ b.toOldStates ((b.toMachine N).stateAfter x),
          (B.counter q.1 = N ∨ B.isMatch q.1 = true) ∧ m < B.counter q.1 := by
        rw [hZ.interned.counter_eq _ hmem, lt_maxCounter_iff hle]
    _ ↔ ∃ s ∈ suffixEval B.toNFA (x.map Prod.fst),
          (B.counter s = N ∨ s ∈ B.toNFA.accept) ∧ m < B.counter s := by
        constructor
        · rintro ⟨q, hq, h⟩; exact ⟨q.1, (hold q.1).1 ⟨q, hq, rfl⟩, h⟩
        · rintro ⟨s, hs, h⟩
          obtain ⟨q, hq, rfl⟩ := (hold s).2 hs
          exact ⟨q, hq, h⟩
    _ ↔ m < M₁.counter (M₁.stateAfter (x.map Prod.fst)) := by
        rw [(hTA.isProduct hP).level_iff (iterate_nextCount_lastBlock hN)]
        exact ((tracksRuns_of_constructFilter hN hM₁).lt_counter _ trivial m).symm

/-- **The timed and the untimed filter agree** on an automaton without timing: for
    any delays the same bits decide, and the same positions are masked. -/
theorem filters_agree (A : FiniteAutomaton NFATransition) (T : FiniteAutomaton TATransition)
    (hTA : Untimed T A) (N : ℕ) (hN : 0 < N) (gae : BitVec N → ℕ → Bool × BitVec N)
    (addr : Ptr ↪ ℕ) (fuel : ℕ) (M₁ : MooreMachine N UInt8 DFAState)
    (hM₁ : constructFilter addr N A.toAutomaton fuel = some M₁) (addr' : Ptr ↪ ℕ) (fuel' : ℕ)
    (B : AutomatonWithCounter TATransition)
    (hB : toAutomatonWithCounter addr' N T.toAutomaton fuel' = some B) (n : ℕ) (M : Bounds)
    (order : Ptr → UInt8 → ℕ) (fuel'' : ℕ) (M₂ : MooreMachine N (UInt8 × ℚ) DRTAState)
    (hM₂ : toTimedMooreMachine addr' order N B n M fuel'' = some M₂) (w : List (UInt8 × ℚ)) :
    (filter gae M₂ w).map Prod.fst = filter gae M₁ (w.map Prod.fst) ∧
      ∀ p, enabled gae M₂ w p = enabled gae M₁ (w.map Prod.fst) p ∧
        ((filter gae M₂ w)[p]? = w[p]?.map mask ↔
          (filter gae M₁ (w.map Prod.fst))[p]? = (w.map Prod.fst)[p]?.map mask) := by
  have hpad : (padded N w).map Prod.fst = padded N (w.map Prod.fst) := by
    unfold padded
    rw [List.map_append, List.map_replicate]; rfl
  have hcounters : M₂.counters (padded N w) = M₁.counters (padded N (w.map Prod.fst)) := by
    rw [← hpad]
    unfold MooreMachine.counters
    rw [List.length_map]
    refine List.map_congr_left fun k _ => ?_
    rw [counter_agree hTA hN hM₁ hB hM₂, List.map_take]
  have hbit : ∀ p, enabled gae M₂ w p = enabled gae M₁ (w.map Prod.fst) p := by
    intro p
    unfold enabled
    rw [hcounters]
  obtain ⟨b, -, rfl⟩ := Option.map_eq_some_iff.1 hM₂
  have hfresh := (tracksRuns_of_constructFilter hN hM₁).fresh
  have hout : ∀ p, (filter gae (b.toMachine N) w)[p]? =
      w[p]?.map fun c => if enabled gae M₁ (w.map Prod.fst) p = true then c else mask c := by
    intro p
    rw [getElem?_filter hN ⟨rfl, rfl⟩, hbit]
  have hletters : (filter gae (b.toMachine N) w).map Prod.fst =
      filter gae M₁ (w.map Prod.fst) := by
    apply List.ext_getElem?
    intro p
    rw [List.getElem?_map, hout, getElem?_filter hN hfresh, List.getElem?_map, Option.map_map,
      Option.map_map]
    refine congrArg (fun f => Option.map f w[p]?) (funext fun c => ?_)
    change Prod.fst (if _ then _ else _) = if _ then _ else _
    split_ifs <;> rfl
  refine ⟨hletters, fun p => ⟨hbit p, ?_⟩⟩
  rw [hout, getElem?_filter hN hfresh, List.getElem?_map]
  cases w[p]? with
  | none => simp
  | some c =>
    simp only [Option.map_some, Option.some.injEq]
    split_ifs
    · constructor
      · intro h; exact congrArg Prod.fst h
      · intro h; exact Prod.ext h rfl
    · simp

/-- The loop on `a`, timed and untimed. -/
theorem filters_agree_loop : ∃ M₁ B M₂,
    constructFilter (Function.Embedding.refl ℕ) 1 aLoop.toAutomaton 5 = some M₁ ∧
      toAutomatonWithCounter (Function.Embedding.refl ℕ) 1 freeLoop.toAutomaton 5 = some B ∧
      toTimedMooreMachine (Function.Embedding.refl ℕ) letterOrder 1 B 1 (.fin 1 true) 5 =
        some M₂ ∧
      (filter (getAndEnable x86Mask) M₂ [(97, 2), (98, 1)]).map Prod.fst =
        filter (getAndEnable x86Mask) M₁ [97, 98] := by
  obtain ⟨B, hB, M₂, hM₂⟩ := toTimedMooreMachine_freeLoop
  obtain ⟨M₁, hM₁⟩ : ∃ M₁,
      constructFilter (Function.Embedding.refl ℕ) 1 aLoop.toAutomaton 5 = some M₁ :=
    Option.isSome_iff_exists.1 (by decide +kernel)
  refine ⟨M₁, B, M₂, hM₁, hB, hM₂, (filters_agree aLoop freeLoop ⟨rfl, rfl, fun _ _ => rfl,
    fun s _ c => ?_⟩ 1 (by decide) (getAndEnable x86Mask) _ 5 M₁ hM₁ _ 5 B hB 1 (.fin 1 true)
    letterOrder 5 M₂ hM₂ [(97, 2), (98, 1)]).1⟩
  refine (NDState.next_loop 97 _ c).trans ?_
  rw [show aLoop.next s c = _ from NDState.next_loop 97 _ c]
  split_ifs <;> rfl

end MooreFilter

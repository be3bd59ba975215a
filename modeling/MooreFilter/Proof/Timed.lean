/-
  The timed machine.

  * `CounterProduct.noReturn`: no transition of an automaton with counter leads
    back to an initial configuration, so the construction is that of
    `Proof/TimedSubset`;
  * `toTimedMooreMachine_faithful`: the state after a word holds the set of
    configurations after the word;
  * `tracksSuffixes_of_timed`: the machine tracks the suffixes.
-/
import MooreFilter.Proof.TimedSubset
import MooreFilter.Proof.Untimed
import Mathlib.Order.Bounds.Basic

namespace MooreFilter

open Masking (suffixEval)

variable {n : ℕ} {addr : Ptr ↪ ℕ} {order : Ptr → UInt8 → ℕ} {N : ℕ}
  {A : FiniteAutomaton TATransition} {B : AutomatonWithCounter TATransition} {M : Bounds}

/-! ## Automata with counter -/

/-- The nodes of the zone graph have live states. -/
theorem AutomatonWithCounter.WellFormed.mem_states (hB : B.WellFormed N) {z : ZConf n}
    (hz : z ∈ zoneGraph B.toAutomaton n) : z.1 ∈ B.states := by
  obtain ⟨x, hx⟩ := hz
  induction x using List.reverseRecOn generalizing z with
  | nil => exact hB.initial_mem z.1 hx.1
  | append_singleton x c ih =>
    rw [NFA.eval_append_singleton] at hx
    obtain ⟨z', hz', tr, htr, hlock, -⟩ := NFA.mem_stepSet.1 hx
    rw [hlock]
    exact hB.target_mem z'.1 (ih hz') c.1 tr htr

/-- The initial states have the counter `0`, and the targets of transitions have not. -/
theorem CounterProduct.state_ne {src : Ptr → Ptr × ℕ} (h : CounterProduct A.toAutomaton N B src)
    {l : List (Conf n)} (hl : ∀ q ∈ l, q.1 ∈ B.states) {c : UInt8} {es : List (Entry n)}
    (hes : (constructNexts B l).lookup c = some es) {e : Entry n} (he : e ∈ es) {q : Conf n}
    (hq : q ∈ initConfs B n M) : q.1 ≠ e.conf.1 := by
  intro hstate
  obtain ⟨p, hp, tr, htr, he⟩ := (mem_constructNexts hes e).1 he
  obtain ⟨t, -, -, hsrc, -⟩ := h.exists_of_mem_next (hl p hp) htr
  have hlock : e.conf.1 = lock tr := by
    unfold successor at he
    dsimp only at he
    split_ifs at he
    obtain rfl := Option.some.inj he; rfl
  have hzero := (h.src_of_mem_initial (mem_initConfs.1 hq).1).2
  rw [hstate, hlock, hsrc] at hzero
  exact (nextCount_pos N (src p.1).2).ne' hzero

/-- So no entry has an initial configuration. -/
theorem CounterProduct.noReturn {src : Ptr → Ptr × ℕ}
    (h : CounterProduct A.toAutomaton N B src) {l : List (Conf n)}
    (hl : ∀ q ∈ l, q.1 ∈ B.states) : NoReturn B M l := by
  intro c es hes e he
  exact any_sameConf_of_state_ne fun q hq => h.state_ne hl hes he hq

/-! ## The states after words -/

theorem HoldsExactly.tuples_iff {l : List (Conf n)} {S : Set (ZConf n)} {R : Set (Conf n)}
    (h : HoldsExactly M l S) (hR : (∀ q ∈ R, ∃ z ∈ S, q.Denotes M z) ∧
      ∀ z ∈ S, ∃ q ∈ R, q.Denotes M z) (k : Ptr × DBM.Tuple) :
    k ∈ tuples l ↔ ∃ q ∈ R, (q.1, q.2.toTuple) = k := by
  constructor
  · intro hk
    obtain ⟨q, hq, rfl⟩ := List.mem_map.1 hk
    obtain ⟨z, hz, hqz⟩ := h.1 q hq
    obtain ⟨q', hq', hq'z⟩ := hR.2 z hz
    exact ⟨q', hq', (hq'z.tuple_iff hqz).2 rfl⟩
  · rintro ⟨q, hq, rfl⟩
    obtain ⟨z, hz, hqz⟩ := hR.1 q hq
    obtain ⟨q', hq', hq'z⟩ := h.2 z hz
    exact List.mem_map.2 ⟨q', hq', (hq'z.tuple_iff hqz).2 rfl⟩

/-- At the end of the construction no state is pending. -/
theorem zones_of_run {fuel : ℕ} {b : DRTABuilder n}
    (hrun : Worklist.run (addTimedTransitions addr order N B M) fuel (drtaStart addr N B M) =
      some b) : Zones addr N B M ∅ b := by
  obtain ⟨hZ, -⟩ := linking_of_reached (Worklist.reached_of_run hrun)
  exact { hZ with
    todo := fun p _ hp => absurd hp (Set.notMem_empty p)
    linked := fun p hp _ => hZ.linked p hp (by simp) }

theorem Zones.counter_le {b : DRTABuilder n} (h : Zones addr N B M ∅ b) (hB : B.WellFormed N)
    {p : Ptr} (hp : p ∈ b.states) : ∀ q ∈ b.toOldStates p, B.counter q.1 ≤ N := by
  intro q hq
  obtain ⟨z, hz, hqz⟩ := h.denotes p hp q hq
  exact hB.counter_le q.1 (hqz.state ▸ hB.mem_states hz)

/-- **The timed machine is a determinisation of the zone graph.** The state after
    a word holds the configurations after the word, is accepting iff one of them
    is, and has their counter. -/
theorem toTimedMooreMachine_faithful (A : FiniteAutomaton TATransition) (addr : Ptr ↪ ℕ)
    (order : Ptr → UInt8 → ℕ) (N : ℕ) (hN : 0 < N) (fuel : ℕ)
    (B : AutomatonWithCounter TATransition)
    (hB : toAutomatonWithCounter addr N A.toAutomaton fuel = some B) (n : ℕ) (M : Bounds)
    (fuel' : ℕ) (T : MooreMachine N (UInt8 × ℚ) DRTAState)
    (hT : toTimedMooreMachine addr order N B n M fuel' = some T)
    (gae : BitVec N → ℕ → Bool × BitVec N) :
    ∃ b : DRTABuilder n,
      Worklist.run (addTimedTransitions addr order N B M) fuel' (drtaStart addr N B M) = some b ∧
      T = b.toMachine N ∧ ∀ w : List (UInt8 × ℚ), (∀ c ∈ w, 0 < c.2) →
        (T.after gae w).currentState ∈ T.states ∧
        (∀ k, k ∈ tuples (b.toOldStates (T.after gae w).currentState) ↔
          ∃ q ∈ confsAfter n B M w, (q.1, q.2.toTuple) = k) ∧
        ((T.heap.cell (T.after gae w).currentState).isMatch = true ↔
          ∃ q ∈ confsAfter n B M w, B.isMatch q.1 = true) ∧
        ((∃ q ∈ confsAfter n B M w, B.counter q.1 = N) →
          T.counter (T.after gae w).currentState = N) ∧
        ((∀ q ∈ confsAfter n B M w, B.counter q.1 ≠ N) →
          IsGreatest
            (insert 0 {m | ∃ q ∈ confsAfter n B M w, B.isMatch q.1 = true ∧ B.counter q.1 = m})
            (T.counter (T.after gae w).currentState)) := by
  obtain ⟨b, hrun, rfl⟩ := Option.map_eq_some_iff.1 hT
  obtain ⟨src, hP⟩ := counterProduct_of_run hN hB
  have hW := hP.wellFormed hN
  have hZ := zones_of_run hrun
  refine ⟨b, hrun, rfl, fun w hw => ?_⟩
  rw [MooreMachine.currentState_after]
  obtain ⟨hmem, hold⟩ := hZ.holdsExactly_stateAfter (fun z hz => hW.mem_states hz)
    (x := w) fun c hc => Or.inl (hw c hc)
  set s := (b.toMachine N : MooreMachine N (UInt8 × ℚ) DRTAState).stateAfter w
  have htup := hold.tuples_iff (confsAfter_spec w)
  -- facts about the states of the tuples hold of the list and of the set
  have hex : ∀ P : Ptr → Prop,
      (∃ q ∈ b.toOldStates s, P q.1) ↔ ∃ q ∈ confsAfter n B M w, P q.1 := by
    intro P
    rw [← exists_mem_tuples]
    simp only [htup, exists_exists_and_eq_and]
  have hle := hZ.counter_le hW hmem
  have hcounter : (b.toMachine N : MooreMachine N (UInt8 × ℚ) DRTAState).counter s =
      maxCounter N (fun q : Conf n => B.isMatch q.1) (fun q => B.counter q.1) (b.toOldStates s) :=
    hZ.interned.counter_eq s hmem
  obtain ⟨hfull, hgreatest⟩ := maxCounter_spec (fun q : Conf n => B.isMatch q.1) hle
  refine ⟨hmem, htup, ?_, fun hq => ?_, fun hq => ?_⟩
  · rw [show ((b.toMachine N : MooreMachine N (UInt8 × ℚ) DRTAState).heap.cell s).isMatch = _ from
      hZ.interned.isMatch_eq s hmem, List.any_eq_true]
    exact hex fun p => B.isMatch p = true
  · rw [hcounter]; exact hfull ((hex fun p => B.counter p = N).2 hq)
  · rw [hcounter]
    have hset : {m | ∃ q ∈ b.toOldStates s, B.isMatch q.1 = true ∧ B.counter q.1 = m} =
        {m | ∃ q ∈ confsAfter n B M w, B.isMatch q.1 = true ∧ B.counter q.1 = m} := by
      ext m
      exact hex fun p => B.isMatch p = true ∧ B.counter p = m
    rw [← hset]
    refine hgreatest fun q hq' hqN => ?_
    obtain ⟨q', hq'', hN'⟩ := (hex fun p => B.counter p = N).1 ⟨q, hq', hqN⟩
    exact hq q' hq'' hN'

/-- The loop on `a` without timing. -/
def freeLoop : FiniteAutomaton TATransition :=
  FiniteAutomaton.loop 97 [(⟨0, [], []⟩ : TATransition)] (by decide)

/-- The letters in increasing order, for all states. -/
def letterOrder : Ptr → UInt8 → ℕ := fun _ => UInt8.toNat

/-- The machine of the loop, for blocks of one letter and one clock. -/
theorem toTimedMooreMachine_freeLoop : ∃ B,
    toAutomatonWithCounter (Function.Embedding.refl ℕ) 1 freeLoop.toAutomaton 5 = some B ∧
      ∃ T, toTimedMooreMachine (Function.Embedding.refl ℕ) letterOrder 1 B 1 (.fin 1 true) 5 =
        some T := by
  have h : ((toAutomatonWithCounter (Function.Embedding.refl ℕ) 1 freeLoop.toAutomaton 5).bind
      fun B => toTimedMooreMachine (Function.Embedding.refl ℕ) letterOrder 1 B 1 (.fin 1 true)
        5).isSome = true := by decide +kernel
  obtain ⟨T, hT⟩ := Option.isSome_iff_exists.1 h
  obtain ⟨B, hB, hT⟩ := Option.bind_eq_some_iff.1 hT
  exact ⟨B, hB, T, hT⟩

/-- The machine of the loop accepts `a` iff a configuration after it does. -/
theorem toTimedMooreMachine_faithful_freeLoop : ∃ B T,
    toAutomatonWithCounter (Function.Embedding.refl ℕ) 1 freeLoop.toAutomaton 5 = some B ∧
      toTimedMooreMachine (Function.Embedding.refl ℕ) letterOrder 1 B 1 (.fin 1 true) 5 = some T ∧
      ((T.heap.cell (T.after (getAndEnable x86Mask) [(97, 2)]).currentState).isMatch = true ↔
        ∃ q ∈ confsAfter 1 B (.fin 1 true) [(97, 2)], B.isMatch q.1 = true) := by
  obtain ⟨B, hB, T, hT⟩ := toTimedMooreMachine_freeLoop
  obtain ⟨b, -, -, h⟩ := toTimedMooreMachine_faithful freeLoop (Function.Embedding.refl ℕ)
    letterOrder 1 (by decide) 5 B hB 1 (.fin 1 true) 5 T hT (getAndEnable x86Mask)
  exact ⟨B, T, hB, hT, (h [(97, 2)] (by simp)).2.2.1⟩

/-- **The timed machine tracks the suffixes** of the words of timely events. -/
theorem tracksSuffixes_of_timed {src : Ptr → Ptr × ℕ} (hN : 0 < N)
    (hP : CounterProduct A.toAutomaton N B src) {fuel : ℕ}
    {T : MooreMachine N (UInt8 × ℚ) DRTAState}
    (h : toTimedMooreMachine addr order N B n M fuel = some T) :
    TracksSuffixes (fun x => ∀ c ∈ x, Timely B c) N (fun z : ZConf n => B.isMatch z.1)
      (fun z => B.counter z.1) (suffixEval (zoneNFA B.toAutomaton n)) T := by
  obtain ⟨b, hrun, rfl⟩ := Option.map_eq_some_iff.1 h
  have hW := hP.wellFormed hN
  have hZ := zones_of_run hrun
  refine ⟨⟨rfl, rfl⟩, fun x hx => ?_, fun x hx m => ?_⟩ <;>
    obtain ⟨hmem, hold⟩ := hZ.holdsExactly_stateAfter
      (fun z hz => hW.mem_states hz) hx
  · change b.counter _ ≤ N
    rw [hZ.interned.counter_eq _ hmem]; exact maxCounter_le (hZ.counter_le hW hmem)
  · change m < b.counter _ ↔ _
    rw [hZ.interned.counter_eq _ hmem, lt_maxCounter_iff (hZ.counter_le hW hmem)]
    constructor
    · rintro ⟨q, hq, h⟩
      obtain ⟨z, hz, hqz⟩ := hold.1 q hq
      exact ⟨z, hz, by rw [← hqz.state]; exact h⟩
    · rintro ⟨z, hz, h⟩
      obtain ⟨q, hq, hqz⟩ := hold.2 z hz
      exact ⟨q, hq, by rw [hqz.state]; exact h⟩

end MooreFilter

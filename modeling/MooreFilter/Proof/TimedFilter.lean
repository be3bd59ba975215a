/-
  The timed filter.

  * `CounterProduct.isZoneProduct`: the zone graph of the automaton with counter is
    a product of the zone graph of the timed automaton, so that the timed machine
    tracks the runs of the latter (`tracksRuns_of_timed`);
  * `isMasked_of_constructFilter_timed`: the filter masks the events that no run of
    the zone graph releases.
-/
import MooreFilter.Proof.Interning
import MooreFilter.Proof.Membership

namespace MooreFilter

open Masking (segment IsMasked Releases)

/-! ## The machine -/

section
variable {n : ℕ} {addr : Ptr ↪ ℕ} {order : Ptr → UInt8 → ℕ} {N : ℕ}
  {A : FiniteAutomaton TATransition} {B : AutomatonWithCounter TATransition} {M : Bounds}
  {src : Ptr → Ptr × ℕ}

/-- The zone graph with counter is a product of the zone graph. -/
theorem CounterProduct.isZoneProduct (h : CounterProduct A.toAutomaton N B src) :
    Masking.IsProduct (zoneNFA B.toAutomaton n) (zoneNFA A.toAutomaton n) (nextCount N)
      (fun z => ((src z.1).1, z.2)) (fun z => B.counter z.1) {z | z.1 ∈ B.states} where
  start z hz := by
    obtain ⟨hs, hzero⟩ := h.src_of_mem_initial hz.1
    have hB := h.initial_mem z.1 hz.1
    exact ⟨hB, ⟨hs, hz.2⟩, (h.counter z.1 hB).trans hzero⟩
  exists_start z hz := by
    obtain ⟨p, hp, he⟩ := h.exists_mem_initial hz.1
    exact ⟨(p, z.2), ⟨hp, hz.2⟩, by rw [he]⟩
  step z hz c z' hz' := by
    obtain ⟨tr', htr', hlock, hsucc, hd⟩ := hz'
    obtain ⟨tr, htr, hB, hsrc, he⟩ := h.exists_of_mem_next hz htr'
    rw [← hlock] at hB hsrc he
    rw [he] at hsucc hd
    refine ⟨hB, ⟨tr, htr, by rw [hsrc], hsucc, hd⟩, ?_⟩
    rw [h.counter _ hB, hsrc, h.counter _ hz]
  exists_step z hz c z' hz' := by
    obtain ⟨tr, htr, hlock, hsucc, hd⟩ := hz'
    obtain ⟨q, hq, hsrc, hmem⟩ := h.exists_mem_next hz htr
    exact ⟨(q, z'.2), ⟨assign tr q, hmem, (lock_assign tr q).symm, hsucc, hd⟩,
      Prod.ext (by rw [hsrc, hlock]) rfl⟩
  accept z hz := by
    change B.isMatch z.1 = true ↔ A.isMatch (src z.1).1 = true
    rw [h.isMatch z.1 hz]

/-- **The timed machine tracks the runs of the zone graph.** -/
theorem tracksRuns_of_timed (hN : 0 < N) (hP : CounterProduct A.toAutomaton N B src) {fuel : ℕ}
    {T : MooreMachine N (UInt8 × ℚ) DRTAState}
    (h : toTimedMooreMachine addr order N B n M fuel = some T) :
    TracksRuns (fun x => ∀ c ∈ x, Timely B c) (zoneNFA A.toAutomaton n) T := by
  have hT := tracksSuffixes_of_timed hN hP h
  exact ⟨hT.fresh, hT.counter_le, fun x hx m => (hT.lt_counter x hx m).trans
    (hP.isZoneProduct.level_iff (iterate_nextCount_lastBlock hN) x m)⟩

/-- No state of the automaton with counter has a transition on the mask character. -/
theorem CounterProduct.next_mask (h : CounterProduct A.toAutomaton N B src) (hA : A.NoMaskLabel) :
    ∀ p ∈ B.states, B.next p '_'.toUInt8 = [] := by
  intro p hp
  have hnext := h.next p hp '_'.toUInt8
  rw [hA _ (h.reach p hp).mem] at hnext
  exact List.forall₂_nil_left_iff.1 hnext

theorem timely_of_mem_padded (hP : CounterProduct A.toAutomaton N B src) (hA : A.NoMaskLabel)
    {w : List (UInt8 × ℚ)} (hw : ∀ c ∈ w, 0 < c.2) {c : UInt8 × ℚ} (hc : c ∈ padded N w) :
    Timely B c := by
  rcases List.mem_append.1 hc with hc | hc
  · exact Or.inl (hw c hc)
  · rw [List.eq_of_mem_replicate hc]
    exact Or.inr fun p hp => hP.next_mask hA p hp

/-- No node of the zone graph reads a mask character. -/
theorem eval_mask_zone (hA : A.NoMaskLabel) (u : List (UInt8 × ℚ)) (d : ℚ) :
    (zoneNFA A.toAutomaton n).eval (u ++ [('_'.toUInt8, d)]) = ∅ := by
  rw [NFA.eval_append_singleton]
  refine Set.eq_empty_iff_forall_notMem.2 fun z hz => ?_
  obtain ⟨z', hz', tr, htr, -⟩ := NFA.mem_stepSet.1 hz
  obtain ⟨π, hπ, -⟩ := exists_path ⟨u, hz'⟩
  rw [hA z'.1 hπ.mem_states] at htr
  exact absurd htr (by simp)

end

section
variable {TA : TimedAutomaton} {addr : Ptr ↪ ℕ} {order : Ptr → UInt8 → ℕ} {N : ℕ}
  {gae : BitVec N → ℕ → Bool × BitVec N} {fuel : ℕ} {T : MooreMachine N (UInt8 × ℚ) DRTAState}
  {w : List (UInt8 × ℚ)}

/-- The timed filter masks the events that no run of the zone graph releases. -/
theorem isMasked_of_constructFilter_timed (hA : TA.NoMaskLabel) (hN : 0 < N)
    (hgae : ∀ k ≤ N, Enables gae k) (h : TA.constructFilter addr order N fuel = some T)
    (hw : ∀ c ∈ w, 0 < c.2) :
    IsMasked (zoneNFA TA.toAutomaton TA.clockSize) N mask w (filter gae T w) := by
  obtain ⟨B, hB, h⟩ := Option.bind_eq_some_iff.1 h
  obtain ⟨M, -, hT⟩ := Option.bind_eq_some_iff.1 h
  obtain ⟨src, hP⟩ := counterProduct_of_run hN hB
  exact (tracksRuns_of_timed hN hP hT).isMasked hN hgae (fun u => eval_mask_zone hA u 0)
    fun t c hc => timely_of_mem_padded hP hA hw (List.mem_of_mem_take hc)

end

/-! ## The construction -/

/-- The source builds the machine for the automaton. -/
structure TimedAutomaton.Builds (TA : TimedAutomaton) (addr : Ptr ↪ ℕ) (order : Ptr → UInt8 → ℕ)
    (N fuel : ℕ) (T : MooreMachine N (UInt8 × ℚ) DRTAState) : Prop where
  buildable : TA.Buildable
  constructFilter : TA.constructFilter addr order N fuel = some T

/-- The two constructions give the machine. -/
theorem exists_constructFilter {TA : TimedAutomaton} {addr : Ptr ↪ ℕ} {order : Ptr → UInt8 → ℕ}
    {N fuel₁ : ℕ} {B : AutomatonWithCounter TATransition}
    (hB : toAutomatonWithCounter addr N TA.toAutomaton fuel₁ = some B)
    (hmax : TA.maxConstraints ≠ [])
    (h : ∀ M, TA.maxBound = some M →
      ∃ fuel T, toTimedMooreMachine addr order N B TA.clockSize M fuel = some T) :
    ∃ fuel T, TA.constructFilter addr order N fuel = some T := by
  obtain ⟨c, hc⟩ := Option.isSome_iff_exists.1 (List.isSome_max?_iff.2 hmax)
  have hM : TA.maxBound = some (.fin c true) := by
    rw [TimedAutomaton.maxBound, hc]; rfl
  obtain ⟨fuel₂, T, hT⟩ := h _ hM
  refine ⟨max fuel₁ fuel₂, T, Option.bind_eq_some_iff.2 ⟨B, ?_, Option.bind_eq_some_iff.2
    ⟨_, hM, ?_⟩⟩⟩
  · obtain ⟨b, hb, he⟩ := Option.map_eq_some_iff.1 hB
    exact Option.map_eq_some_iff.2 ⟨b, Worklist.run_mono (le_max_left _ _) hb, he⟩
  · obtain ⟨b, hb, he⟩ := Option.map_eq_some_iff.1 hT
    exact Option.map_eq_some_iff.2 ⟨b, Worklist.run_mono (le_max_right _ _) hb, he⟩

theorem enables_x86Mask_one : ∀ k ≤ 1, Enables (getAndEnable (N := 1) x86Mask) k :=
  fun _ _ => getAndEnable_enables (Or.inl (by omega))

end MooreFilter

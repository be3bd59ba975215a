/-
  The matches of the timed filter.

  * `KeepsMatches P w out`: the segments that match are kept, and no others match in the
    output; `FilterPreserves` says so of a filter;
  * `Covered`: the events of the accepted words are `OnPath`, where the guards are
    tested as the matrices do;
  * `filterPreserves_iff`: the filter keeps the matches exactly if the automaton is
    covered.  This is so if the transitions at the ends of runs fit;
  * `lateLoop n`, for `n` clocks with the clock `255`, which has no row of its own, has
    a match that is masked.
-/
import MooreFilter.Proof.TimedLaws

namespace MooreFilter

open Masking (segment IsMasked Releases)

/-- The output keeps the matches of the input: the same segments match, and these are
    equal. -/
structure KeepsMatches {α : Type} (P : List α → Prop) (w out : List α) : Prop where
  length_eq : out.length = w.length
  iff : ∀ i j, i ≤ j → j < w.length → (P (segment w i j) ↔ P (segment out i j))
  segment_eq : ∀ i j, i ≤ j → j < w.length → P (segment w i j) → segment out i j = segment w i j

namespace TimedAutomaton

/-- The filter keeps the segments that the automaton accepts, and the delays. -/
def FilterPreserves (TA : TimedAutomaton) {N : ℕ} (gae : BitVec N → ℕ → Bool × BitVec N)
    (T : MooreMachine N (UInt8 × ℚ) DRTAState) : Prop :=
  ∀ w : List (UInt8 × ℚ), (∀ c ∈ w, 0 < c.2) →
    (filter gae T w).map Prod.snd = w.map Prod.snd ∧
      KeepsMatches (fun u => TA.isMember (timestamps u) = true) w (filter gae T w)

/-- Each event of an accepted word is in a segment of the word with a path that ends in an
    accepting state, or whose length is a multiple of the buffer size. -/
def Covered (TA : TimedAutomaton) (N : ℕ) : Prop :=
  ∀ w : List (UInt8 × ℚ), (∀ c ∈ w, 0 < c.2) → TA.isMember (timestamps w) = true →
    ∀ p < w.length, TA.OnPath N w p

section
variable {TA : TimedAutomaton} {N : ℕ} {gae : BitVec N → ℕ → Bool × BitVec N}
  {T : MooreMachine N (UInt8 × ℚ) DRTAState}

/-- The events of an accepted word do not have the mask character. -/
theorem fst_ne_of_isMember (hA : TA.NoMaskLabel) {w : List (UInt8 × ℚ)}
    (h : TA.isMember (timestamps w) = true) : ∀ c ∈ w, c.1 ≠ '_'.toUInt8 := by
  rw [isMember_timestamps, List.any_eq_true] at h
  obtain ⟨q, hq, -⟩ := h
  exact fst_ne_of_mem_configsAfter hA hq

/-- If the transitions that are reached fit, the accepted words have paths. -/
theorem ReachedFit.covered (h : TA.ReachedFit TA.clockSize) (hN : 0 < N) : TA.Covered N := by
  intro w hw hmem p hp
  have hacc := mem_accepts_of_isMember h hw hmem
  have hlen : 0 + (w.length - 1) + 1 = w.length := by omega
  rw [← releases_iff_onPath hN]
  refine IsMasked.releases_of_mem_accepts (i := 0) (t := w.length - 1) hN (by omega) (by omega) ?_
    (by omega) (by omega)
  rw [Masking.segment_eq_drop (by omega), List.drop_zero, List.take_of_length_le (by omega)]
  exact hacc

/-- The events of an accepted segment pass. -/
theorem Covered.segment_eq (h : TA.Covered N) (hN : 0 < N) {w v : List (UInt8 × ℚ)}
    (hM : IsMasked (zoneNFA TA.toAutomaton TA.clockSize) N mask w v) (hw : ∀ c ∈ w, 0 < c.2)
    {i j : ℕ} (hij : i ≤ j) (hj : j < w.length)
    (hmem : TA.isMember (timestamps (segment w i j)) = true) : segment v i j = segment w i j := by
  have hpos : ∀ c ∈ segment w i j, 0 < c.2 := fun c hc => hw c (Masking.mem_of_mem_segment hc)
  refine hM.segment_eq_of_releases hj fun p hip hpj => ?_
  have hlt : p - i < (segment w i j).length := by
    unfold Masking.segment
    rw [List.length_take, List.length_drop]; omega
  have hrel := (releases_iff_onPath hN).2 (h _ hpos hmem _ hlt)
  have hrel := hrel.of_segment hij hj
  rwa [Nat.add_sub_cancel' hip] at hrel

/-- An accepted segment of the masked word has no masked event, as no mask character is
    read. -/
theorem segment_eq_of_isMember (hA : TA.NoMaskLabel) {w v : List (UInt8 × ℚ)}
    (hM : IsMasked (zoneNFA TA.toAutomaton TA.clockSize) N mask w v) {i j : ℕ}
    (hj : j < w.length) (hmem : TA.isMember (timestamps (segment v i j)) = true) :
    segment v i j = segment w i j := by
  refine Masking.segment_congr fun p hip hpj => ?_
  rcases hM.getElem?_eq_or p with he | he
  · exact he
  · rw [List.getElem?_eq_getElem (show p < w.length by omega), Option.map_some] at he
    exact absurd rfl (fst_ne_of_isMember hA hmem _ (Masking.mem_segment hip hpj he))

/-- **The filter keeps the matches exactly if the automaton is covered.** -/
theorem filterPreserves_iff_covered (hA : TA.NoMaskLabel) (hN : 0 < N)
    (hM : ∀ w : List (UInt8 × ℚ), (∀ c ∈ w, 0 < c.2) →
      IsMasked (zoneNFA TA.toAutomaton TA.clockSize) N mask w (filter gae T w)) :
    TA.FilterPreserves gae T ↔ TA.Covered N := by
  constructor
  · intro hkeep w hw hmem p hp
    obtain ⟨-, -, -, hseg⟩ := hkeep w hw
    have hwhole : ∀ v : List (UInt8 × ℚ), v.length = w.length →
        segment v 0 (w.length - 1) = v := by
      intro v hv
      rw [Masking.segment_eq_drop (by omega), List.drop_zero, List.take_of_length_le (by omega)]
    have hfw : filter gae T w = w := by
      have h := hseg 0 (w.length - 1) (by omega) (by omega) (by rw [hwhole w rfl]; exact hmem)
      rwa [hwhole w rfl, hwhole _ (hM w hw).length_eq] at h
    have hne := fst_ne_of_isMember hA hmem w[p] (List.getElem_mem hp)
    have hc : w[p]? = some w[p] := List.getElem?_eq_getElem hp
    rw [← releases_iff_onPath hN,
      ← (hM w hw).getElem?_eq_some_iff hc (mask_ne_of_fst_ne hne), hfw]
    exact hc
  · intro hcov w hw
    have hMw := hM w hw
    have hkeep := fun i j (hij : i ≤ j) (hj : j < w.length) => hcov.segment_eq hN hMw hw hij hj
    generalize filter gae T w = v at hMw hkeep
    refine ⟨?_, hMw.length_eq, fun i j hij hj => ⟨fun hmem => ?_, fun hmem => ?_⟩, hkeep⟩
    · apply List.ext_getElem?
      intro p
      rw [List.getElem?_map, List.getElem?_map]
      rcases hMw.getElem?_eq_or p with he | he
      · rw [he]
      · rw [he, Option.map_map]; rfl
    · rw [hkeep i j hij hj hmem]; exact hmem
    · rwa [segment_eq_of_isMember hA hMw hj hmem] at hmem

end

end TimedAutomaton

/-- The timed filter keeps the matches if the transitions that are reached fit. -/
theorem filterPreserves_of_reachedFit {TA : TimedAutomaton} (hA : TA.NoMaskLabel)
    (hfit : TA.ReachedFit TA.clockSize) {N : ℕ} (hN : 0 < N)
    {gae : BitVec N → ℕ → Bool × BitVec N} (hgae : ∀ k ≤ N, Enables gae k) {addr : Ptr ↪ ℕ}
    {order : Ptr → UInt8 → ℕ} {fuel : ℕ} {T : MooreMachine N (UInt8 × ℚ) DRTAState}
    (hT : TA.constructFilter addr order N fuel = some T) : TA.FilterPreserves gae T :=
  (TimedAutomaton.filterPreserves_iff_covered hA hN fun _ hw =>
    isMasked_of_constructFilter_timed hA hN hgae hT hw).2 (hfit.covered hN)

/-- **Timed filtering** keeps the matches exactly if each event of the accepted words is on a
    path that the matrices allow, and so if the transitions that are reached fit. -/
theorem filterPreserves_iff (TA : TimedAutomaton) (hA : TA.NoMaskLabel) (N : ℕ) (hN : 0 < N)
    (gae : BitVec N → ℕ → Bool × BitVec N) (hgae : ∀ k ≤ N, Enables gae k) (addr : Ptr ↪ ℕ)
    (order : Ptr → UInt8 → ℕ) (fuel : ℕ) (T : MooreMachine N (UInt8 × ℚ) DRTAState)
    (hT : TA.Builds addr order N fuel T) :
    (TA.FilterPreserves gae T ↔ TA.Covered N) ∧
      (TA.ReachedFit TA.clockSize → TA.FilterPreserves gae T) :=
  ⟨TimedAutomaton.filterPreserves_iff_covered hA hN fun _ hw =>
      isMasked_of_constructFilter_timed hA hN hgae hT.constructFilter hw,
    fun hfit => filterPreserves_of_reachedFit hA hfit hN hgae hT.constructFilter⟩

theorem freeTimedLoop_reachedFit : freeTimedLoop.ReachedFit 1 := by
  refine freeTimedLoop_buildable.reachedFit (freeTimedLoop_not_names 255)
    fun s _ c tr htr g hg => ?_
  rw [freeTimedLoop_next] at htr
  split_ifs at htr
  · rw [List.mem_singleton.1 htr] at hg
    exact absurd hg List.not_mem_nil
  · exact absurd htr List.not_mem_nil

/-- The filter of the free loop keeps its matches. -/
theorem filterPreserves_freeTimedLoop : ∃ T,
    freeTimedLoop.Builds (Function.Embedding.refl ℕ) letterOrder 1 5 T ∧
      freeTimedLoop.FilterPreserves (getAndEnable x86Mask) T := by
  obtain ⟨T, hT⟩ := exists_builds_freeTimedLoop
  exact ⟨T, hT, (filterPreserves_iff freeTimedLoop freeTimedLoop_noMaskLabel 1 one_pos
    (getAndEnable x86Mask) enables_x86Mask_one _ _ 5 T hT).2 freeTimedLoop_reachedFit⟩

/-! ## The clock 255 -/

/-- The loop on `a`, later than at time `1` of the clock `255`, for `n` clocks. -/
def lateLoop (n : ℕ) : TimedAutomaton :=
  ⟨FiniteAutomaton.loop 97 [(⟨0, [], [⟨255, .gt, 1⟩]⟩ : TATransition)] (by decide),
    List.replicate n 1⟩

theorem lateLoop_clockSize (n : ℕ) : (lateLoop n).clockSize = n := List.length_replicate

theorem lateLoop_maxConstraints_ne_nil {n : ℕ} (hn : 0 < n) :
    (lateLoop n).maxConstraints ≠ [] :=
  fun h => hn.ne' ((List.replicate_eq_nil_iff _).1 h)

theorem lateLoop_buildable {n : ℕ} (hn : 255 < n) : (lateLoop n).Buildable := by
  refine ⟨lateLoop_maxConstraints_ne_nil (by omega), fun x _ => ?_⟩
  rw [lateLoop_clockSize]
  have := x.toNat_lt
  omega

theorem lateLoop_next (n : ℕ) (s : Ptr) (c : UInt8) : (lateLoop n).next s c =
    if c = 97 then [(⟨0, [], [⟨255, .gt, 1⟩]⟩ : TATransition)] else [] :=
  NDState.next_loop 97 _ c

theorem lateLoop_noMaskLabel (n : ℕ) : (lateLoop n).NoMaskLabel := fun s _ => by
  rw [lateLoop_next]; exact if_neg (by decide)

/-- The guard is tested on the reference point, and there is no successor. -/
theorem lateLoop_step (n : ℕ) (z : ZConf n) (c : UInt8 × ℚ) :
    (zoneNFA (lateLoop n).toAutomaton n).step z c = ∅ := by
  refine Set.eq_empty_iff_forall_notMem.2 fun z' hz' => ?_
  obtain ⟨tr, htr, -, ⟨Z₁, h₁, -⟩, -⟩ := hz'
  rw [lateLoop_next] at htr
  split_ifs at htr
  · obtain rfl := List.mem_singleton.1 htr
    obtain ⟨w, hw⟩ := Z₁.closed.exists_sat
    have hg := ((h₁ w).1 hw).2 _ (List.mem_singleton_self _)
    unfold Constraint.HoldsAt at hg
    rw [row_ref, sub_self] at hg
    exact absurd hg (by decide)
  · exact absurd htr (by simp)

theorem lateLoop_isMember (n : ℕ) : (lateLoop n).isMember (timestamps [(97, 2)]) = true := by
  rw [TimedAutomaton.isMember_timestamps, List.any_eq_true]
  refine ⟨_, TimedAutomaton.mem_configsAfter_append (w := []).2 ⟨(0, fun _ => 0),
    List.mem_singleton_self _, ⟨0, [], [⟨255, .gt, 1⟩]⟩, ?_, fun g hg => ?_, rfl⟩, rfl⟩
  · rw [lateLoop_next, if_pos rfl]; exact List.mem_singleton_self _
  · rw [List.mem_singleton.1 hg]; decide +kernel

/-- Without successors, the parts are those of the initial configurations, and the
    construction ends. -/
theorem CounterProduct.exists_toTimedMooreMachine {n : ℕ} {addr : Ptr ↪ ℕ}
    {order : Ptr → UInt8 → ℕ} {N : ℕ} (hN : 0 < N) {A : FiniteAutomaton TATransition}
    {B : AutomatonWithCounter TATransition}
    {src : Ptr → Ptr × ℕ} (hP : CounterProduct A.toAutomaton N B src) {M : Bounds}
    (hstep : ∀ z ∈ zoneGraph B.toAutomaton n, ∀ c, (zoneNFA B.toAutomaton n).step z c = ∅)
    (hinit : B.initialStates.Nodup) :
    ∃ fuel T, toTimedMooreMachine addr order N B n M fuel = some T := by
  refine MooreFilter.exists_toTimedMooreMachine (fun b part h => lookupOk_of_nodup hinit ?_ h) ?_
    fun b curr p rest hr => hP.noReturn_of_reached hN hr
  · rintro b part ⟨hr, hL, hsplit⟩
    obtain ⟨hZ, hmem, -⟩ := linking_of_reached hr
    obtain ⟨es, hes, hlin⟩ := exists_linearlize_of_mem_iterate hL
      (hsplit ▸ List.mem_append_right _ List.mem_cons_self)
    obtain rfl : es = [] := List.eq_nil_iff_forall_not_mem.2 fun e he => by
      obtain ⟨q, hq, tr, htr, he⟩ := (mem_constructNexts hes e).1 he
      obtain ⟨z, hz, hqz⟩ := hZ.denotes _ (hmem _ (by simp)) q hq
      obtain ⟨z', -, -, ⟨d, -, hd⟩, hz'⟩ := hqz.of_successor htr he
      have hmem := hz' d hd
      rw [hstep z hz] at hmem
      exact hmem
    rw [linearlize_of_always (by simp), List.map_nil, List.append_nil] at hlin
    have hpart : part ∈ [(initConfs B n M, (((⊤ : WithTop ℚ) : Double), false))] := by
      rw [Option.some.inj hlin]; exact List.mem_append_right _ List.mem_cons_self
    rw [List.mem_singleton.1 hpart]
    exact nodup_tuples_initConfs hinit
  · rw [finite_confTuples_iff]
    refine ((List.finite_toSet B.initialStates).image fun s => (s, Zone.zero n)).subset ?_
    rintro z ⟨x, hx⟩
    rcases List.eq_nil_or_concat x with rfl | ⟨u, c, rfl⟩
    · exact ⟨z.1, hx.1, Prod.ext rfl hx.2.symm⟩
    · rw [List.concat_eq_append, NFA.eval_append_singleton] at hx
      obtain ⟨z', hz', hz⟩ := NFA.mem_stepSet.1 hx
      rw [hstep z' ⟨u, hz'⟩] at hz
      exact absurd hz (Set.notMem_empty z)

/-- The filter of the late loop masks its match. -/
theorem lateLoop_filter {n : ℕ} (hn : 0 < n) : ∃ fuel T,
    (lateLoop n).constructFilter (Function.Embedding.refl ℕ) letterOrder 1 fuel = some T ∧
      filter (getAndEnable x86Mask) T [(97, 2)] = [('_'.toUInt8, 2)] := by
  obtain ⟨fuel₁, B, hB⟩ := toAutomatonWithCounter_terminates (N := 1)
    (A := (lateLoop n).toFiniteAutomaton) one_pos (Function.Embedding.refl ℕ)
  obtain ⟨src, hP⟩ := counterProduct_of_run one_pos hB
  -- no node of the zone graph with counter has a successor
  have hstep : ∀ z ∈ zoneGraph B.toAutomaton n, ∀ c,
      (zoneNFA B.toAutomaton n).step z c = ∅ := by
    intro z hz c
    refine Set.eq_empty_iff_forall_notMem.2 fun z' hz' => ?_
    obtain ⟨-, h, -⟩ := hP.isZoneProduct.step z ((hP.wellFormed one_pos).mem_states hz) c z' hz'
    rw [lateLoop_step] at h
    exact h
  have hinit : B.initialStates.Nodup := by
    have hperm : (B.initialStates.map src).Perm [(0, 0)] := hP.initial
    have hnd : (B.initialStates.map src).Nodup := hperm.nodup_iff.2 (List.nodup_singleton _)
    exact hnd.of_map
  obtain ⟨fuel, T, hT⟩ : ∃ fuel T,
      (lateLoop n).constructFilter (Function.Embedding.refl ℕ) letterOrder 1 fuel = some T :=
    exists_constructFilter hB (lateLoop_maxConstraints_ne_nil hn) fun M _ => by
      rw [lateLoop_clockSize]; exact hP.exists_toTimedMooreMachine one_pos hstep hinit
  refine ⟨fuel, T, hT, ?_⟩
  have hM := isMasked_of_constructFilter_timed (w := [(97, 2)]) (lateLoop_noMaskLabel n) one_pos
    enables_x86Mask_one hT (by simp)
  rw [lateLoop_clockSize] at hM
  have hrel : ¬ Releases (zoneNFA (lateLoop n).toAutomaton n) 1 [((97 : UInt8), (2 : ℚ))] 0 := by
    rintro ⟨i, t, s, ⟨hit, ht, hrun, -⟩, -⟩
    obtain rfl : t = 0 := by simpa using ht
    obtain rfl : i = 0 := by omega
    rw [Masking.segment_self rfl, ← List.nil_append [_], NFA.eval_append_singleton] at hrun
    obtain ⟨z, -, hz⟩ := NFA.mem_stepSet.1 hrun
    rw [lateLoop_step] at hz
    exact hz
  have hout := hM.hide 0 (by simp) hrel
  obtain ⟨c, hc⟩ := List.length_eq_one_iff.1 hM.length_eq
  rw [hc] at hout ⊢
  exact congrArg (fun c => [c]) (Option.some.inj hout)

/-- The late loop for `256` clocks accepts an event that its filter masks. -/
theorem lateLoop_masked : (lateLoop 256).clockSize = 256 ∧ (lateLoop 256).NoMaskLabel ∧
    (lateLoop 256).Buildable ∧
    (lateLoop 256).isMember (timestamps [(97, 2)]) = true ∧ ∃ fuel T,
      (lateLoop 256).constructFilter (Function.Embedding.refl ℕ) letterOrder 1 fuel = some T ∧
        filter (getAndEnable x86Mask) T [(97, 2)] = [('_'.toUInt8, 2)] :=
  ⟨lateLoop_clockSize 256, lateLoop_noMaskLabel 256, lateLoop_buildable (by decide),
    lateLoop_isMember 256, lateLoop_filter (by decide)⟩

end MooreFilter

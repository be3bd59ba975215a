/-
  Laws of the timed filter.

  `TA.IsFilter N f`: the function `f` is what `filter` computes with a machine that
  the timed `constructFilter` makes.  The delays of the input are positive.

  * `TimedPath A n w π s`: the transitions `π` read the letters of `w`, and each
    delay of `w` is the last one of some run along `π` so far;
  * `mem_eval_zoneNFA_iff`: these are the paths of the zone graph;
  * `timed_passes_iff`: exactly the events that are `OnPath` pass.  The delays of
    different events may be from different runs, so more may pass than is in a run;
  * `timed_refines_untimed`: the timed filter masks what the untimed one does, which
    may be used before it;
  * `timed_filter_separated`, `timed_filter_factor`: factors of the input.
-/
import MooreFilter.Proof.FilterLaws
import MooreFilter.Proof.Successors
import MooreFilter.Proof.TimedFilter

namespace MooreFilter

open Difference (Sat)
open Masking (segment Releases IsMasked Included relabel)

variable {n : ℕ}

/-! ## Paths with delays -/

/-- The transitions read the word, each after a delay that is the last one of some
    run along the path. -/
inductive TimedPath (A : Automaton (NDState TATransition)) (n : ℕ) :
    List (UInt8 × ℚ) → List TATransition → Ptr → Prop
  | nil {s} : s ∈ A.initialStates → TimedPath A n [] [] s
  | snoc {w π s c d tr v v'} : TimedPath A n w π s → tr ∈ A.next s c →
      v ∈ valuationsAfter n π → Fires tr d v v' →
      TimedPath A n (w ++ [(c, d)]) (π ++ [tr]) (lock tr)

section
variable {A : Automaton (NDState TATransition)} {w : List (UInt8 × ℚ)}

/-- The steps of the zone graph, by valuations. -/
theorem mem_step_zoneNFA_iff {z z' : ZConf n} {c : UInt8 × ℚ} :
    z' ∈ (zoneNFA A n).step z c ↔ ∃ tr ∈ A.next z.1 c.1, z'.1 = lock tr ∧ Zone.Succ tr z.2 z'.2 ∧
      ∃ v v', Sat z.2.bound v ∧ Fires tr c.2 v v' := by
  refine exists_congr fun tr => and_congr_right fun _ => and_congr_right fun _ =>
    and_congr_right fun hsucc => ?_
  constructor
  · intro hd
    -- the successor has a valuation, so some delay is possible
    have hne : ((tr.rowEffect n).delays ⟨z.2.bound, 0⟩).Nonempty := by
      obtain ⟨v', hv'⟩ := z'.2.closed.exists_sat
      obtain ⟨v, hv, t, ht, hg, -⟩ := (hsucc.sat_iff v').1 hv'
      refine ⟨t, ht, clocks v, DBM.contains_clocks.2 hv, ?_⟩
      rw [← clocks_delay, TATransition.rowEffect_guard_clocks]; exact hg
    obtain ⟨hpos, u, hu, hg⟩ := (Zone.holds_duration_iff hne).1 hd
    exact ⟨_, _, hu, fires_of_rowEffect hpos hg⟩
  · rintro ⟨v, v', hv, hfires⟩
    exact (Zone.exists_succ hv hfires).2

/-- The node at the end of a path has the valuations of the runs along the path. -/
theorem TimedPath.exists_zone {π : List TATransition} {s : Ptr} (h : TimedPath A n w π s) :
    ∃ Z : Zone n, (s, Z) ∈ (zoneNFA A n).eval w ∧
      ∀ v, Sat Z.bound v ↔ v ∈ valuationsAfter n π := by
  induction h with
  | nil hs => exact ⟨Zone.zero n, ⟨hs, rfl⟩, fun _ => Zone.sat_zero⟩
  | @snoc w π s c d tr v v' _ htr hv hfires ih =>
    obtain ⟨Z, hZ, hsat⟩ := ih
    have hv := (hsat v).2 hv
    obtain ⟨⟨Z', hsucc⟩, -⟩ := Zone.exists_succ hv hfires
    refine ⟨Z', ?_, fun u => ?_⟩
    · rw [NFA.eval_append_singleton]
      exact NFA.mem_stepSet.2
        ⟨_, hZ, mem_step_zoneNFA_iff.2 ⟨tr, htr, rfl, hsucc, v, v', hv, hfires⟩⟩
    · rw [hsucc.sat_iff, mem_valuationsAfter_append]
      exact exists_congr fun v => and_congr_left fun _ => hsat v

theorem exists_timedPath {z : ZConf n} (hz : z ∈ (zoneNFA A n).eval w) :
    ∃ π, TimedPath A n w π z.1 ∧ ∀ v, Sat z.2.bound v ↔ v ∈ valuationsAfter n π := by
  induction w using List.reverseRecOn generalizing z with
  | nil => exact ⟨[], .nil hz.1, fun v => by rw [hz.2]; exact Zone.sat_zero⟩
  | append_singleton w c ih =>
    rw [NFA.eval_append_singleton] at hz
    obtain ⟨z₁, hz₁, hstep⟩ := NFA.mem_stepSet.1 hz
    obtain ⟨π, hπ, hsat⟩ := ih hz₁
    obtain ⟨tr, htr, hlock, hsucc, v, v', hv, hfires⟩ := mem_step_zoneNFA_iff.1 hstep
    refine ⟨π ++ [tr], hlock ▸ hπ.snoc htr ((hsat v).1 hv) hfires, fun u => ?_⟩
    rw [hsucc.sat_iff, mem_valuationsAfter_append]
    exact exists_congr fun v => and_congr_left fun _ => hsat v

theorem TimedPath.mem_states {A : FiniteAutomaton TATransition} {π : List TATransition} {s : Ptr}
    (h : TimedPath A.toAutomaton n w π s) : s ∈ A.states := by
  induction h with
  | nil hs => exact A.initial_mem _ hs
  | snoc _ htr _ _ ih => exact A.target_mem _ ih _ _ htr

/-- **The runs of the zone graph** are the paths with delays. -/
theorem mem_eval_zoneNFA_iff {s : Ptr} :
    (∃ Z, (s, Z) ∈ (zoneNFA A n).eval w) ↔ ∃ π, TimedPath A n w π s := by
  constructor
  · rintro ⟨Z, hZ⟩
    obtain ⟨π, hπ, -⟩ := exists_timedPath hZ
    exact ⟨π, hπ⟩
  · rintro ⟨π, hπ⟩
    obtain ⟨Z, hZ, -⟩ := hπ.exists_zone
    exact ⟨Z, hZ⟩

end

/-! ## Which events pass -/

/-- The event is in a segment of the word with a path that ends in an accepting state, or
    whose length is a multiple of the buffer size. -/
def TimedAutomaton.OnPath (TA : TimedAutomaton) (N : ℕ) (w : List (UInt8 × ℚ)) (p : ℕ) : Prop :=
  ∃ i t π s, i ≤ p ∧ p ≤ t ∧ t < w.length ∧
    TimedPath TA.toAutomaton TA.clockSize (segment w i t) π s ∧
      (TA.isMatch s = true ∨ N ∣ (segment w i t).length)

/-- These are the events that the zone graph releases. -/
theorem TimedAutomaton.releases_iff_onPath {TA : TimedAutomaton} {N : ℕ} (hN : 0 < N)
    {w : List (UInt8 × ℚ)} {p : ℕ} :
    Releases (zoneNFA TA.toAutomaton TA.clockSize) N w p ↔ TA.OnPath N w p := by
  rw [Masking.releases_iff hN]
  constructor
  · rintro ⟨i, t, hip, hpt, ht, ⟨z, hacc, hz⟩ | ⟨hdvd, z, hz⟩⟩ <;>
      obtain ⟨π, hπ⟩ := mem_eval_zoneNFA_iff.1 ⟨z.2, hz⟩
    · exact ⟨i, t, π, z.1, hip, hpt, ht, hπ, Or.inl hacc⟩
    · exact ⟨i, t, π, z.1, hip, hpt, ht, hπ, Or.inr hdvd⟩
  · rintro ⟨i, t, π, s, hip, hpt, ht, hπ, h⟩
    obtain ⟨Z, hZ⟩ := mem_eval_zoneNFA_iff.2 ⟨π, hπ⟩
    exact ⟨i, t, hip, hpt, ht, h.imp (fun hacc => ⟨(s, Z), hacc, hZ⟩) fun hdvd => ⟨hdvd, _, hZ⟩⟩

/-- `f` is what `filter` computes with a machine built for the timed automaton. -/
def TimedAutomaton.IsFilter (TA : TimedAutomaton) (N : ℕ)
    (f : List (UInt8 × ℚ) → List (UInt8 × ℚ)) : Prop :=
  ∃ (gae : BitVec N → ℕ → Bool × BitVec N) (addr : Ptr ↪ ℕ) (order : Ptr → UInt8 → ℕ) (fuel : ℕ)
    (T : MooreMachine N (UInt8 × ℚ) DRTAState),
      (∀ k ≤ N, Enables gae k) ∧ TA.Builds addr order N fuel T ∧ f = filter gae T

section
variable {TA : TimedAutomaton} {N : ℕ} {f : List (UInt8 × ℚ) → List (UInt8 × ℚ)}
  {w : List (UInt8 × ℚ)}

theorem TimedAutomaton.IsFilter.isMasked (hf : TA.IsFilter N f) (hA : TA.NoMaskLabel) (hN : 0 < N)
    (hw : ∀ c ∈ w, 0 < c.2) :
    IsMasked (zoneNFA TA.toAutomaton TA.clockSize) N mask w (f w) := by
  obtain ⟨gae, addr, order, fuel, T, hgae, hT, rfl⟩ := hf
  exact isMasked_of_constructFilter_timed hA hN hgae hT.constructFilter hw

/-- An event other than a masked one is not its own mask. -/
theorem mask_ne_of_fst_ne {c : UInt8 × ℚ} (hne : c.1 ≠ '_'.toUInt8) : mask c ≠ c :=
  fun h => hne (congrArg Prod.fst h).symm

/-- The loop on `a` without timing. -/
def freeTimedLoop : TimedAutomaton := ⟨freeLoop, [1]⟩

theorem freeTimedLoop_next (s : Ptr) (c : UInt8) : freeTimedLoop.next s c =
    if c = 97 then [(⟨0, [], []⟩ : TATransition)] else [] := NDState.next_loop 97 _ c

theorem freeTimedLoop_noMaskLabel : freeTimedLoop.NoMaskLabel := fun s _ => by
  rw [freeTimedLoop_next]; exact if_neg (by decide)

theorem freeTimedLoop_not_names (x : ClockVariables) : ¬ freeTimedLoop.Names x := by
  rintro ⟨s, -, c, tr, htr, h⟩
  rw [freeTimedLoop_next] at htr
  split_ifs at htr
  · rw [List.mem_singleton.1 htr] at h
    rcases h with ⟨g, hg, -⟩ | hx
    · exact absurd hg List.not_mem_nil
    · exact absurd hx List.not_mem_nil
  · exact absurd htr List.not_mem_nil

theorem freeTimedLoop_buildable : freeTimedLoop.Buildable :=
  ⟨by decide, fun x hx => absurd hx (freeTimedLoop_not_names x)⟩

/-- The machine of the loop, for blocks of one event. -/
theorem exists_builds_freeTimedLoop : ∃ T,
    freeTimedLoop.Builds (Function.Embedding.refl ℕ) letterOrder 1 5 T := by
  obtain ⟨T, hT⟩ : ∃ T,
      freeTimedLoop.constructFilter (Function.Embedding.refl ℕ) letterOrder 1 5 = some T :=
    Option.isSome_iff_exists.1 (by decide +kernel)
  exact ⟨T, freeTimedLoop_buildable, hT⟩

/-- And its filter. -/
theorem isFilter_freeTimedLoop : ∃ f, freeTimedLoop.IsFilter 1 f ∧
    f [(97, 2), (98, 1)] = [(97, 2), (95, 1)] := by
  obtain ⟨T, hT, hout⟩ := Option.map_eq_some_iff.1 (by decide +kernel :
    ((freeTimedLoop.constructFilter (Function.Embedding.refl ℕ) letterOrder 1 5).map fun T =>
      filter (getAndEnable x86Mask) T [(97, 2), (98, 1)]) = some [(97, 2), (95, 1)])
  exact ⟨_, ⟨_, _, _, _, T, enables_x86Mask_one, ⟨freeTimedLoop_buildable, hT⟩, rfl⟩, hout⟩

end

/-- **Which events pass.** An event with a letter other than the mask character passes
    iff it is in a segment of the input with a path whose delays are possible one by
    one, that ends in an accepting state or has a multiple of the buffer size as its
    length. -/
theorem timed_passes_iff (TA : TimedAutomaton) (hA : TA.NoMaskLabel) (N : ℕ) (hN : 0 < N)
    (f : List (UInt8 × ℚ) → List (UInt8 × ℚ)) (hf : TA.IsFilter N f) (w : List (UInt8 × ℚ))
    (hw : ∀ c ∈ w, 0 < c.2) (p : ℕ) (c : UInt8 × ℚ) (hc : w[p]? = some c)
    (hne : c.1 ≠ '_'.toUInt8) :
    (f w)[p]? = some c ↔ TA.OnPath N w p := by
  rw [(hf.isMasked hA hN hw).getElem?_eq_some_iff hc (mask_ne_of_fst_ne hne),
    TimedAutomaton.releases_iff_onPath hN]

/-- The first event of the free loop passes, so there is a path. -/
theorem timed_passes_iff_freeTimedLoop : freeTimedLoop.OnPath 1 [(97, 2), (98, 1)] 0 := by
  obtain ⟨f, hf, hout⟩ := isFilter_freeTimedLoop
  exact (timed_passes_iff freeTimedLoop freeTimedLoop_noMaskLabel 1 (by decide) f hf
    [(97, 2), (98, 1)] (by simp) 0 (97, 2) rfl (by decide)).1 (by rw [hout]; rfl)

/-! ## The untimed filter before the timed one -/

/-- The NFA is the timed automaton `T` without its guards and resets. -/
structure Erases (T : FiniteAutomaton TATransition) (A : FiniteAutomaton NFATransition) :
    Prop where
  initialStates : T.initialStates = A.initialStates
  isMatch : ∀ s ∈ A.states, T.isMatch s = A.isMatch s
  next : ∀ s ∈ A.states, ∀ c, (T.next s c).map lock = A.next s c

section
variable {T : FiniteAutomaton TATransition} {A : FiniteAutomaton NFATransition}

/-- What the zone graph reads the NFA reads, whatever the delays. -/
theorem Erases.included (h : Erases T A) (n : ℕ) :
    Included (zoneNFA T.toAutomaton n) (relabel Prod.fst A.toNFA) := by
  refine Masking.included_of_simulation
    (R := fun (z : ZConf n) s => z.1 = s ∧ s ∈ A.states) ?_ ?_ ?_
  · rintro z ⟨hs, -⟩
    have hs : z.1 ∈ A.initialStates := h.initialStates ▸ hs
    exact ⟨z.1, hs, rfl, A.initial_mem _ hs⟩
  · rintro z s ⟨rfl, hs⟩ c z' ⟨tr, htr, hlock, -⟩
    have hnext : lock tr ∈ A.next z.1 c.1 := by
      rw [← h.next _ hs]; exact List.mem_map_of_mem htr
    refine ⟨lock tr, ?_, hlock, A.target_mem _ hs c.1 _ hnext⟩
    exact List.mem_map.2 ⟨_, hnext, rfl⟩
  · rintro z s ⟨rfl, hs⟩ hacc
    exact (h.isMatch _ hs).symm.trans hacc

end

/-- The untimed filter, on the letters of the events. -/
def filterLetters (g : List UInt8 → List UInt8) (w : List (UInt8 × ℚ)) : List (UInt8 × ℚ) :=
  (g (w.map Prod.fst)).zip (w.map Prod.snd)

/-- On the events, the untimed filter masks by the letters. -/
theorem IsFilter.isMasked_filterLetters {A : FiniteAutomaton NFATransition} {N : ℕ}
    {g : List UInt8 → List UInt8} (hg : IsFilter A N g) (hA : A.NoMaskLabel) (hN : 0 < N)
    (w : List (UInt8 × ℚ)) :
    IsMasked (relabel Prod.fst A.toNFA) N mask w (filterLetters g w) := by
  have hM := hg.isMasked hA hN (w.map Prod.fst)
  have hget : ∀ (p : ℕ) (c : UInt8 × ℚ) (b : UInt8), w[p]? = some c →
      (g (w.map Prod.fst))[p]? = some b → (filterLetters g w)[p]? = some (b, c.2) := by
    intro p c b hc hb
    unfold filterLetters
    rw [List.getElem?_zip_eq_some]
    exact ⟨hb, by rw [List.getElem?_map, hc]; rfl⟩
  refine ⟨?_, fun p hp hrel => ?_, fun p hp hrel => ?_⟩
  · unfold filterLetters
    rw [List.length_zip, hM.length_eq]; simp
  all_goals
    obtain ⟨c, hc⟩ : ∃ c, w[p]? = some c := ⟨_, List.getElem?_eq_getElem hp⟩
    have hp' : p < (w.map Prod.fst).length := by rwa [List.length_map]
    have hfst : (w.map Prod.fst)[p]? = some c.1 := by rw [List.getElem?_map, hc]; rfl
    rw [Masking.releases_relabel_iff] at hrel
  · rw [hc, hget p c c.1 hc (by rw [hM.keep p hp' hrel, hfst])]
  · rw [hc, hget p c (mask c.1) hc (by rw [hM.hide p hp' hrel, hfst]; rfl)]; rfl

/-- An event that the timed filter lets pass passes the untimed one. -/
theorem events_pass {T : TimedAutomaton} {A : FiniteAutomaton NFATransition} {N : ℕ}
    {f : List (UInt8 × ℚ) → List (UInt8 × ℚ)} {g : List UInt8 → List UInt8}
    (hT : T.NoMaskLabel) (hA : A.NoMaskLabel) (h : Erases T.toFiniteAutomaton A) (hN : 0 < N)
    (hf : T.IsFilter N f) (hg : IsFilter A N g) {w : List (UInt8 × ℚ)} (hw : ∀ c ∈ w, 0 < c.2)
    (p : ℕ) (c : UInt8 × ℚ) (hc : w[p]? = some c) (hp : (f w)[p]? = some c) :
    (g (w.map Prod.fst))[p]? = some c.1 := by
  have hgp := (hf.isMasked hT hN hw).getElem?_eq_some_of_imp (hg.isMasked_filterLetters hA hN w)
    hc hc (Releases.mono (h.included T.clockSize) dvd_rfl hN) hp
  exact (List.getElem?_zip_eq_some.1 hgp).1

/-- **The timed filter refines the untimed one**: an event that it lets pass passes the
    untimed filter, and filtering the letters first does not change its output. -/
theorem timed_refines_untimed (TA : TimedAutomaton) (hTA : TA.NoMaskLabel)
    (A : FiniteAutomaton NFATransition) (hA : A.NoMaskLabel)
    (h : Erases TA.toFiniteAutomaton A) (N : ℕ) (hN : 0 < N)
    (f : List (UInt8 × ℚ) → List (UInt8 × ℚ)) (hf : TA.IsFilter N f)
    (g : List UInt8 → List UInt8) (hg : IsFilter A N g) (w : List (UInt8 × ℚ))
    (hw : ∀ c ∈ w, 0 < c.2) :
    (∀ (p : ℕ) (c : UInt8 × ℚ), w[p]? = some c → (f w)[p]? = some c →
      (g (w.map Prod.fst))[p]? = some c.1) ∧
    f (filterLetters g w) = f w ∧ filterLetters g (f w) = f w := by
  have hinc := h.included TA.clockSize
  have hfw := hf.isMasked hTA hN hw
  have hgw := hg.isMasked_filterLetters hA hN w
  have hmaskg : ∀ (u : List (UInt8 × ℚ)) c,
      (relabel Prod.fst A.toNFA).eval (u ++ [mask c]) = ∅ := by
    intro u c
    rw [Masking.eval_relabel, List.map_append]
    exact eval_mask hA _
  have hpos : ∀ c ∈ filterLetters g w, 0 < c.2 := by
    rintro ⟨c, d⟩ hc
    obtain ⟨c', hc', rfl⟩ := List.mem_map.1 (List.of_mem_zip hc).2
    exact hw c' hc'
  refine ⟨events_pass hTA hA h hN hf hg hw, ?_, ?_⟩
  · exact IsMasked.eq_of_coarser_first hN hinc dvd_rfl mask_mask hmaskg hgw hfw
      (hf.isMasked hTA hN hpos)
  · exact hfw.eq_of_coarser_last hN hinc dvd_rfl mask_mask (hg.isMasked_filterLetters hA hN (f w))

theorem erases_freeTimedLoop : Erases freeTimedLoop.toFiniteAutomaton aLoop where
  initialStates := rfl
  isMatch _ _ := rfl
  next s _ c := by
    rw [freeTimedLoop_next, show aLoop.next s c = _ from NDState.next_loop 97 _ c]
    split_ifs <;> rfl

/-- The untimed loop before the timed one. -/
theorem timed_refines_untimed_loop : ∃ f g, freeTimedLoop.IsFilter 1 f ∧ IsFilter aLoop 1 g ∧
    f (filterLetters g [(97, 2), (98, 1)]) = f [(97, 2), (98, 1)] := by
  obtain ⟨f, hf, -⟩ := isFilter_freeTimedLoop
  obtain ⟨g, hg⟩ := exists_isFilter_aLoop (N := 1) (by decide) (by decide)
  exact ⟨f, g, hf, hg, (timed_refines_untimed freeTimedLoop freeTimedLoop_noMaskLabel aLoop
    aLoop_noMaskLabel erases_freeTimedLoop 1 (by decide) f hf g hg _ (by simp)).2.1⟩

/-! ## Factors of the input -/

/-- No path reads a letter without a transition. -/
theorem eval_unread_zone {A : FiniteAutomaton TATransition} {c : UInt8}
    (hc : ∀ s ∈ A.states, A.next s c = []) (u : List (UInt8 × ℚ)) (d : ℚ) :
    (zoneNFA A.toAutomaton n).eval (u ++ [(c, d)]) = ∅ := by
  rw [NFA.eval_append_singleton]
  refine Set.eq_empty_iff_forall_notMem.2 fun z hz => ?_
  obtain ⟨z', hz', tr, htr, -⟩ := NFA.mem_stepSet.1 hz
  obtain ⟨π, hπ, -⟩ := exists_timedPath hz'
  rw [hc z'.1 hπ.mem_states] at htr
  exact absurd htr (by simp)

/-- **Separators.** An event whose letter labels no transition separates the input: it is
    masked, and what is before and after it is filtered on its own. -/
theorem timed_filter_separated (TA : TimedAutomaton) (hA : TA.NoMaskLabel) (N : ℕ) (hN : 0 < N)
    (f : List (UInt8 × ℚ) → List (UInt8 × ℚ)) (hf : TA.IsFilter N f) (c : UInt8) (d : ℚ)
    (hd : 0 < d) (hc : ∀ s ∈ TA.states, TA.next s c = []) (x y : List (UInt8 × ℚ))
    (hx : ∀ c ∈ x, 0 < c.2) (hy : ∀ c ∈ y, 0 < c.2) :
    f (x ++ (c, d) :: y) = f x ++ ('_'.toUInt8, d) :: f y := by
  have hxy := (hf.isMasked hA hN hx).append_cons (fun u => eval_unread_zone hc u d)
    (hf.isMasked hA hN hy)
  have hw : ∀ c' ∈ x ++ (c, d) :: y, 0 < c'.2 := by
    intro c' hc'
    rcases List.mem_append.1 hc' with hc' | hc'
    · exact hx c' hc'
    · rcases List.mem_cons.1 hc' with rfl | hc'
      · exact hd
      · exact hy c' hc'
  exact (hf.isMasked hA hN hw).eq_of_releases_iff hxy fun _ => Iff.rfl

theorem timed_filter_separated_loop : ∃ f, freeTimedLoop.IsFilter 1 f ∧
    f [(97, 2), (98, 1), (97, 3)] = f [(97, 2)] ++ ('_'.toUInt8, 1) :: f [(97, 3)] := by
  obtain ⟨f, hf, -⟩ := isFilter_freeTimedLoop
  refine ⟨f, hf, timed_filter_separated freeTimedLoop freeTimedLoop_noMaskLabel 1 (by decide) f hf
    98 1 one_pos (fun s _ => ?_) [(97, 2)] [(97, 3)] (by simp) (by simp)⟩
  rw [freeTimedLoop_next]; exact if_neg (by decide)

/-- **Factors.** An event that passes in a factor of the input passes in the input, and
    the output up to the last `N - 1` events does not depend on what follows. -/
theorem timed_filter_factor (TA : TimedAutomaton) (hA : TA.NoMaskLabel) (N : ℕ) (hN : 0 < N)
    (f : List (UInt8 × ℚ) → List (UInt8 × ℚ)) (hf : TA.IsFilter N f) (w : List (UInt8 × ℚ))
    (hw : ∀ c ∈ w, 0 < c.2) (x y : List (UInt8 × ℚ)) (hx : ∀ c ∈ x, 0 < c.2)
    (hy : ∀ c ∈ y, 0 < c.2) :
    (∀ (p : ℕ) c, w[p]? = some c → (f w)[p]? = some c → (f (x ++ w ++ y))[x.length + p]? = some c) ∧
      (f (w ++ y)).take (w.length + 1 - N) = (f w).take (w.length + 1 - N) := by
  have hxw : ∀ c ∈ x ++ w ++ y, 0 < c.2 := by
    simp only [List.mem_append]
    rintro c ((hc | hc) | hc)
    · exact hx c hc
    · exact hw c hc
    · exact hy c hc
  have hwM := hf.isMasked hA hN hw
  refine ⟨fun p c hc hp => ?_, hwM.take_append_right hN (hf.isMasked hA hN fun c hc => ?_)⟩
  · exact hwM.getElem?_eq_some_of_imp (hf.isMasked hA hN hxw) hc (Masking.getElem?_infix x y hc)
      (fun hrel => hrel.infix x y) hp
  · rcases List.mem_append.1 hc with hc | hc
    · exact hw c hc
    · exact hy c hc

theorem timed_filter_factor_loop : ∃ f, freeTimedLoop.IsFilter 1 f ∧
    (f [(97, 2), (98, 1)]).take 1 = (f [(97, 2)]).take 1 := by
  obtain ⟨f, hf, -⟩ := isFilter_freeTimedLoop
  exact ⟨f, hf, (timed_filter_factor freeTimedLoop freeTimedLoop_noMaskLabel 1 (by decide) f hf
    [(97, 2)] (by simp) [] [(98, 1)] (by simp) (by simp)).2⟩

end MooreFilter

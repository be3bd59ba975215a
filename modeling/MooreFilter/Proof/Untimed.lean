/-
  The untimed filter.

  A machine tracks the runs of an automaton (`TracksRuns`) if the counter of its
  state after a word is the length of the longest block that a run over a suffix
  of the word releases.  Driven by the filter, it masks the letters that no run
  releases (`TracksRuns.isMasked`).

  * `tracksRuns_of_constructFilter`: the untimed machine tracks the runs of the
    NFA;
  * `filter_preserves`: the filter preserves the matches, and creates none;
  * `released_of_filter_eq`: it lets no letter pass without a run;
  * `filter_idempotent`.
-/
import MooreFilter.Proof.Subset

namespace MooreFilter

open Masking (segment lastBlock Releases IsMasked suffixEval)

/-! ## Machines that track runs -/

/-- The counter of the machine's state after a word in `P` is the length of the
    longest block that a run over a suffix of the word releases. -/
structure TracksRuns {N : ℕ} {α State σ : Type} [Alphabet α] [DeterministicState State α]
    (P : List α → Prop) (M : NFA α σ) (A : MooreMachine N α State) : Prop where
  fresh : A.IsFresh
  counter_le : ∀ x, P x → A.counter (A.stateAfter x) ≤ N
  lt_counter : ∀ x, P x → ∀ m, m < A.counter (A.stateAfter x) ↔
    ∃ i < x.length, ∃ s ∈ M.eval (x.drop i),
      (lastBlock N (x.length - i) = N ∨ s ∈ M.accept) ∧ m < lastBlock N (x.length - i)

section
variable {N : ℕ} {α State σ : Type} [Alphabet α] [DeterministicState State α]
  {P : List α → Prop} {M : NFA α σ} {A : MooreMachine N α State}
  {gae : BitVec N → ℕ → Bool × BitVec N}

theorem padded_take_of_le {w : List α} {t : ℕ} (ht : t < w.length) :
    (padded N w).take (t + 1) = w.take (t + 1) := by
  rw [padded, List.take_append_of_le_length ht]

/-- Past the end of the input, the last character read is a mask character. -/
theorem padded_take_of_ge {w : List α} {t : ℕ} (ht : w.length ≤ t) (htN : t < w.length + N) :
    (padded N w).take (t + 1) = (padded N w).take t ++ [maskChar] := by
  rw [List.take_add_one]
  congr 1
  rw [padded, List.getElem?_append_right ht, List.getElem?_replicate, if_pos (by omega)]
  rfl

/-- **The filter masks exactly the letters that no run releases.** -/
theorem TracksRuns.isMasked (hN : 0 < N) (hgae : ∀ n ≤ N, Enables gae n)
    (h : TracksRuns P M A) (hmask : ∀ u, M.eval (u ++ [maskChar]) = ∅) {w : List α}
    (hP : ∀ t, P ((padded N w).take (t + 1))) : IsMasked M N mask w (filter gae A w) := by
  have key : ∀ p < w.length, enabled gae A w p = true ↔ Releases M N w p := by
    intro p hp
    rw [enabled_iff hN hgae (fun t => h.counter_le _ (hP t)) hp]
    constructor
    · rintro ⟨t, hpt, htN, hlt⟩
      obtain ⟨i, hi, s, hs, hfull, hm⟩ := (h.lt_counter _ (hP t) _).1 hlt
      rcases lt_or_ge t w.length with ht | ht
      · rw [padded_take_of_le ht] at hi hs hfull hm
        rw [List.length_take, min_eq_left (show t + 1 ≤ w.length from ht)] at hi hfull hm
        refine ⟨i, t, s, ⟨by omega, ht, ?_, hfull⟩, hpt, by omega⟩
        rw [Masking.segment_eq_drop (by omega)]; exact hs
      · -- no run reads a mask character
        rw [padded_take_of_ge ht (by omega)] at hi hs
        rw [List.length_append, List.length_singleton] at hi
        rw [List.drop_append_of_le_length (by omega), hmask] at hs
        exact absurd hs (Set.notMem_empty _)
    · rintro ⟨i, t, s, ⟨hit, ht, hrun, hfull⟩, hpt, htp⟩
      have hlast : lastBlock N (t + 1 - i) ≤ N := Nat.mod_lt _ hN
      refine ⟨t, hpt, by omega, (h.lt_counter _ (hP t) _).2 ?_⟩
      rw [padded_take_of_le ht, List.length_take, min_eq_left (show t + 1 ≤ w.length from ht)]
      refine ⟨i, by omega, s, ?_, hfull, by omega⟩
      rw [← Masking.segment_eq_drop (by omega)]; exact hrun
  refine ⟨length_filter w, fun p hp hrel => ?_, fun p hp hrel => ?_⟩
  · rw [getElem?_filter hN h.fresh, (key p hp).2 hrel]; simp
  · rw [getElem?_filter hN h.fresh]
    have : enabled gae A w p ≠ true := fun he => hrel ((key p hp).1 he)
    simp [this]

end

/-! ## The untimed machine -/

section
variable {A : FiniteAutomaton NFATransition} {N : ℕ} {B : AutomatonWithCounter NFATransition}
  {src : Ptr → Ptr × ℕ}

/-- The counter product is a product of NFAs. -/
theorem CounterProduct.isProduct {τ : Type} [Transition τ] {A : FiniteAutomaton τ}
    {B : AutomatonWithCounter τ} (h : CounterProduct A.toAutomaton N B src) :
    Masking.IsProduct B.toNFA A.toAutomaton.toNFA (nextCount N) (fun p => (src p).1) B.counter
      {p | p ∈ B.states} where
  start p hp := by
    obtain ⟨hs, hzero⟩ := h.src_of_mem_initial hp
    have hB := h.initial_mem p hp
    exact ⟨hB, hs, (h.counter p hB).trans hzero⟩
  exists_start s hs := by
    obtain ⟨p, hp, he⟩ := h.exists_mem_initial hs
    exact ⟨p, hp, by rw [he]⟩
  step p hp a q hq := by
    obtain ⟨t', ht', rfl⟩ := List.mem_map.1 hq
    obtain ⟨t, ht, hB, hsrc, -⟩ := h.exists_of_mem_next hp ht'
    refine ⟨hB, ?_, ?_⟩
    · change (src (lock t')).1 ∈ (A.next (src p).1 a).map lock
      rw [hsrc]; exact List.mem_map.2 ⟨t, ht, rfl⟩
    · rw [h.counter _ hB, hsrc, h.counter p hp]
  exists_step p hp a s hs := by
    obtain ⟨t, ht, rfl⟩ := List.mem_map.1 hs
    obtain ⟨q, hq, hsrc, hmem⟩ := h.exists_mem_next hp ht
    exact ⟨q, List.mem_map.2 ⟨_, hmem, lock_assign t q⟩, by rw [hsrc]⟩
  accept p hp := by
    change B.isMatch p = true ↔ A.isMatch (src p).1 = true
    rw [h.isMatch p hp]

theorem iterate_nextCount_lastBlock (hN : 0 < N) (k : ℕ) :
    (nextCount N)^[k + 1] 0 = lastBlock N (k + 1) := iterate_nextCount N k hN

/-- **The untimed machine tracks the runs of the NFA.** -/
theorem tracksRuns_of_constructFilter (hN : 0 < N) {addr : Ptr ↪ ℕ} {fuel : ℕ}
    {M : MooreMachine N UInt8 DFAState}
    (h : constructFilter addr N A.toAutomaton fuel = some M) :
    TracksRuns (fun _ => True) A.toAutomaton.toNFA M := by
  obtain ⟨B, hB, hM⟩ := Option.bind_eq_some_iff.1 h
  obtain ⟨src, hP⟩ := counterProduct_of_run hN hB
  have hT := tracksSuffixes_of_run (hP.wellFormed hN) hM
  exact ⟨hT.fresh, hT.counter_le, fun x hx m => (hT.lt_counter x hx m).trans
    (hP.isProduct.level_iff (iterate_nextCount_lastBlock hN) x m)⟩

theorem constructFilter_terminates (hN : 0 < N) (addr : Ptr ↪ ℕ) :
    ∃ fuel M, constructFilter addr N A.toAutomaton fuel = some M := by
  obtain ⟨fuel₁, B, hB⟩ := toAutomatonWithCounter_terminates (A := A) hN addr
  obtain ⟨src, hP⟩ := counterProduct_of_run hN hB
  obtain ⟨fuel₂, M, hM⟩ := toMooreMachine_terminates addr (hP.wellFormed hN)
  refine ⟨max fuel₁ fuel₂, M, Option.bind_eq_some_iff.2 ⟨B, ?_, ?_⟩⟩
  · obtain ⟨b, hb, he⟩ := Option.map_eq_some_iff.1 hB
    exact Option.map_eq_some_iff.2 ⟨b, Worklist.run_mono (le_max_left _ _) hb, he⟩
  · obtain ⟨b, hb, he⟩ := Option.map_eq_some_iff.1 hM
    exact Option.map_eq_some_iff.2 ⟨b, Worklist.run_mono (le_max_right _ _) hb, he⟩

/-- Without a transition on the mask character no run reads it. -/
theorem eval_mask (hA : A.NoMaskLabel) (u : List UInt8) :
    A.toAutomaton.toNFA.eval (u ++ [maskChar]) = ∅ := by
  have hmem : ∀ u : List UInt8, ∀ s ∈ A.toAutomaton.toNFA.eval u, s ∈ A.states := by
    intro u
    induction u using List.reverseRecOn with
    | nil => exact fun s hs => A.initial_mem s hs
    | append_singleton u c ih =>
      intro s hs
      rw [NFA.eval_append_singleton] at hs
      obtain ⟨s', hs', hstep⟩ := NFA.mem_stepSet.1 hs
      obtain ⟨t, ht, rfl⟩ := List.mem_map.1 hstep
      exact A.target_mem s' (ih s' hs') c t ht
  rw [NFA.eval_append_singleton]
  refine Set.eq_empty_iff_forall_notMem.2 fun s hs => ?_
  obtain ⟨s', hs', hstep⟩ := NFA.mem_stepSet.1 hs
  obtain ⟨t, ht, -⟩ := List.mem_map.1 hstep
  have hnil : A.next s' maskChar = [] := hA s' (hmem u s' hs')
  rw [hnil] at ht
  exact absurd ht (by simp)

/-- The untimed filter masks the letters that no run of the NFA releases. -/
theorem isMasked_of_constructFilter (hA : A.NoMaskLabel) (hN : 0 < N)
    {gae : BitVec N → ℕ → Bool × BitVec N} (hgae : ∀ n ≤ N, Enables gae n) {addr : Ptr ↪ ℕ}
    {fuel : ℕ} {M : MooreMachine N UInt8 DFAState}
    (h : constructFilter addr N A.toAutomaton fuel = some M) (w : List UInt8) :
    IsMasked A.toAutomaton.toNFA N mask w (filter gae M w) :=
  (tracksRuns_of_constructFilter hN h).isMasked hN hgae (eval_mask hA) fun _ => trivial

end

/-! ## The properties of the untimed filter -/

/-- The loop on `a`, as an NFA. -/
def aLoop : FiniteAutomaton NFATransition :=
  FiniteAutomaton.loop 97 [(0 : NFATransition)] (by decide)

theorem aLoop_noMaskLabel : aLoop.NoMaskLabel := fun s _ =>
  (NDState.next_loop 97 [(0 : NFATransition)] '_'.toUInt8).trans (if_neg (by decide))

/-- The filter of the loop, for blocks of two letters. -/
theorem constructFilter_aLoop : ∃ M,
    constructFilter (Function.Embedding.refl ℕ) 2 aLoop.toAutomaton 5 = some M ∧
      filter (getAndEnable x86Mask) M [97, 98, 97, 97] = [97, 95, 97, 97] :=
  Option.map_eq_some_iff.1 (by decide +kernel :
    ((constructFilter (Function.Embedding.refl ℕ) 2 aLoop.toAutomaton 5).map fun M =>
      filter (getAndEnable x86Mask) M [97, 98, 97, 97]) = some [97, 95, 97, 97])

/-- **Untimed filtering preserves the matches.** The machine is built, and of its
    output the same segments are accepted as of the input; they are unmasked. -/
theorem filter_preserves (A : FiniteAutomaton NFATransition) (hA : A.NoMaskLabel) (N : ℕ)
    (hN : 0 < N) (gae : BitVec N → ℕ → Bool × BitVec N) (hgae : ∀ n ≤ N, Enables gae n)
    (addr : Ptr ↪ ℕ) (w : List UInt8) :
    (∃ fuel M, constructFilter addr N A.toAutomaton fuel = some M) ∧
    ∀ fuel M, constructFilter addr N A.toAutomaton fuel = some M →
      (filter gae M w).length = w.length ∧
      ∀ i j, i ≤ j → j < w.length →
        (segment w i j ∈ A.toNFA.accepts ↔ segment (filter gae M w) i j ∈ A.toNFA.accepts) ∧
        (segment w i j ∈ A.toNFA.accepts → segment (filter gae M w) i j = segment w i j) := by
  refine ⟨constructFilter_terminates hN addr, fun fuel M h => ?_⟩
  have hM := isMasked_of_constructFilter hA hN hgae h w
  refine ⟨hM.length_eq, fun i j hij hj => ⟨?_, hM.segment_eq hN hij hj⟩⟩
  exact hM.accepts_iff hN (fun u _ => eval_mask hA u) hij hj

/-- Of `abaa`, the filter of the loop keeps the matches. -/
theorem filter_preserves_aLoop :
    segment [97, 98, 97, 97] 2 3 ∈ aLoop.toNFA.accepts ↔
      segment [97, 95, 97, 97] 2 3 ∈ aLoop.toNFA.accepts := by
  obtain ⟨M, hM, hout⟩ := constructFilter_aLoop
  have h := (((filter_preserves aLoop aLoop_noMaskLabel 2 (by decide) (getAndEnable x86Mask)
    (fun n hn => getAndEnable_enables (Or.inl (by omega))) (Function.Embedding.refl ℕ)
    [97, 98, 97, 97]).2 5 M hM).2 2 3 (by decide) (by decide)).1
  rwa [hout] at h

/-- **The untimed filter lets no letter pass without a reason**: an unmasked
    letter is in the last block of a run, which is full or ends a match. -/
theorem released_of_filter_eq (A : FiniteAutomaton NFATransition) (hA : A.NoMaskLabel) (N : ℕ)
    (hN : 0 < N) (gae : BitVec N → ℕ → Bool × BitVec N) (hgae : ∀ n ≤ N, Enables gae n)
    (addr : Ptr ↪ ℕ) (w : List UInt8) :
    (∃ fuel M, constructFilter addr N A.toAutomaton fuel = some M) ∧
    ∀ fuel M, constructFilter addr N A.toAutomaton fuel = some M →
      ∀ p c, w[p]? = some c → c ≠ '_'.toUInt8 → (filter gae M w)[p]? = some c →
        ∃ i t s, i ≤ t ∧ t < w.length ∧ s ∈ A.toNFA.eval (segment w i t) ∧
          p ≤ t ∧ t < p + lastBlock N (t - i + 1) ∧
          (lastBlock N (t - i + 1) = N ∨ A.isMatch s = true) := by
  refine ⟨constructFilter_terminates hN addr, fun fuel M h p c hc hne hout => ?_⟩
  have hM := isMasked_of_constructFilter hA hN hgae h w
  have hp : p < w.length := (List.getElem?_eq_some_iff.1 hc).1
  have hrel : Releases A.toNFA N w p := by
    by_contra hrel
    rw [hM.hide p hp hrel, hc] at hout
    exact hne (Option.some.inj hout).symm
  obtain ⟨i, t, s, ⟨hit, ht, hrun, hfull⟩, hpt, htp⟩ := hrel
  rw [show t + 1 - i = t - i + 1 by omega] at hfull htp
  exact ⟨i, t, s, hit, ht, hrun, hpt, htp, hfull⟩

/-- The filter of the loop passes the last letter of `abaa`, so there is a run. -/
theorem released_of_filter_eq_aLoop : ∃ i t s, i ≤ t ∧ t < 4 ∧
    s ∈ aLoop.toNFA.eval (segment [97, 98, 97, 97] i t) ∧ 3 ≤ t ∧
    t < 3 + lastBlock 2 (t - i + 1) ∧ (lastBlock 2 (t - i + 1) = 2 ∨ aLoop.isMatch s = true) := by
  obtain ⟨M, hM, hout⟩ := constructFilter_aLoop
  exact (released_of_filter_eq aLoop aLoop_noMaskLabel 2 (by decide) (getAndEnable x86Mask)
    (fun n hn => getAndEnable_enables (Or.inl (by omega))) (Function.Embedding.refl ℕ)
    [97, 98, 97, 97]).2 5 M hM 3 97 rfl (by decide) (by rw [hout]; rfl)

/-- **Untimed filtering is idempotent**: a second pass, through a machine built
    anew, changes nothing. -/
theorem filter_idempotent (A : FiniteAutomaton NFATransition) (hA : A.NoMaskLabel) (N : ℕ)
    (hN : 0 < N) (gae : BitVec N → ℕ → Bool × BitVec N) (hgae : ∀ n ≤ N, Enables gae n)
    (w : List UInt8) :
    (∀ addr, ∃ fuel M, constructFilter addr N A.toAutomaton fuel = some M) ∧
    ∀ addr fuel M addr' fuel' M', constructFilter addr N A.toAutomaton fuel = some M →
      constructFilter addr' N A.toAutomaton fuel' = some M' →
        filter gae M' (filter gae M w) = filter gae M w := by
  refine ⟨constructFilter_terminates hN, fun addr fuel M addr' fuel' M' h h' => ?_⟩
  exact (isMasked_of_constructFilter hA hN hgae h w).unique_masked hN mask_mask
    (isMasked_of_constructFilter hA hN hgae h' (filter gae M w))

/-- The output for `abaa` of the filter of the loop is its own output. -/
theorem filter_idempotent_aLoop : ∃ M,
    constructFilter (Function.Embedding.refl ℕ) 2 aLoop.toAutomaton 5 = some M ∧
      filter (getAndEnable x86Mask) M [97, 95, 97, 97] = [97, 95, 97, 97] := by
  obtain ⟨M, hM, hout⟩ := constructFilter_aLoop
  have h := (filter_idempotent aLoop aLoop_noMaskLabel 2 (by decide) (getAndEnable x86Mask)
    (fun n hn => getAndEnable_enables (Or.inl (by omega))) [97, 98, 97, 97]).2 _ 5 M _ 5 M hM hM
  rw [hout] at h
  exact ⟨M, hM, h⟩

end MooreFilter

/-
  Laws of the untimed filter.

  `IsFilter A N f`: the function `f` is what `filter` computes with a machine that
  `constructFilter` makes for `A`.  The laws hold for any order of the addresses,
  and for any bit buffer that sets its bits exactly.

  * `passes_iff`: exactly which letters pass;
  * `least_filter`: no other masking that keeps the matches hides more, if all runs
    are shorter than the buffer;
  * `filter_mono`, `filter_congr`: more words, or a divisor of the buffer size, let
    more letters pass; the output depends on the words alone;
  * `filter_cascade`: two filters in a row, of which one is the finer;
  * `passes_iff_startAt`: several initial states are as many filters;
  * `filter_separated`: a letter without a transition separates the input;
  * `filter_factor`: what comes before and after a factor of the input.
-/
import MooreFilter.Lib.Comparison
import MooreFilter.Proof.Untimed

namespace MooreFilter

open Masking (segment Releases IsMasked InSegment Included)

/-- `f` is what `filter` computes with a machine made for the automaton. -/
def IsFilter (A : FiniteAutomaton NFATransition) (N : ℕ) (f : List UInt8 → List UInt8) : Prop :=
  ∃ (gae : BitVec N → ℕ → Bool × BitVec N) (addr : Ptr ↪ ℕ) (fuel : ℕ)
    (M : MooreMachine N UInt8 DFAState), (∀ n ≤ N, Enables gae n) ∧
      constructFilter addr N A.toAutomaton fuel = some M ∧ f = filter gae M

section
variable {A A' : FiniteAutomaton NFATransition} {N N' : ℕ} {f f' : List UInt8 → List UInt8}

theorem exists_isFilter (A : FiniteAutomaton NFATransition) (hN : 0 < N)
    (gae : BitVec N → ℕ → Bool × BitVec N) (hgae : ∀ n ≤ N, Enables gae n) :
    ∃ f, IsFilter A N f := by
  obtain ⟨fuel, M, hM⟩ := constructFilter_terminates (A := A) hN (Function.Embedding.refl ℕ)
  exact ⟨_, gae, _, fuel, M, hgae, hM, rfl⟩

theorem IsFilter.isMasked (hf : IsFilter A N f) (hA : A.NoMaskLabel) (hN : 0 < N)
    (w : List UInt8) : IsMasked A.toNFA N mask w (f w) := by
  obtain ⟨gae, addr, fuel, M, hgae, hM, rfl⟩ := hf
  exact isMasked_of_constructFilter hA hN hgae hM w

/-- A letter other than the mask character passes iff it is released. -/
theorem IsFilter.passes_iff_releases (hf : IsFilter A N f) (hA : A.NoMaskLabel) (hN : 0 < N)
    {w : List UInt8} {p : ℕ} {c : UInt8} (hc : w[p]? = some c) (hne : c ≠ '_'.toUInt8) :
    (f w)[p]? = some c ↔ Releases A.toNFA N w p :=
  (hf.isMasked hA hN w).getElem?_eq_some_iff hc hne.symm

/-- No run reads a letter without a transition. -/
theorem eval_unread {A : FiniteAutomaton NFATransition} {c : UInt8}
    (hc : ∀ s ∈ A.states, A.next s c = []) (u : List UInt8) : A.toNFA.eval (u ++ [c]) = ∅ := by
  have hmem : ∀ u : List UInt8, ∀ s ∈ A.toNFA.eval u, s ∈ A.states := by
    intro u
    induction u using List.reverseRecOn with
    | nil => exact fun s hs => A.initial_mem s hs
    | append_singleton u c ih =>
      intro s hs
      rw [NFA.eval_append_singleton] at hs
      obtain ⟨s', hs', hstep⟩ := NFA.mem_stepSet.1 hs
      obtain ⟨t, ht, rfl⟩ := List.mem_map.1 hstep
      exact A.target_mem s' (ih s' hs') c t ht
  rw [NFA.eval_append_singleton]
  refine Set.eq_empty_iff_forall_notMem.2 fun s hs => ?_
  obtain ⟨s', hs', hstep⟩ := NFA.mem_stepSet.1 hs
  obtain ⟨t, ht, -⟩ := List.mem_map.1 hstep
  rw [hc s' (hmem u s' hs')] at ht
  exact absurd ht (by simp)

/-- The filters of the loop on `a`. -/
theorem exists_isFilter_aLoop {N : ℕ} (hN : 0 < N) (hN' : N ≤ 30) : ∃ f, IsFilter aLoop N f :=
  exists_isFilter aLoop hN (getAndEnable x86Mask)
    fun _ hn => getAndEnable_enables (Or.inl (hn.trans hN'))

theorem isFilter_aLoop_output : ∃ f, IsFilter aLoop 2 f ∧
    f [97, 98, 97, 97] = [97, 95, 97, 97] ∧ f [97, 98, 97] = [97, 95, 97] := by
  obtain ⟨M, hM, hout⟩ := Option.map_eq_some_iff.1 (by decide +kernel :
    ((constructFilter (Function.Embedding.refl ℕ) 2 aLoop.toAutomaton 5).map fun M =>
      (filter (getAndEnable x86Mask) M [97, 98, 97, 97],
        filter (getAndEnable x86Mask) M [97, 98, 97])) =
      some ([97, 95, 97, 97], [97, 95, 97]))
  obtain ⟨h₁, h₂⟩ := Prod.mk.inj hout
  exact ⟨_, ⟨_, _, _, M, fun n hn => getAndEnable_enables (Or.inl (by omega)), hM, rfl⟩, h₁, h₂⟩

theorem aLoop_unread : ∀ s ∈ aLoop.states, aLoop.next s 98 = [] := fun _ _ =>
  (NDState.next_loop 97 [(0 : NFATransition)] 98).trans (if_neg (by decide))

end

/-! ## Which letters pass -/

/-- **Which letters pass.** A letter other than the mask character passes iff it is
    in a match, or in a segment of the input that has a run and whose length is a
    multiple of the buffer size. -/
theorem passes_iff (A : FiniteAutomaton NFATransition) (hA : A.NoMaskLabel) (N : ℕ) (hN : 0 < N)
    (f : List UInt8 → List UInt8) (hf : IsFilter A N f) (w : List UInt8) (p : ℕ) (c : UInt8)
    (hc : w[p]? = some c) (hne : c ≠ '_'.toUInt8) :
    (f w)[p]? = some c ↔ ∃ i t, i ≤ p ∧ p ≤ t ∧ t < w.length ∧
      (segment w i t ∈ A.toNFA.accepts ∨
        N ∣ (segment w i t).length ∧ ∃ s, s ∈ A.toNFA.eval (segment w i t)) :=
  (hf.passes_iff_releases hA hN hc hne).trans (Masking.releases_iff hN)

/-- The last letter of `abaa` passes, so it is in such a segment. -/
theorem passes_iff_aLoop : ∃ i t, i ≤ 3 ∧ 3 ≤ t ∧ t < 4 ∧
    (segment [97, 98, 97, 97] i t ∈ aLoop.toNFA.accepts ∨
      2 ∣ (segment [(97 : UInt8), 98, 97, 97] i t).length ∧
        ∃ s, s ∈ aLoop.toNFA.eval (segment [97, 98, 97, 97] i t)) := by
  obtain ⟨f, hf, hout, -⟩ := isFilter_aLoop_output
  exact (passes_iff aLoop aLoop_noMaskLabel 2 (by decide) f hf [97, 98, 97, 97] 3 97 rfl
    (by decide)).1 (by rw [hout]; rfl)

/-- **The least filter.** If the automaton has no run over a segment of the input
    that is as long as the buffer, then whatever keeps the matches keeps what the
    filter lets pass. -/
theorem least_filter (A : FiniteAutomaton NFATransition) (hA : A.NoMaskLabel) (N : ℕ) (hN : 0 < N)
    (f : List UInt8 → List UInt8) (hf : IsFilter A N f) (w : List UInt8)
    (hshort : ∀ i t, t < w.length → ∀ s ∈ A.toNFA.eval (segment w i t), t + 1 - i < N)
    (v : List UInt8) (hv : ∀ i t, i ≤ t → t < w.length → segment w i t ∈ A.toNFA.accepts →
      segment v i t = segment w i t) (p : ℕ) (hp : (f w)[p]? ≠ w[p]?.map mask) :
    v[p]? = w[p]? :=
  (hf.isMasked hA hN w).least hN (fun i t ht ⟨s, hs⟩ => hshort i t ht s hs) hv hp

/-- Of `aba`, what keeps the matches keeps the last letter. -/
theorem least_filter_aLoop : ∃ f, IsFilter aLoop 2 f ∧ ∀ v : List UInt8,
    (∀ i t, i ≤ t → t < 3 → segment [97, 98, 97] i t ∈ aLoop.toNFA.accepts →
      segment v i t = segment [97, 98, 97] i t) → v[2]? = some 97 := by
  obtain ⟨f, hf, -, hout⟩ := isFilter_aLoop_output
  refine ⟨f, hf, fun v hv => least_filter aLoop aLoop_noMaskLabel 2 (by decide) f hf [97, 98, 97]
    (fun i t ht s hs => ?_) v hv 2 (by rw [hout]; decide)⟩
  -- a longer segment has the letter `b`
  by_contra hlen
  have ht : t < 3 := ht
  obtain ⟨s', hs'⟩ := Masking.exists_eval_of_le (p := 1) hs (by omega) (by omega)
  obtain ⟨u, hu⟩ := Masking.exists_segment_eq_append_singleton (w := [97, 98, 97]) (p := 1)
    (c := (98 : UInt8)) (i := i) rfl (by omega)
  rw [hu, eval_unread aLoop_unread] at hs'
  exact hs'

/-! ## Comparing filters -/

/-- **More words, more letters.** A letter that passes still does for an automaton
    with more runs and matches, and for a buffer size that divides the other. -/
theorem filter_mono (A A' : FiniteAutomaton NFATransition) (hA : A.NoMaskLabel)
    (hA' : A'.NoMaskLabel) (h : Included A.toNFA A'.toNFA) (N N' : ℕ) (hN : 0 < N) (hdvd : N' ∣ N)
    (f f' : List UInt8 → List UInt8) (hf : IsFilter A N f) (hf' : IsFilter A' N' f')
    (w : List UInt8) (p : ℕ) (c : UInt8) (hc : w[p]? = some c) (hp : (f w)[p]? = some c) :
    (f' w)[p]? = some c := by
  have hN' := Nat.pos_of_dvd_of_pos hdvd hN
  exact (hf.isMasked hA hN w).getElem?_eq_some_of_imp (hf'.isMasked hA' hN' w) hc hc
    (Releases.mono h hdvd hN) hp

/-- The third letter of `abaa` passes for blocks of four letters, and of two. -/
theorem filter_mono_aLoop : ∃ f f', IsFilter aLoop 4 f ∧ IsFilter aLoop 2 f' ∧
    ((f [97, 98, 97, 97])[2]? = some 97 → (f' [97, 98, 97, 97])[2]? = some 97) := by
  obtain ⟨f, hf⟩ := exists_isFilter_aLoop (N := 4) (by decide) (by decide)
  obtain ⟨f', hf'⟩ := exists_isFilter_aLoop (N := 2) (by decide) (by decide)
  exact ⟨f, f', hf, hf', filter_mono aLoop aLoop aLoop_noMaskLabel aLoop_noMaskLabel (.refl _) 4 2
    (by decide) (by decide) f f' hf hf' _ 2 97 rfl⟩

/-- **The output depends on the words alone**: not on the order of the addresses, the
    bit buffer, or the automaton for the words. -/
theorem filter_congr (A A' : FiniteAutomaton NFATransition) (hA : A.NoMaskLabel)
    (hA' : A'.NoMaskLabel)
    (hread : ∀ u, (∃ s, s ∈ A.toNFA.eval u) ↔ ∃ s, s ∈ A'.toNFA.eval u)
    (haccepts : A.toNFA.accepts = A'.toNFA.accepts) (N : ℕ) (hN : 0 < N)
    (f f' : List UInt8 → List UInt8) (hf : IsFilter A N f) (hf' : IsFilter A' N f') : f = f' := by
  funext w
  refine (hf.isMasked hA hN w).eq_of_releases_iff (hf'.isMasked hA' hN w) fun p => ⟨?_, ?_⟩
  · exact Releases.mono ⟨fun u => (hread u).1, haccepts.le⟩ dvd_rfl hN
  · exact Releases.mono ⟨fun u => (hread u).2, haccepts.ge⟩ dvd_rfl hN

/-- Two machines for the loop, for two orders of the addresses. -/
theorem filter_congr_aLoop : ∃ M M',
    constructFilter (Function.Embedding.refl ℕ) 2 aLoop.toAutomaton 5 = some M ∧
      constructFilter (Equiv.swap 0 1).toEmbedding 2 aLoop.toAutomaton 5 = some M' ∧
      filter (getAndEnable x86Mask) M = filter (getAndEnable x86Mask) M' := by
  obtain ⟨M, hM⟩ : ∃ M,
      constructFilter (Function.Embedding.refl ℕ) 2 aLoop.toAutomaton 5 = some M :=
    Option.isSome_iff_exists.1 (by decide +kernel)
  obtain ⟨M', hM'⟩ : ∃ M',
      constructFilter (Equiv.swap 0 1).toEmbedding 2 aLoop.toAutomaton 5 = some M' :=
    Option.isSome_iff_exists.1 (by decide +kernel)
  have hgae : ∀ n ≤ 2, Enables (getAndEnable (N := 2) x86Mask) n :=
    fun n hn => getAndEnable_enables (Or.inl (by omega))
  exact ⟨M, M', hM, hM', filter_congr aLoop aLoop aLoop_noMaskLabel aLoop_noMaskLabel
    (fun _ => Iff.rfl) rfl 2 (by decide) _ _ ⟨_, _, 5, M, hgae, hM, rfl⟩
    ⟨_, _, 5, M', hgae, hM', rfl⟩⟩

/-- **Two filters in a row.** A filter with more words, or a divisor of the buffer
    size, makes no difference to the output of the other, before it or after it. -/
theorem filter_cascade (A A' : FiniteAutomaton NFATransition) (hA : A.NoMaskLabel)
    (hA' : A'.NoMaskLabel) (h : Included A.toNFA A'.toNFA) (N N' : ℕ) (hN : 0 < N) (hdvd : N' ∣ N)
    (f f' : List UInt8 → List UInt8) (hf : IsFilter A N f) (hf' : IsFilter A' N' f')
    (w : List UInt8) : f (f' w) = f w ∧ f' (f w) = f w := by
  have hN' := Nat.pos_of_dvd_of_pos hdvd hN
  have hw := hf.isMasked hA hN w
  refine ⟨?_, hw.eq_of_coarser_last hN h hdvd mask_mask (hf'.isMasked hA' hN' (f w))⟩
  exact IsMasked.eq_of_coarser_first hN h hdvd mask_mask (fun u _ => eval_mask hA' u)
    (hf'.isMasked hA' hN' w) hw (hf.isMasked hA hN (f' w))

/-- The filters of the loop for blocks of four letters, and of two. -/
theorem filter_cascade_aLoop : ∃ f f', IsFilter aLoop 4 f ∧ IsFilter aLoop 2 f' ∧
    f (f' [97, 98, 97, 97]) = f [97, 98, 97, 97] := by
  obtain ⟨f, hf⟩ := exists_isFilter_aLoop (N := 4) (by decide) (by decide)
  obtain ⟨f', hf'⟩ := exists_isFilter_aLoop (N := 2) (by decide) (by decide)
  exact ⟨f, f', hf, hf', (filter_cascade aLoop aLoop aLoop_noMaskLabel aLoop_noMaskLabel (.refl _)
    4 2 (by decide) (by decide) f f' hf hf' _).1⟩

/-! ## Several patterns -/

/-- The automaton with one of its initial states. -/
def FiniteAutomaton.startAt {τ : Type} [Transition τ] (A : FiniteAutomaton τ) (s : Ptr)
    (hs : s ∈ A.initialStates) : FiniteAutomaton τ where
  toAutomaton := { A.toAutomaton with initialStates := [s] }
  states_lt := A.states_lt
  initial_mem := fun _ hs' => List.mem_singleton.1 hs' ▸ A.initial_mem s hs
  target_mem := A.target_mem

theorem FiniteAutomaton.toNFA_startAt (A : FiniteAutomaton NFATransition) {s : Ptr}
    (hs : s ∈ A.initialStates) :
    (A.startAt s hs).toNFA = Masking.startAt A.toNFA s := by
  have hstart : {s' | s' ∈ [s]} = ({s} : Set Ptr) := Set.ext fun _ => List.mem_singleton
  unfold Masking.startAt
  rw [← hstart]
  rfl

/-- **Several patterns.** A letter passes iff it passes for one of the initial
    states. -/
theorem passes_iff_startAt (A : FiniteAutomaton NFATransition) (hA : A.NoMaskLabel) (N : ℕ)
    (hN : 0 < N) (f : List UInt8 → List UInt8) (hf : IsFilter A N f)
    (g : Ptr → List UInt8 → List UInt8)
    (hg : ∀ s (hs : s ∈ A.initialStates), IsFilter (A.startAt s hs) N (g s)) (w : List UInt8)
    (p : ℕ) (c : UInt8) (hc : w[p]? = some c) (hne : c ≠ '_'.toUInt8) :
    (f w)[p]? = some c ↔ ∃ s ∈ A.initialStates, (g s w)[p]? = some c := by
  rw [hf.passes_iff_releases hA hN hc hne, Masking.releases_iff_startAt]
  refine exists_congr fun s => and_congr_right fun (hs : s ∈ A.initialStates) => ?_
  rw [(hg s hs).passes_iff_releases hA hN hc hne, FiniteAutomaton.toNFA_startAt]

/-- The loop has one initial state. -/
theorem passes_iff_startAt_aLoop : ∃ f, ∃ g : Ptr → List UInt8 → List UInt8, IsFilter aLoop 2 f ∧
    ((f [97, 98, 97, 97])[3]? = some 97 ↔
      ∃ s ∈ aLoop.initialStates, (g s [97, 98, 97, 97])[3]? = some (97 : UInt8)) := by
  obtain ⟨f, hf⟩ := exists_isFilter_aLoop (N := 2) (by decide) (by decide)
  obtain ⟨g, hg⟩ := exists_isFilter (aLoop.startAt 0 (List.mem_singleton_self 0)) (N := 2)
    (by decide) (getAndEnable x86Mask) fun n hn => getAndEnable_enables (Or.inl (by omega))
  refine ⟨f, fun _ => g, hf, passes_iff_startAt aLoop aLoop_noMaskLabel 2 (by decide) f hf _
    (fun s hs => ?_) _ 3 97 rfl (by decide)⟩
  obtain rfl := List.mem_singleton.1 hs
  exact hg

/-! ## Factors of the input -/

/-- **Separators.** A letter that labels no transition separates the input: it is
    masked, and what is before and after it is filtered on its own. -/
theorem filter_separated (A : FiniteAutomaton NFATransition) (hA : A.NoMaskLabel) (N : ℕ)
    (hN : 0 < N) (f : List UInt8 → List UInt8) (hf : IsFilter A N f) (c : UInt8)
    (hc : ∀ s ∈ A.states, A.next s c = []) (x y : List UInt8) :
    f (x ++ c :: y) = f x ++ '_'.toUInt8 :: f y := by
  have hxy := (hf.isMasked hA hN x).append_cons (eval_unread hc) (hf.isMasked hA hN y)
  exact (hf.isMasked hA hN (x ++ c :: y)).eq_of_releases_iff hxy fun _ => Iff.rfl

/-- The letter `b` separates `abaa` for the loop on `a`. -/
theorem filter_separated_aLoop : ∃ f, IsFilter aLoop 2 f ∧
    f [97, 98, 97, 97] = f [97] ++ '_'.toUInt8 :: f [97, 97] := by
  obtain ⟨f, hf⟩ := exists_isFilter_aLoop (N := 2) (by decide) (by decide)
  exact ⟨f, hf, filter_separated aLoop aLoop_noMaskLabel 2 (by decide) f hf 98 aLoop_unread [97]
    [97, 97]⟩

/-- **Factors.** A letter that passes in a factor of the input passes in the input,
    and the output up to the last `N - 1` letters does not depend on what follows. -/
theorem filter_factor (A : FiniteAutomaton NFATransition) (hA : A.NoMaskLabel) (N : ℕ)
    (hN : 0 < N) (f : List UInt8 → List UInt8) (hf : IsFilter A N f) (w : List UInt8) :
    (∀ x y p c, w[p]? = some c → (f w)[p]? = some c →
      (f (x ++ w ++ y))[x.length + p]? = some c) ∧
    ∀ y, (f (w ++ y)).take (w.length + 1 - N) = (f w).take (w.length + 1 - N) := by
  have hw := hf.isMasked hA hN w
  refine ⟨fun x y p c hc hp => ?_, fun y => hw.take_append_right hN (hf.isMasked hA hN (w ++ y))⟩
  exact hw.getElem?_eq_some_of_imp (hf.isMasked hA hN (x ++ w ++ y)) hc
    (Masking.getElem?_infix x y hc) (fun hrel => hrel.infix x y) hp

/-- After `aba`, the next letter leaves the first two as they are. -/
theorem filter_factor_aLoop : ∃ f, IsFilter aLoop 2 f ∧
    (f [97, 98, 97, 97]).take 2 = (f [97, 98, 97]).take 2 := by
  obtain ⟨f, hf⟩ := exists_isFilter_aLoop (N := 2) (by decide) (by decide)
  exact ⟨f, hf, (filter_factor aLoop aLoop_noMaskLabel 2 (by decide) f hf [97, 98, 97]).2 [97]⟩

end MooreFilter

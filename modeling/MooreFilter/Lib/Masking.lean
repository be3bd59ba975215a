/-
  Masking a word by the runs of an automaton.

  A run over the segment `w[i..t]` releases the last block of the segment, when
  the segment is cut from its start into blocks of `N` letters: if the block is
  full, every run does; otherwise the run has to end in an accepting state.  A
  masked word keeps the released letters and masks the others (`IsMasked`).

  * `releases_of_justifies`: then the whole segment is released, each of its full
    blocks by a shorter run;
  * `IsMasked.accepts_iff`, `IsMasked.segment_eq`: masking preserves the accepted
    segments and creates none;
  * `IsMasked.unique_masked`: a masked word is its own masking;
  * `suffixEval` are the states of the runs over a suffix of a word, computed
    letter by letter (`suffixEval_append_singleton`);
  * `IsProduct` is a product of an automaton with a counter, `level_iff` what the
    counters of its states say about the runs over the suffixes.

  The states of the automaton may be infinitely many: the automaton of a timed
  one has the valuations of its clocks in its states.
-/
import Mathlib.Computability.NFA

namespace Masking

variable {α σ : Type*}

/-! ## Segments -/

/-- The segment `w[i..t]`. -/
def segment (w : List α) (i t : ℕ) : List α := (w.drop i).take (t + 1 - i)

section
variable {w v : List α} {i t p : ℕ}

theorem getElem?_segment {k : ℕ} (hk : k < t + 1 - i) : (segment w i t)[k]? = w[i + k]? := by
  rw [segment, List.getElem?_take_of_lt hk, List.getElem?_drop]

theorem segment_eq_drop (hit : i ≤ t + 1) : segment w i t = (w.take (t + 1)).drop i := by
  rw [segment, List.take_drop, show i + (t + 1 - i) = t + 1 by omega]

theorem segment_split (hpt : p ≤ t) (hip : i ≤ p + 1) :
    segment w i t = segment w i p ++ segment w (p + 1) t := by
  unfold segment
  rw [show t + 1 - i = (p + 1 - i) + (t + 1 - (p + 1)) by omega, List.take_add, List.drop_drop,
    show i + (p + 1 - i) = p + 1 by omega]

theorem segment_self {c : α} (hc : w[p]? = some c) : segment w p p = [c] := by
  apply List.ext_getElem?
  intro k
  unfold segment
  rw [List.getElem?_take, List.getElem?_drop]
  cases k with
  | zero => simpa using hc
  | succ k => simp

theorem segment_congr (h : ∀ p, i ≤ p → p ≤ t → w[p]? = v[p]?) : segment w i t = segment v i t := by
  apply List.ext_getElem?
  intro k
  rcases lt_or_ge k (t + 1 - i) with hk | hk
  · rw [getElem?_segment hk, getElem?_segment hk]; exact h _ (by omega) (by omega)
  · unfold segment
    rw [List.getElem?_take, List.getElem?_take, if_neg (by omega), if_neg (by omega)]

theorem mem_of_mem_segment {c : α} (hc : c ∈ segment w i t) : c ∈ w :=
  List.mem_of_mem_drop (List.mem_of_mem_take hc)

theorem mem_segment {c : α} (hip : i ≤ p) (hpt : p ≤ t) (hc : w[p]? = some c) :
    c ∈ segment w i t := by
  have hk : (segment w i t)[p - i]? = some c := by
    rw [getElem?_segment (by omega), show i + (p - i) = p by omega, hc]
  exact List.mem_of_getElem? hk

end

/-! ## Released positions -/

/-- The length of the last block of `k ≥ 1` letters. -/
def lastBlock (N k : ℕ) : ℕ := (k - 1) % N + 1

section
variable (M : NFA α σ) (N : ℕ)

/-- There is a run over `w[i..t]` to `s` that releases letters. -/
structure Justifies (w : List α) (i t : ℕ) (s : σ) : Prop where
  le : i ≤ t
  lt : t < w.length
  run : s ∈ M.eval (segment w i t)
  full : lastBlock N (t + 1 - i) = N ∨ s ∈ M.accept

/-- The position `p` is in the last block of a run that releases letters. -/
def Releases (w : List α) (p : ℕ) : Prop :=
  ∃ i t s, Justifies M N w i t s ∧ p ≤ t ∧ t < p + lastBlock N (t + 1 - i)

/-- `v` is the word `w` with the letters that are not released masked. -/
structure IsMasked (mask : α → α) (w v : List α) : Prop where
  length_eq : v.length = w.length
  keep : ∀ p, p < w.length → Releases M N w p → v[p]? = w[p]?
  hide : ∀ p, p < w.length → ¬ Releases M N w p → v[p]? = w[p]?.map mask

end

section
variable {M : NFA α σ} {N : ℕ} {w : List α} {i t p : ℕ} {s : σ}

/-- A run over a segment has a run over each of its beginnings. -/
theorem exists_eval_of_le (h : s ∈ M.eval (segment w i t)) (hpt : p ≤ t) (hip : i ≤ p + 1) :
    ∃ s', s' ∈ M.eval (segment w i p) := by
  rw [segment_split hpt hip, NFA.eval, NFA.evalFrom_append] at h
  by_contra hcon
  have he : M.evalFrom M.start (segment w i p) = ∅ := Set.eq_empty_iff_forall_notMem.2
    fun s' hs' => hcon ⟨s', hs'⟩
  rw [he] at h
  obtain ⟨s', hs', -⟩ := NFA.mem_evalFrom_iff_exists.1 h
  exact hs'

/-- **Block cover.** If a run over a segment releases its last block, every
    position of the segment is released. -/
theorem releases_of_justifies (hN : 0 < N) (h : Justifies M N w i t s) (hip : i ≤ p)
    (hpt : p ≤ t) : Releases M N w p := by
  -- `e` is the end of the block of `p`
  obtain ⟨k, rfl⟩ : ∃ k, p = i + k := ⟨p - i, by omega⟩
  have hdiv := Nat.mod_add_div k N
  have hmod := Nat.mod_lt k hN
  rcases lt_or_ge t (i + N * (k / N) + (N - 1)) with ht | ht
  · -- the last block
    refine ⟨i, t, s, h, hpt, ?_⟩
    have hlast : (t - i) / N = k / N := by
      refine Nat.div_eq_of_lt_le ?_ ?_
      · rw [mul_comm]; omega
      · rw [mul_comm, Nat.mul_succ]; omega
    have := Nat.mod_add_div (t - i) N
    rw [hlast] at this
    rw [lastBlock, show t + 1 - i - 1 = t - i by omega]; omega
  · -- a full block
    obtain ⟨s', hs'⟩ := exists_eval_of_le (p := i + N * (k / N) + (N - 1)) h.run ht (by omega)
    have hlast : lastBlock N (i + N * (k / N) + (N - 1) + 1 - i) = N := by
      rw [lastBlock, show i + N * (k / N) + (N - 1) + 1 - i - 1 = (N - 1) + N * (k / N) by omega,
        Nat.add_mul_mod_self_left, Nat.mod_eq_of_lt (by omega)]
      omega
    refine ⟨i, _, s', ⟨by omega, by have := h.lt; omega, hs', Or.inl hlast⟩, by omega, ?_⟩
    rw [hlast]; omega

variable {mask : α → α} {v : List α}

namespace IsMasked

theorem getElem?_eq_or (h : IsMasked M N mask w v) (p : ℕ) :
    v[p]? = w[p]? ∨ v[p]? = w[p]?.map mask := by
  rcases lt_or_ge p w.length with hp | hp
  · by_cases hrel : Releases M N w p
    · exact Or.inl (h.keep p hp hrel)
    · exact Or.inr (h.hide p hp hrel)
  · rw [List.getElem?_eq_none hp, List.getElem?_eq_none (h.length_eq ▸ hp)]
    exact Or.inl rfl

theorem segment_eq_of_releases (h : IsMasked M N mask w v) (ht : t < w.length)
    (hrel : ∀ p, i ≤ p → p ≤ t → Releases M N w p) : segment v i t = segment w i t :=
  segment_congr fun p hip hpt => h.keep p (by omega) (hrel p hip hpt)

theorem segment_eq_of_justifies (hN : 0 < N) (h : IsMasked M N mask w v)
    (hj : Justifies M N w i t s) : segment v i t = segment w i t :=
  h.segment_eq_of_releases hj.lt fun _ hip hpt => releases_of_justifies hN hj hip hpt

/-- No letter of an accepted segment is masked. -/
theorem releases_of_mem_accepts (hN : 0 < N) (hit : i ≤ t) (ht : t < w.length)
    (hacc : segment w i t ∈ M.accepts) (hip : i ≤ p) (hpt : p ≤ t) : Releases M N w p := by
  obtain ⟨s, hs, hrun⟩ := hacc
  exact releases_of_justifies hN ⟨hit, ht, hrun, Or.inr hs⟩ hip hpt

theorem segment_eq (hN : 0 < N) (h : IsMasked M N mask w v) (hit : i ≤ t) (ht : t < w.length)
    (hacc : segment w i t ∈ M.accepts) : segment v i t = segment w i t :=
  h.segment_eq_of_releases ht fun _ => releases_of_mem_accepts hN hit ht hacc

/-- If no run can read a masked letter, a run over a segment of the masked word
    reads unmasked letters only. -/
theorem segment_eq_of_run (hmask : ∀ u c, M.eval (u ++ [mask c]) = ∅) (h : IsMasked M N mask w v)
    (ht : t < w.length) (hrun : s ∈ M.eval (segment v i t)) : segment v i t = segment w i t := by
  refine segment_congr fun p hip hpt => ?_
  by_cases hrel : Releases M N w p
  · exact h.keep p (by omega) hrel
  · exfalso
    obtain ⟨c, hc⟩ : ∃ c, w[p]? = some c := ⟨_, List.getElem?_eq_getElem (by omega)⟩
    have hv : v[p]? = some (mask c) := by rw [h.hide p (by omega) hrel, hc]; rfl
    obtain ⟨s', hs'⟩ := exists_eval_of_le hrun hpt (by omega)
    have hsplit : segment v i p = segment v i (p - 1) ++ [mask c] ∨
        segment v i p = [] ++ [mask c] := by
      rcases eq_or_lt_of_le hip with rfl | hlt
      · exact Or.inr (segment_self hv)
      · refine Or.inl ?_
        rw [segment_split (p := p - 1) (by omega) (by omega), show p - 1 + 1 = p by omega,
          segment_self hv]
    rcases hsplit with hsplit | hsplit <;> · rw [hsplit, hmask] at hs'; exact hs'

/-- **Masking preserves the accepted segments and creates none.** -/
theorem accepts_iff (hN : 0 < N) (hmask : ∀ u c, M.eval (u ++ [mask c]) = ∅)
    (h : IsMasked M N mask w v) (hit : i ≤ t) (ht : t < w.length) :
    segment w i t ∈ M.accepts ↔ segment v i t ∈ M.accepts := by
  constructor
  · intro hacc
    rw [h.segment_eq hN hit ht hacc]; exact hacc
  · rintro ⟨s, hs, hrun⟩
    rw [← h.segment_eq_of_run hmask ht hrun]; exact ⟨s, hs, hrun⟩

/-- **Masking is idempotent**: the masked word is the only masking of itself. -/
theorem unique_masked (hN : 0 < N) (hmm : ∀ c, mask (mask c) = mask c)
    (h : IsMasked M N mask w v) {v' : List α} (h' : IsMasked M N mask v v') : v' = v := by
  apply List.ext_getElem?
  intro p
  rcases lt_or_ge p v.length with hp | hp
  · have hpw : p < w.length := h.length_eq ▸ hp
    by_cases hrel : Releases M N w p
    · -- the run that releases `p` reads released letters, so it is a run on `v`
      obtain ⟨i, t, s, hj, hpt, htp⟩ := hrel
      refine h'.keep p hp ⟨i, t, s, ⟨hj.le, h.length_eq ▸ hj.lt, ?_, hj.full⟩, hpt, htp⟩
      rw [h.segment_eq_of_justifies hN hj]; exact hj.run
    · by_cases hrel' : Releases M N v p
      · exact h'.keep p hp hrel'
      · rw [h'.hide p hp hrel', h.hide p hpw hrel, Option.map_map]
        cases w[p]? with
        | none => rfl
        | some c => simp [hmm]
  · rw [List.getElem?_eq_none hp, List.getElem?_eq_none (h'.length_eq ▸ hp)]

end IsMasked

end

/-! ## Runs over suffixes -/

/-- The states of the runs over a suffix of the word. -/
def suffixEval (M : NFA α σ) (w : List α) : Set σ :=
  {s | ∃ i ≤ w.length, s ∈ M.eval (w.drop i)}

section
variable {M : NFA α σ}

theorem suffixEval_nil : suffixEval M [] = M.start := by
  ext s; simp [suffixEval, NFA.eval]

theorem suffixEval_append_singleton (w : List α) (c : α) :
    suffixEval M (w ++ [c]) = M.start ∪ M.stepSet (suffixEval M w) c := by
  ext s
  constructor
  · rintro ⟨i, hi, hs⟩
    rw [List.length_append, List.length_singleton] at hi
    rcases Nat.le_succ_iff.1 hi with hi | rfl
    · rw [List.drop_append_of_le_length hi, NFA.eval_append_singleton] at hs
      obtain ⟨s', hs', hstep⟩ := NFA.mem_stepSet.1 hs
      exact Or.inr (NFA.mem_stepSet.2 ⟨s', ⟨i, hi, hs'⟩, hstep⟩)
    · rw [List.drop_of_length_le (by simp)] at hs
      exact Or.inl hs
  · rintro (hs | hs)
    · refine ⟨w.length + 1, by simp, ?_⟩
      rw [List.drop_of_length_le (by simp)]; exact hs
    · obtain ⟨s', ⟨i, hi, hs'⟩, hstep⟩ := NFA.mem_stepSet.1 hs
      refine ⟨i, by simp; omega, ?_⟩
      rw [List.drop_append_of_le_length hi, NFA.eval_append_singleton]
      exact NFA.mem_stepSet.2 ⟨s', hs', hstep⟩

end

/-! ## Products with a counter -/

/-- `M₁` is a product of `M₂` with a counter that each letter advances by `next`:
    a state `s` in `S` stands for `proj s` with the counter `count s`. -/
structure IsProduct {σ₁ σ₂ : Type*} (M₁ : NFA α σ₁) (M₂ : NFA α σ₂) (next : ℕ → ℕ)
    (proj : σ₁ → σ₂) (count : σ₁ → ℕ) (S : Set σ₁) : Prop where
  start : ∀ s ∈ M₁.start, s ∈ S ∧ proj s ∈ M₂.start ∧ count s = 0
  exists_start : ∀ s ∈ M₂.start, ∃ s₁ ∈ M₁.start, proj s₁ = s
  step : ∀ s ∈ S, ∀ a, ∀ t ∈ M₁.step s a,
    t ∈ S ∧ proj t ∈ M₂.step (proj s) a ∧ count t = next (count s)
  exists_step : ∀ s ∈ S, ∀ a, ∀ t ∈ M₂.step (proj s) a, ∃ t₁ ∈ M₁.step s a, proj t₁ = t
  accept : ∀ s ∈ S, s ∈ M₁.accept ↔ proj s ∈ M₂.accept

section
variable {σ₁ σ₂ : Type*} {M₁ : NFA α σ₁} {M₂ : NFA α σ₂} {next : ℕ → ℕ} {proj : σ₁ → σ₂}
  {count : σ₁ → ℕ} {S : Set σ₁} {N : ℕ}

theorem IsProduct.of_mem_eval (h : IsProduct M₁ M₂ next proj count S) (u : List α) :
    ∀ {s}, s ∈ M₁.eval u → s ∈ S ∧ proj s ∈ M₂.eval u ∧ count s = next^[u.length] 0 := by
  induction u using List.reverseRecOn with
  | nil => intro s hs; exact h.start s hs
  | append_singleton u a ih =>
    intro s hs
    rw [NFA.eval_append_singleton] at hs ⊢
    obtain ⟨s', hs', hstep⟩ := NFA.mem_stepSet.1 hs
    obtain ⟨hS, hp, hc⟩ := ih hs'
    obtain ⟨hS', hp', hc'⟩ := h.step s' hS a s hstep
    refine ⟨hS', NFA.mem_stepSet.2 ⟨_, hp, hp'⟩, ?_⟩
    rw [hc', hc, List.length_append, List.length_singleton, Function.iterate_succ_apply']

theorem IsProduct.exists_mem_eval (h : IsProduct M₁ M₂ next proj count S) (u : List α) :
    ∀ {s}, s ∈ M₂.eval u → ∃ s₁ ∈ M₁.eval u, proj s₁ = s := by
  induction u using List.reverseRecOn with
  | nil => intro s hs; exact h.exists_start s hs
  | append_singleton u a ih =>
    intro s hs
    rw [NFA.eval_append_singleton] at hs ⊢
    obtain ⟨s', hs', hstep⟩ := NFA.mem_stepSet.1 hs
    obtain ⟨s₁, hs₁, rfl⟩ := ih hs'
    obtain ⟨t₁, ht₁, rfl⟩ := h.exists_step s₁ (h.of_mem_eval u hs₁).1 a s hstep
    exact ⟨t₁, NFA.mem_stepSet.2 ⟨s₁, hs₁, ht₁⟩, rfl⟩

/-- **The levels.** If the counter runs through the blocks of `N` letters, the
    product has a run over a suffix that releases more than `m` letters iff the
    automaton has. -/
theorem IsProduct.level_iff (h : IsProduct M₁ M₂ next proj count S)
    (hnext : ∀ k, next^[k + 1] 0 = lastBlock N (k + 1)) (x : List α) (m : ℕ) :
    (∃ q ∈ suffixEval M₁ x, (count q = N ∨ q ∈ M₁.accept) ∧ m < count q) ↔
      ∃ i < x.length, ∃ s ∈ M₂.eval (x.drop i),
        (lastBlock N (x.length - i) = N ∨ s ∈ M₂.accept) ∧ m < lastBlock N (x.length - i) := by
  constructor
  · rintro ⟨q, ⟨i, hi, hq⟩, hfull, hm⟩
    obtain ⟨hS, hp, hc⟩ := h.of_mem_eval _ hq
    rw [List.length_drop] at hc
    rcases eq_or_lt_of_le hi with rfl | hi
    · rw [Nat.sub_self] at hc
      rw [hc] at hm; exact absurd hm (Nat.not_lt_zero m)
    · rw [show x.length - i = x.length - i - 1 + 1 by omega, hnext] at hc
      rw [show x.length - i - 1 + 1 = x.length - i by omega] at hc
      rw [hc, h.accept q hS] at hfull
      rw [hc] at hm
      exact ⟨i, hi, _, hp, hfull, hm⟩
  · rintro ⟨i, hi, s, hs, hfull, hm⟩
    obtain ⟨q, hq, rfl⟩ := h.exists_mem_eval _ hs
    obtain ⟨hS, -, hc⟩ := h.of_mem_eval _ hq
    rw [List.length_drop, show x.length - i = x.length - i - 1 + 1 by omega, hnext,
      show x.length - i - 1 + 1 = x.length - i by omega] at hc
    exact ⟨q, ⟨i, hi.le, hq⟩, by rw [hc, h.accept q hS]; exact hfull, by rw [hc]; exact hm⟩

end

end Masking

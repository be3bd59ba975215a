/-
  Comparing maskings.

  * `releases_iff`: a letter is released iff it is in an accepted segment, or in a
    segment that has a run and is made of full blocks;
  * `Included M₁ M₂`: every word that `M₁` can read `M₂` can, and every word it
    accepts; a simulation is one way to it (`included_of_simulation`);
  * `Releases.mono`: then `M₂` releases what `M₁` does, also if the length of its
    blocks is a divisor of that of the others;
  * `IsMasked.eq_of_coarser_first`, `IsMasked.eq_of_coarser_last`: masking by the
    coarser automaton as well, first or last, makes no difference;
  * `IsMasked.least`: if no run has the length of a block, whatever keeps the
    accepted segments keeps the released letters;
  * `releases_iff_startAt`: several initial states release what one of them does;
  * `Releases.infix`, `releases_append_right_iff`: what is released in a factor of
    the word is released in the word, and what comes a block later does not matter;
  * `releases_separated_iff`, `IsMasked.append_cons`: a letter that is never read
    separates the word into two that are masked on their own;
  * `relabel f M` reads the letters through `f`.
-/
import MooreFilter.Lib.Masking

namespace Masking

variable {α β σ σ₁ σ₂ : Type*}

/-! ## What is released -/

section
variable {M : NFA α σ} {N : ℕ} {w v : List α} {i t p : ℕ}

theorem lastBlock_eq_iff (hN : 0 < N) {k : ℕ} (hk : 0 < k) : lastBlock N k = N ↔ N ∣ k := by
  obtain ⟨k, rfl⟩ : ∃ k', k = k' + 1 := ⟨k - 1, by omega⟩
  have hlt := Nat.mod_lt k hN
  have hmod : (k + 1) % N = (k % N + 1) % N := by rw [Nat.mod_add_mod]
  rw [lastBlock, Nat.add_sub_cancel, Nat.dvd_iff_mod_eq_zero, hmod]
  rcases lt_or_ge (k % N + 1) N with h | h
  · rw [Nat.mod_eq_of_lt h]; omega
  · rw [show k % N + 1 = N by omega, Nat.mod_self]; simp

theorem Releases.lt_length (h : Releases M N w p) : p < w.length := by
  obtain ⟨i, t, s, hj, hpt, -⟩ := h
  exact hpt.trans_lt hj.lt

/-- The position is in a segment of the word with `P`. -/
def InSegment (w : List α) (p : ℕ) (P : List α → Prop) : Prop :=
  ∃ i t, i ≤ p ∧ p ≤ t ∧ t < w.length ∧ P (segment w i t)

theorem InSegment.mono {P Q : List α → Prop} (h : InSegment w p P) (hPQ : ∀ u, P u → Q u) :
    InSegment w p Q := by
  obtain ⟨i, t, hip, hpt, ht, hP⟩ := h
  exact ⟨i, t, hip, hpt, ht, hPQ _ hP⟩

theorem length_segment (ht : t < w.length) : (segment w i t).length = t + 1 - i := by
  rw [segment, List.length_take, List.length_drop]
  omega

/-- The word is accepted, or it has a run and consists of full blocks. -/
def Full (M : NFA α σ) (N : ℕ) (u : List α) : Prop :=
  u ∈ M.accepts ∨ N ∣ u.length ∧ (M.eval u).Nonempty

theorem exists_justifies_iff (hN : 0 < N) (hit : i ≤ t) (ht : t < w.length) :
    (∃ s, Justifies M N w i t s) ↔ Full M N (segment w i t) := by
  unfold Full
  rw [length_segment ht, ← lastBlock_eq_iff hN (by omega)]
  constructor
  · rintro ⟨s, -, -, hrun, hfull | hacc⟩
    · exact Or.inr ⟨hfull, s, hrun⟩
    · exact Or.inl ⟨s, hacc, hrun⟩
  · rintro (⟨s, hacc, hrun⟩ | ⟨hfull, s, hrun⟩)
    · exact ⟨s, hit, ht, hrun, Or.inr hacc⟩
    · exact ⟨s, hit, ht, hrun, Or.inl hfull⟩

/-- **What is released**: the letters of the accepted segments, and those of the
    segments with a run that are made of full blocks. -/
theorem releases_iff (hN : 0 < N) : Releases M N w p ↔ InSegment w p (Full M N) := by
  constructor
  · rintro ⟨i, t, s, hj, hpt, htp⟩
    have hle : lastBlock N (t + 1 - i) ≤ t + 1 - i := Nat.succ_le_of_lt
      ((Nat.mod_le _ N).trans_lt (by have := hj.le; omega))
    exact ⟨i, t, by omega, hpt, hj.lt, (exists_justifies_iff hN hj.le hj.lt).1 ⟨s, hj⟩⟩
  · rintro ⟨i, t, hip, hpt, ht, hfull⟩
    obtain ⟨s, hj⟩ := (exists_justifies_iff hN (hip.trans hpt) ht).2 hfull
    exact releases_of_justifies hN hj hip hpt

end

/-! ## Inclusion -/

/-- Every word that `M₁` can read `M₂` can, and every word that it accepts. -/
structure Included (M₁ : NFA α σ₁) (M₂ : NFA α σ₂) : Prop where
  readable : ∀ u, (M₁.eval u).Nonempty → (M₂.eval u).Nonempty
  accepts : ∀ ⦃u⦄, u ∈ M₁.accepts → u ∈ M₂.accepts

section
variable {M₁ : NFA α σ₁} {M₂ : NFA α σ₂}

theorem Included.refl (M : NFA α σ) : Included M M := ⟨fun _ h => h, fun _ h => h⟩

/-- A simulation gives an inclusion. -/
theorem included_of_simulation {R : σ₁ → σ₂ → Prop}
    (hstart : ∀ s ∈ M₁.start, ∃ t ∈ M₂.start, R s t)
    (hstep : ∀ s t, R s t → ∀ c, ∀ s' ∈ M₁.step s c, ∃ t' ∈ M₂.step t c, R s' t')
    (haccept : ∀ s t, R s t → s ∈ M₁.accept → t ∈ M₂.accept) : Included M₁ M₂ := by
  have key : ∀ u : List α, ∀ s ∈ M₁.eval u, ∃ t ∈ M₂.eval u, R s t := by
    intro u
    induction u using List.reverseRecOn with
    | nil => exact hstart
    | append_singleton u c ih =>
      intro s' hs'
      rw [NFA.eval_append_singleton] at hs' ⊢
      obtain ⟨s, hs, hs'⟩ := NFA.mem_stepSet.1 hs'
      obtain ⟨t, ht, hR⟩ := ih s hs
      obtain ⟨t', ht', hR'⟩ := hstep s t hR c s' hs'
      exact ⟨t', NFA.mem_stepSet.2 ⟨t, ht, ht'⟩, hR'⟩
  refine ⟨?_, ?_⟩
  · rintro u ⟨s, hs⟩
    obtain ⟨t, ht, -⟩ := key u s hs
    exact ⟨t, ht⟩
  · rintro u ⟨s, hacc, hs⟩
    obtain ⟨t, ht, hR⟩ := key u s hs
    exact ⟨t, haccept s t hR hacc, ht⟩

variable {N N₁ N₂ : ℕ} {w v u : List α} {p : ℕ} {mask : α → α}

theorem Full.mono (h : Included M₁ M₂) (hdvd : N₂ ∣ N₁) {u : List α} (hu : Full M₁ N₁ u) :
    Full M₂ N₂ u :=
  hu.imp (fun hacc => h.accepts hacc) fun ⟨hlen, hrun⟩ => ⟨hdvd.trans hlen, h.readable u hrun⟩

/-- **More automaton, more letters.** -/
theorem Releases.mono (h : Included M₁ M₂) (hdvd : N₂ ∣ N₁) (hN : 0 < N₁)
    (hp : Releases M₁ N₁ w p) : Releases M₂ N₂ w p :=
  (releases_iff (Nat.pos_of_dvd_of_pos hdvd hN)).2
    (((releases_iff hN).1 hp).mono fun _ => Full.mono h hdvd)

namespace IsMasked

/-- Where a letter is not its own mask, it is kept iff it is released. -/
theorem getElem?_eq_some_iff {M : NFA α σ} (h : IsMasked M N mask w v) {c : α}
    (hc : w[p]? = some c) (hne : mask c ≠ c) : v[p]? = some c ↔ Releases M N w p := by
  have hp : p < w.length := (List.getElem?_eq_some_iff.1 hc).1
  refine ⟨fun hv => ?_, fun hrel => (h.keep p hp hrel).trans hc⟩
  by_contra hrel
  rw [h.hide p hp hrel, hc] at hv
  exact hne (Option.some.inj hv)

/-- A letter that is its own mask is kept. -/
theorem getElem?_of_mask_eq {M : NFA α σ} (h : IsMasked M N mask w v) {c : α}
    (hc : w[p]? = some c) (he : mask c = c) : v[p]? = some c := by
  rcases h.getElem?_eq_or p with hv | hv
  · rw [hv, hc]
  · rw [hv, hc, Option.map_some, he]

/-- A letter that is kept is kept where what releases it does. -/
theorem getElem?_eq_some_of_imp {w' v' : List α} {p' : ℕ} {c : α} (h₁ : IsMasked M₁ N₁ mask w v)
    (h₂ : IsMasked M₂ N₂ mask w' v') (hc : w[p]? = some c) (hc' : w'[p']? = some c)
    (himp : Releases M₁ N₁ w p → Releases M₂ N₂ w' p') (hv : v[p]? = some c) :
    v'[p']? = some c := by
  by_cases he : mask c = c
  · exact h₂.getElem?_of_mask_eq hc' he
  · exact (h₂.getElem?_eq_some_iff hc' he).2 (himp ((h₁.getElem?_eq_some_iff hc he).1 hv))

/-- A letter that is released in both words or in none is kept or masked alike. -/
theorem getElem?_eq {w' v' : List α} {p' : ℕ} (h₁ : IsMasked M₁ N₁ mask w v)
    (h₂ : IsMasked M₂ N₂ mask w' v') (hget : w[p]? = w'[p']?)
    (hiff : Releases M₁ N₁ w p ↔ Releases M₂ N₂ w' p') : v[p]? = v'[p']? := by
  rcases lt_or_ge p w.length with hp | hp
  · have hp' : p' < w'.length := by
      rw [List.getElem?_eq_getElem hp] at hget
      exact (List.getElem?_eq_some_iff.1 hget.symm).1
    by_cases hrel : Releases M₁ N₁ w p
    · rw [h₁.keep p hp hrel, h₂.keep p' hp' (hiff.1 hrel), hget]
    · rw [h₁.hide p hp hrel, h₂.hide p' hp' (mt hiff.2 hrel), hget]
  · rw [List.getElem?_eq_none hp] at hget
    rw [List.getElem?_eq_none (h₁.length_eq ▸ hp),
      List.getElem?_eq_none (h₂.length_eq ▸ List.getElem?_eq_none_iff.1 hget.symm)]

/-- Two maskings that release the same letters are one. -/
theorem eq_of_releases_iff (h₁ : IsMasked M₁ N₁ mask w v) (h₂ : IsMasked M₂ N₂ mask w u)
    (hiff : ∀ p, Releases M₁ N₁ w p ↔ Releases M₂ N₂ w p) : v = u :=
  List.ext_getElem? fun p => h₁.getElem?_eq h₂ rfl (hiff p)

/-- A run that releases letters still does when the others are masked. -/
theorem justifies (hN₁ : 0 < N₁) (h : IsMasked M₂ N₂ mask w v) (hinc : Included M₁ M₂)
    (hdvd : N₂ ∣ N₁) {i t : ℕ} {s : σ₁} (hj : Justifies M₁ N₁ w i t s) :
    Justifies M₁ N₁ v i t s := by
  have hseg : segment v i t = segment w i t := h.segment_eq_of_releases hj.lt fun p hip hpt =>
    (releases_of_justifies hN₁ hj hip hpt).mono hinc hdvd hN₁
  exact ⟨hj.le, h.length_eq ▸ hj.lt, hseg ▸ hj.run, hj.full⟩

theorem map_mask_getElem? {M : NFA α σ} (hmm : ∀ c, mask (mask c) = mask c)
    (h : IsMasked M N mask w v) (p : ℕ) : v[p]?.map mask = w[p]?.map mask := by
  rcases h.getElem?_eq_or p with he | he
  · rw [he]
  · rw [he, Option.map_map]
    exact congrArg (fun f => Option.map f w[p]?) (funext hmm)

variable (hN₁ : 0 < N₁) (hinc : Included M₁ M₂) (hdvd : N₂ ∣ N₁)
  (hmm : ∀ c, mask (mask c) = mask c)
include hN₁ hinc hdvd hmm

/-- **The coarser automaton first**: if its masking keeps more, masking by it first
    makes no difference. -/
theorem eq_of_coarser_first (hmask : ∀ u c, M₂.eval (u ++ [mask c]) = ∅)
    (h₂ : IsMasked M₂ N₂ mask w v) (h₁ : IsMasked M₁ N₁ mask w u) {u' : List α}
    (h₁' : IsMasked M₁ N₁ mask v u') : u' = u := by
  apply List.ext_getElem?
  intro p
  rcases lt_or_ge p w.length with hp | hp
  · have hpv : p < v.length := h₂.length_eq.symm ▸ hp
    by_cases hrel : Releases M₁ N₁ w p
    · have hrel' : Releases M₁ N₁ v p := by
        obtain ⟨i, t, s, hj, hpt, htp⟩ := hrel
        exact ⟨i, t, s, h₂.justifies hN₁ hinc hdvd hj, hpt, htp⟩
      rw [h₁'.keep p hpv hrel', h₁.keep p hp hrel,
        h₂.keep p hp (hrel.mono hinc hdvd hN₁)]
    · have hrel' : ¬ Releases M₁ N₁ v p := by
        rintro ⟨i, t, s, hj, hpt, htp⟩
        obtain ⟨s₂, hs₂⟩ := hinc.readable _ ⟨s, hj.run⟩
        have ht : t < w.length := h₂.length_eq ▸ hj.lt
        have hseg := h₂.segment_eq_of_run hmask ht hs₂
        exact hrel ⟨i, t, s, ⟨hj.le, ht, hseg ▸ hj.run, hj.full⟩, hpt, htp⟩
      rw [h₁'.hide p hpv hrel', h₁.hide p hp hrel, h₂.map_mask_getElem? hmm]
  · rw [List.getElem?_eq_none (by rw [h₁'.length_eq, h₂.length_eq]; exact hp),
      List.getElem?_eq_none (h₁.length_eq.symm ▸ hp)]

/-- **The coarser automaton last**: it has nothing left to mask. -/
theorem eq_of_coarser_last (h₁ : IsMasked M₁ N₁ mask w u) {u' : List α}
    (h₂' : IsMasked M₂ N₂ mask u u') : u' = u := by
  apply List.ext_getElem?
  intro p
  rcases lt_or_ge p w.length with hp | hp
  · have hpu : p < u.length := h₁.length_eq.symm ▸ hp
    by_cases hrel : Releases M₁ N₁ w p
    · have hrel' : Releases M₁ N₁ u p := by
        obtain ⟨i, t, s, hj, hpt, htp⟩ := hrel
        exact ⟨i, t, s, h₁.justifies hN₁ (.refl M₁) dvd_rfl hj, hpt, htp⟩
      exact h₂'.keep p hpu (hrel'.mono hinc hdvd hN₁)
    · rcases h₂'.getElem?_eq_or p with he | he
      · exact he
      · rw [he, h₁.hide p hp hrel, Option.map_map]
        exact congrArg (fun f => Option.map f w[p]?) (funext hmm)
  · rw [List.getElem?_eq_none (by rw [h₂'.length_eq, h₁.length_eq]; exact hp),
      List.getElem?_eq_none (h₁.length_eq.symm ▸ hp)]

end IsMasked

end

/-! ## The least masking -/

section
variable {M : NFA α σ} {N : ℕ} {w v : List α} {p : ℕ} {mask : α → α}

/-- If all runs over segments are shorter than a block, only accepted segments
    release letters. -/
theorem releases_iff_of_short (hN : 0 < N)
    (hshort : ∀ i t, t < w.length → (M.eval (segment w i t)).Nonempty → t + 1 - i < N) :
    Releases M N w p ↔ InSegment w p (· ∈ M.accepts) := by
  rw [releases_iff hN]
  refine ⟨?_, fun h => h.mono fun _ => Or.inl⟩
  rintro ⟨i, t, hip, hpt, ht, hacc | ⟨hdvd, hrun⟩⟩
  · exact ⟨i, t, hip, hpt, ht, hacc⟩
  · rw [length_segment ht] at hdvd
    exact absurd (Nat.le_of_dvd (by omega) hdvd) (hshort i t ht hrun).not_ge

/-- **The least masking**: what it keeps is kept by everything that keeps the accepted
    segments. -/
theorem IsMasked.least (hN : 0 < N)
    (hshort : ∀ i t, t < w.length → (M.eval (segment w i t)).Nonempty → t + 1 - i < N)
    (h : IsMasked M N mask w v) {v' : List α}
    (hv' : ∀ i t, i ≤ t → t < w.length → segment w i t ∈ M.accepts →
      segment v' i t = segment w i t) (hp : v[p]? ≠ w[p]?.map mask) : v'[p]? = w[p]? := by
  rcases lt_or_ge p w.length with hpw | hpw
  · have hrel : Releases M N w p := by
      by_contra hrel
      exact hp (h.hide p hpw hrel)
    obtain ⟨i, t, hip, hpt, ht, hacc⟩ := (releases_iff_of_short hN hshort).1 hrel
    have hseg := congrArg (fun u : List α => u[p - i]?) (hv' i t (hip.trans hpt) ht hacc)
    rwa [getElem?_segment (by omega), getElem?_segment (by omega),
      show i + (p - i) = p by omega] at hseg
  · refine absurd ?_ hp
    rw [List.getElem?_eq_none hpw, List.getElem?_eq_none (h.length_eq ▸ hpw)]; rfl

end

/-! ## Initial states -/

/-- The automaton with one of its initial states. -/
def startAt (M : NFA α σ) (s : σ) : NFA α σ := { M with start := {s} }

section
variable {M : NFA α σ} {N : ℕ} {w : List α} {p : ℕ}

theorem mem_eval_iff_startAt {s : σ} {u : List α} :
    s ∈ M.eval u ↔ ∃ s₀ ∈ M.start, s ∈ (startAt M s₀).eval u := NFA.mem_evalFrom_iff_exists

/-- **What is released from several initial states** is released from one of them. -/
theorem releases_iff_startAt :
    Releases M N w p ↔ ∃ s₀ ∈ M.start, Releases (startAt M s₀) N w p := by
  constructor
  · rintro ⟨i, t, s, ⟨hit, ht, hrun, hfull⟩, hpt, htp⟩
    obtain ⟨s₀, hs₀, hrun⟩ := mem_eval_iff_startAt.1 hrun
    exact ⟨s₀, hs₀, i, t, s, ⟨hit, ht, hrun, hfull⟩, hpt, htp⟩
  · rintro ⟨s₀, hs₀, i, t, s, ⟨hit, ht, hrun, hfull⟩, hpt, htp⟩
    exact ⟨i, t, s, ⟨hit, ht, mem_eval_iff_startAt.2 ⟨s₀, hs₀, hrun⟩, hfull⟩, hpt, htp⟩

end

/-! ## Factors of a word -/

section
variable {M : NFA α σ} {N : ℕ} {w x y : List α} {i t p : ℕ} {s : σ} {c : α}

theorem segment_append_right (ht : t < w.length) : segment (w ++ y) i t = segment w i t :=
  segment_congr fun p _ hpt => List.getElem?_append_left (by omega)

theorem segment_append_left (x w : List α) (i t : ℕ) :
    segment (x ++ w) (x.length + i) (x.length + t) = segment w i t := by
  unfold segment
  rw [List.drop_append, show x.length + t + 1 - (x.length + i) = t + 1 - i by omega,
    List.drop_of_length_le (by omega), Nat.add_sub_cancel_left, List.nil_append]

theorem justifies_append_right_iff (ht : t < w.length) :
    Justifies M N (w ++ y) i t s ↔ Justifies M N w i t s := by
  constructor
  · rintro ⟨hit, -, hrun, hfull⟩
    exact ⟨hit, ht, by rwa [segment_append_right ht] at hrun, hfull⟩
  · rintro ⟨hit, -, hrun, hfull⟩
    exact ⟨hit, by rw [List.length_append]; omega, by rwa [segment_append_right ht], hfull⟩

theorem justifies_append_left_iff :
    Justifies M N (x ++ w) (x.length + i) (x.length + t) s ↔ Justifies M N w i t s := by
  have hlen : x.length + t + 1 - (x.length + i) = t + 1 - i := by omega
  constructor
  · rintro ⟨hit, ht, hrun, hfull⟩
    rw [segment_append_left] at hrun
    rw [hlen] at hfull
    rw [List.length_append] at ht
    exact ⟨by omega, by omega, hrun, hfull⟩
  · rintro ⟨hit, ht, hrun, hfull⟩
    refine ⟨by omega, by rw [List.length_append]; omega, ?_, by rwa [hlen]⟩
    rwa [segment_append_left]

/-- A letter that is released in a factor is released in the word. -/
theorem Releases.infix (hp : Releases M N w p) (x y : List α) :
    Releases M N (x ++ w ++ y) (x.length + p) := by
  obtain ⟨i, t, s, hj, hpt, htp⟩ := hp
  refine ⟨x.length + i, x.length + t, s, ?_, by omega, ?_⟩
  · rw [justifies_append_right_iff (by rw [List.length_append]; have := hj.lt; omega)]
    exact justifies_append_left_iff.2 hj
  · rw [show x.length + t + 1 - (x.length + i) = t + 1 - i by omega]; omega

/-- What is released in a segment is released in the word. -/
theorem Releases.of_segment {i t : ℕ} (hit : i ≤ t) (ht : t < w.length)
    (hp : Releases M N (segment w i t) p) : Releases M N w (i + p) := by
  have hw : w.take i ++ segment w i t ++ w.drop (t + 1) = w := by
    rw [segment, List.append_assoc, show t + 1 = i + (t + 1 - i) by omega, ← List.drop_drop,
      show i + (t + 1 - i) - i = t + 1 - i by omega, List.take_append_drop,
      List.take_append_drop]
  have h := hp.infix (w.take i) (w.drop (t + 1))
  rwa [hw, List.length_take_of_le (by omega)] at h

theorem getElem?_infix (x y : List α) (hc : w[p]? = some c) :
    (x ++ w ++ y)[x.length + p]? = some c := by
  have hlt : p < w.length := (List.getElem?_eq_some_iff.1 hc).1
  rw [List.getElem?_append_left (by rw [List.length_append]; omega),
    List.getElem?_append_right (by omega), Nat.add_sub_cancel_left, hc]

/-- **Lookahead**: what comes a block later makes no difference. -/
theorem releases_append_right_iff (hN : 0 < N) (hp : p + N ≤ w.length) :
    Releases M N (w ++ y) p ↔ Releases M N w p := by
  refine ⟨?_, fun h => ?_⟩
  · rintro ⟨i, t, s, hj, hpt, htp⟩
    have hle : lastBlock N (t + 1 - i) ≤ N := Nat.mod_lt _ hN
    exact ⟨i, t, s, (justifies_append_right_iff (by omega)).1 hj, hpt, htp⟩
  · have h := h.infix [] y
    rwa [List.nil_append, List.length_nil, zero_add] at h

/-- Masking the longer word does not change the letters that are a block before the
    end of the factor. -/
theorem IsMasked.take_append_right {mask : α → α} {v v' : List α} (hN : 0 < N)
    (h : IsMasked M N mask w v) (h' : IsMasked M N mask (w ++ y) v') :
    v'.take (w.length + 1 - N) = v.take (w.length + 1 - N) := by
  apply List.ext_getElem?
  intro p
  rw [List.getElem?_take, List.getElem?_take]
  split_ifs with hp
  · exact h'.getElem?_eq h (List.getElem?_append_left (by omega))
      (releases_append_right_iff hN (by omega))
  · rfl

theorem exists_segment_eq_append_singleton (hc : w[p]? = some c) (hip : i ≤ p) :
    ∃ u, segment w i p = u ++ [c] := by
  rcases eq_or_lt_of_le hip with rfl | hlt
  · exact ⟨[], segment_self hc⟩
  · refine ⟨segment w i (p - 1), ?_⟩
    rw [segment_split (p := p - 1) (by omega) (by omega), show p - 1 + 1 = p by omega,
      segment_self hc]

/-- **Separators.** A letter that no run reads separates the word. -/
theorem releases_separated_iff (hc : ∀ u, M.eval (u ++ [c]) = ∅) :
    Releases M N (x ++ c :: y) p ↔
      Releases M N x p ∨ ∃ q, p = x.length + 1 + q ∧ Releases M N y q := by
  have hxc : x ++ c :: y = (x ++ [c]) ++ y := by simp
  have hlen : (x ++ [c]).length = x.length + 1 := by simp
  constructor
  · rintro ⟨i, t, s, hj, hpt, htp⟩
    rcases lt_or_ge t x.length with ht | ht
    · exact Or.inl ⟨i, t, s, (justifies_append_right_iff ht).1 hj, hpt, htp⟩
    · rcases le_or_gt i x.length with hi | hi
      · -- the run would read the separator
        obtain ⟨s', hs'⟩ := exists_eval_of_le hj.run ht (by omega)
        have hget : (x ++ c :: y)[x.length]? = some c := by simp
        obtain ⟨u, hu⟩ := exists_segment_eq_append_singleton hget hi
        rw [hu, hc] at hs'
        exact absurd hs' (Set.notMem_empty s')
      · obtain ⟨i, rfl⟩ : ∃ i', i = x.length + 1 + i' := ⟨i - (x.length + 1), by omega⟩
        have hit := hj.le
        obtain ⟨t, rfl⟩ : ∃ t', t = x.length + 1 + t' := ⟨t - (x.length + 1), by omega⟩
        rw [show x.length + 1 + t + 1 - (x.length + 1 + i) = t + 1 - i by omega] at htp
        have hN : lastBlock N (t + 1 - i) ≤ t + 1 - i := Nat.succ_le_of_lt
          ((Nat.mod_le _ N).trans_lt (by omega))
        rw [hxc, ← hlen, justifies_append_left_iff] at hj
        exact Or.inr ⟨p - (x.length + 1), by omega, i, t, s, hj, by omega, by omega⟩
  · rintro (h | ⟨q, rfl, h⟩)
    · have h := h.infix [] (c :: y)
      rwa [List.nil_append, List.length_nil, zero_add] at h
    · have h := h.infix (x ++ [c]) []
      rwa [List.append_nil, ← hxc, hlen] at h

/-- The two factors are masked on their own. -/
theorem IsMasked.append_cons {mask : α → α} {x' y' : List α} (hc : ∀ u, M.eval (u ++ [c]) = ∅)
    (hx : IsMasked M N mask x x') (hy : IsMasked M N mask y y') :
    IsMasked M N mask (x ++ c :: y) (x' ++ mask c :: y') := by
  have hlen := hx.length_eq
  have hget : ∀ {x y : List α} {c : α} q, (x ++ c :: y)[x.length + 1 + q]? = y[q]? := by
    intro x y c q
    rw [List.getElem?_append_right (by omega), show x.length + 1 + q - x.length = q + 1 by omega,
      List.getElem?_cons_succ]
  refine ⟨by simp [hlen, hy.length_eq], fun p hp hrel => ?_, fun p hp hrel => ?_⟩
  · rcases (releases_separated_iff hc).1 hrel with h | ⟨q, rfl, h⟩
    · have hpx := h.lt_length
      rw [List.getElem?_append_left hpx, List.getElem?_append_left (hlen ▸ hpx)]
      exact hx.keep p hpx h
    · have hq := h.lt_length
      rw [hget, ← hlen, hget]
      exact hy.keep q hq h
  · rw [releases_separated_iff hc, not_or] at hrel
    rcases lt_trichotomy p x.length with hpx | rfl | hpx
    · rw [List.getElem?_append_left hpx, List.getElem?_append_left (hlen ▸ hpx)]
      exact hx.hide p hpx hrel.1
    · rw [← hlen]; simp [hlen]
    · obtain ⟨q, rfl⟩ : ∃ q, p = x.length + 1 + q := ⟨p - (x.length + 1), by omega⟩
      have hq : q < y.length := by
        rw [List.length_append, List.length_cons] at hp; omega
      rw [hget, ← hlen, hget]
      exact hy.hide q hq fun h => hrel.2 ⟨q, rfl, h⟩

end

/-! ## Other letters -/

/-- The automaton that reads its letters through `f`. -/
def relabel (f : α → β) (M : NFA β σ) : NFA α σ where
  step s a := M.step s (f a)
  start := M.start
  accept := M.accept

section
variable {f : α → β} {M : NFA β σ} {N : ℕ} {w : List α} {p : ℕ}

theorem eval_relabel (u : List α) : (relabel f M).eval u = M.eval (u.map f) := by
  induction u using List.reverseRecOn with
  | nil => rfl
  | append_singleton u a ih =>
    rw [NFA.eval_append_singleton, ih, List.map_append, List.map_singleton,
      NFA.eval_append_singleton]
    rfl

theorem segment_map (w : List α) (i t : ℕ) : segment (w.map f) i t = (segment w i t).map f := by
  unfold segment
  rw [← List.map_drop, ← List.map_take]

theorem releases_relabel_iff : Releases (relabel f M) N w p ↔ Releases M N (w.map f) p := by
  have hj : ∀ i t s, Justifies (relabel f M) N w i t s ↔ Justifies M N (w.map f) i t s := by
    intro i t s
    constructor
    · rintro ⟨hit, ht, hrun, hfull⟩
      rw [eval_relabel, ← segment_map] at hrun
      exact ⟨hit, by rwa [List.length_map], hrun, hfull⟩
    · rintro ⟨hit, ht, hrun, hfull⟩
      rw [segment_map, ← eval_relabel] at hrun
      exact ⟨hit, by rwa [List.length_map] at ht, hrun, hfull⟩
  unfold Releases
  simp only [hj]

end

end Masking

/-
  The runs over the suffixes of a word, with the counters of their lengths.

  * `countedRuns` are the states of these runs, each with the counter that as many
    letters lead to; a determinised product with a counter goes through these sets
    (`IsProduct.image_suffixEval`, `IsProduct.suffixEval_eq_iff`);
  * `ncard_range_countedRuns_le`: if there are `q` states and the counter stays
    between `1` and `N` after the first letter, there are at most `2 ^ (q * N)` sets.
-/
import MooreFilter.Lib.Masking
import Mathlib.Data.Finset.Powerset
import Mathlib.Data.Finset.Prod
import Mathlib.Data.Set.Card
import Mathlib.Order.Interval.Finset.Nat

namespace Masking

variable {α σ : Type*}

/-- The states of the runs over the suffixes, with the counters of their lengths. -/
def countedRuns (M : NFA α σ) (next : ℕ → ℕ) (w : List α) : Set (σ × ℕ) :=
  {x | ∃ i ≤ w.length, x.1 ∈ M.eval (w.drop i) ∧ x.2 = next^[w.length - i] 0}

section
variable {σ₁ : Type*} {M₁ : NFA α σ₁} {M : NFA α σ} {next : ℕ → ℕ} {proj : σ₁ → σ}
  {count : σ₁ → ℕ} {S : Set σ₁}

/-- The states of the product over the suffixes stand for the counted runs. -/
theorem IsProduct.image_suffixEval (h : IsProduct M₁ M next proj count S) (w : List α) :
    (fun q => (proj q, count q)) '' suffixEval M₁ w = countedRuns M next w := by
  ext ⟨s, c⟩
  constructor
  · rintro ⟨q, ⟨i, hi, hq⟩, he⟩
    obtain ⟨rfl, rfl⟩ := Prod.mk.inj he
    obtain ⟨-, hrun, hc⟩ := h.of_mem_eval _ hq
    rw [List.length_drop] at hc
    exact ⟨i, hi, hrun, hc⟩
  · rintro ⟨i, hi, hrun, hc⟩
    obtain ⟨q, hq, rfl⟩ := h.exists_mem_eval _ hrun
    obtain ⟨-, -, hc'⟩ := h.of_mem_eval _ hq
    rw [List.length_drop] at hc'
    exact ⟨q, ⟨i, hi, hq⟩, Prod.ext rfl (hc'.trans hc.symm)⟩

theorem IsProduct.suffixEval_subset (h : IsProduct M₁ M next proj count S) (w : List α) :
    suffixEval M₁ w ⊆ S := by
  rintro q ⟨i, -, hq⟩
  exact (h.of_mem_eval _ hq).1

/-- If states are known by what they stand for, so are sets of them. -/
theorem IsProduct.suffixEval_eq_iff (h : IsProduct M₁ M next proj count S)
    (hinj : Set.InjOn (fun q => (proj q, count q)) S) (u v : List α) :
    suffixEval M₁ u = suffixEval M₁ v ↔ countedRuns M next u = countedRuns M next v := by
  rw [← h.image_suffixEval, ← h.image_suffixEval]
  exact (hinj.image_eq_image_iff (h.suffixEval_subset u) (h.suffixEval_subset v)).symm

/-- Each run is the empty one, or has read a letter. -/
theorem countedRuns_eq {Q : Finset σ} (hQ : ∀ u, ∀ s ∈ M.eval u, s ∈ Q) {N : ℕ}
    (hnext : ∀ k, next^[k + 1] 0 ∈ Finset.Icc 1 N) (w : List α) :
    countedRuns M next w = {x | x.1 ∈ M.start ∧ x.2 = 0} ∪
      {x ∈ countedRuns M next w | x ∈ Q ×ˢ Finset.Icc 1 N} := by
  ext ⟨s, c⟩
  constructor
  · rintro ⟨i, hi, hs, hc⟩
    rcases eq_or_lt_of_le hi with rfl | hlt
    · rw [List.drop_length] at hs
      rw [Nat.sub_self] at hc
      exact Or.inl ⟨hs, hc⟩
    · refine Or.inr ⟨⟨i, hi, hs, hc⟩, Finset.mem_product.2 ⟨hQ _ s hs, ?_⟩⟩
      obtain ⟨k, hk⟩ : ∃ k, w.length - i = k + 1 := ⟨w.length - i - 1, by omega⟩
      change c = _ at hc
      change c ∈ _
      rw [hc, hk]; exact hnext k
  · rintro (⟨hs, hc⟩ | ⟨h, -⟩)
    · refine ⟨w.length, le_rfl, ?_, ?_⟩
      · rw [List.drop_length]; exact hs
      · rw [Nat.sub_self]; exact hc
    · exact h

/-- **The number of the sets.** -/
theorem ncard_range_countedRuns_le {Q : Finset σ} (hQ : ∀ u, ∀ s ∈ M.eval u, s ∈ Q) {N : ℕ}
    (hnext : ∀ k, next^[k + 1] 0 ∈ Finset.Icc 1 N) :
    (Set.range (countedRuns M next)).ncard ≤ 2 ^ (Q.card * N) := by
  classical
  let start : Set (σ × ℕ) := {x | x.1 ∈ M.start ∧ x.2 = 0}
  let full : Finset (σ × ℕ) := Q ×ˢ Finset.Icc 1 N
  have hsub : Set.range (countedRuns M next) ⊆
      (fun F : Finset (σ × ℕ) => start ∪ (F : Set (σ × ℕ))) '' (full.powerset : Set _) := by
    rintro _ ⟨w, rfl⟩
    refine ⟨full.filter (· ∈ countedRuns M next w), ?_, ?_⟩
    · rw [Finset.mem_coe, Finset.mem_powerset]; exact Finset.filter_subset _ _
    · refine (congrArg (start ∪ ·) ?_).trans (countedRuns_eq hQ hnext w).symm
      ext x
      rw [Finset.mem_coe, Finset.mem_filter]
      exact and_comm
  have hfin := (full.powerset.finite_toSet).image fun F : Finset (σ × ℕ) =>
    start ∪ (F : Set (σ × ℕ))
  calc (Set.range (countedRuns M next)).ncard
      ≤ _ := Set.ncard_le_ncard hsub hfin
    _ ≤ (full.powerset : Set (Finset (σ × ℕ))).ncard :=
      Set.ncard_image_le full.powerset.finite_toSet
    _ = 2 ^ (Q.card * N) := by
      rw [Set.ncard_coe_finset, Finset.card_powerset, Finset.card_product, Nat.card_Icc,
        Nat.add_sub_cancel]

end

end Masking

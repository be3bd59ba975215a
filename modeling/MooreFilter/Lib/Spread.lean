/-
  Finitely many systems of difference constraints.

  * `Within k V`: over the valuations `V` a difference of two values is at most `k`
    or not bounded, and at most `k` somewhere;
  * `Closed.within`, `Closed.boundsLe`: this is so for the solutions of a closed
    system iff its bounds are by numbers up to `k`;
  * `finite_setOf_isInt`: there are finitely many systems with bounds by integers
    up to `k`.
-/
import MooreFilter.Lib.Difference
import Mathlib.Algebra.Order.Floor.Ring
import Mathlib.Data.Finite.Prod
import Mathlib.Data.Fintype.Pi
import Mathlib.Data.Int.Interval

namespace Difference

variable {ι K : Type*} [Field K] [LinearOrder K]

/-- The differences over the valuations are at most `k` or not bounded, and at
    most `k` somewhere. -/
def Within (k : K) (V : Set (ι → K)) : Prop :=
  ∀ i j, (BddAbove {d | ∃ v ∈ V, v i - v j = d} → ∀ v ∈ V, v i - v j ≤ k) ∧
    ∃ v ∈ V, v i - v j ≤ k

/-- The finite bounds are by numbers up to `k`. -/
def BoundsLe (k : K) (D : ι → ι → Bound K) : Prop := ∀ i j c s, D i j = .fin c s → |c| ≤ k

namespace Closed
variable [IsStrictOrderedRing K] [DecidableEq ι] [Fintype ι] {D : ι → ι → Bound K}
  (hD : Closed D) {k : K}
include hD

/-- Without a bound, the differences are not bounded. -/
theorem exists_lt_sub {i j : ι} (h : D i j = .inf) (b : K) : ∃ v, Sat D v ∧ b < v i - v j := by
  have hij : i ≠ j := by
    rintro rfl
    rw [hD.diag] at h; exact absurd h (by simp [Bound.zero_def])
  obtain ⟨w, hw⟩ := hD.exists_sat
  have hle : (D j i).Holds (-max (w i - w j) (b + 1)) :=
    (hw j i).anti (by rw [← neg_sub (w i) (w j)]; exact neg_le_neg (le_max_left _ _))
  obtain ⟨v, hv, he⟩ := hD.exists_sat_sub hij (by rw [h]; trivial) hle
  exact ⟨v, hv, by rw [he]; exact lt_of_lt_of_le (lt_add_one b) (le_max_right _ _)⟩

/-- Bounds up to `k` keep the differences within any larger number. -/
theorem within (h : BoundsLe k D) : Within (k + 1) {v | Sat D v} := by
  intro i j
  have hk : 0 ≤ k := (abs_nonneg _).trans (h i i 0 true (hD.diag i))
  refine ⟨fun hbdd v hv => ?_, ?_⟩
  · cases hij : D i j with
    | inf =>
      obtain ⟨b, hb⟩ := hbdd
      obtain ⟨w, hw, hlt⟩ := hD.exists_lt_sub hij b
      exact absurd (hb ⟨w, hw, rfl⟩) (not_le.2 hlt)
    | fin c s =>
      have hc : c ≤ k := (le_abs_self c).trans (h i j c s hij)
      have hv : (Bound.fin c s).Holds (v i - v j) := hij ▸ hv i j
      have hv : v i - v j ≤ c := hv.mono (Bound.fin_le_closed c s)
      linarith
  · obtain ⟨w, hw⟩ := hD.exists_sat
    rcases eq_or_ne i j with rfl | hij
    · exact ⟨w, hw, by rw [sub_self]; linarith⟩
    -- the difference of a solution, or less
    have hji : (D j i).Holds (-min (w i - w j) (k + 1)) := by
      rcases min_choice (w i - w j) (k + 1) with he | he
      · rw [he, neg_sub]; exact hw j i
      · rw [he]
        cases hb : D j i with
        | inf => trivial
        | fin c s =>
          have hc : -k ≤ c := (abs_le.1 (h j i c s hb)).1
          cases s
          · change -(k + 1) < c; linarith
          · change -(k + 1) ≤ c; linarith
    obtain ⟨v, hv, he⟩ := hD.exists_sat_sub hij ((hw i j).anti (min_le_left _ (k + 1))) hji
    exact ⟨v, hv, by rw [he]; exact min_le_right _ _⟩

/-- And conversely. -/
theorem boundsLe (h : Within k {v | Sat D v}) : BoundsLe k D := by
  intro i j c s hc
  have hle : ∀ v, Sat D v → v i - v j ≤ c := fun v hv => by
    have hv : (Bound.fin c s).Holds (v i - v j) := hc ▸ hv i j
    exact hv.mono (Bound.fin_le_closed c s)
  rw [abs_le]
  constructor
  · obtain ⟨v, hv, hvk⟩ := (h j i).2
    have := hle v hv
    linarith
  · rcases eq_or_ne i j with rfl | hij
    · rw [hD.diag, Bound.zero_def, Bound.fin.injEq] at hc
      obtain ⟨v, -, hvk⟩ := (h i i).2
      rw [sub_self] at hvk
      exact hc.1 ▸ hvk
    · have hbdd : BddAbove {d | ∃ v ∈ {v | Sat D v}, v i - v j = d} :=
        ⟨c, by rintro _ ⟨v, hv, rfl⟩; exact hle v hv⟩
      have hk : D i j ≤ .fin k true := hD.le_of_forall hij fun v hv => (h i j).1 hbdd v hv
      rw [hc] at hk
      rcases Bound.fin_le_fin.1 hk with hk | ⟨hk, -⟩
      exacts [hk.le, hk.le]

end Closed

/-- **Finitely many systems** have bounds by integers up to `k`. -/
theorem finite_setOf_isInt [Finite ι] [FloorRing K] [IsStrictOrderedRing K] (k : K) :
    {D : ι → ι → Bound K | BoundsLe k D ∧ ∀ i j, (D i j).IsInt}.Finite := by
  have hfin : ({b : Bound K | ∃ z ∈ Set.Icc (-⌊k⌋) ⌊k⌋, ∃ s, b = .fin (z : K) s} ∪
      {.inf}).Finite := by
    refine Set.Finite.union ?_ (Set.finite_singleton _)
    have himage : {b : Bound K | ∃ z ∈ Set.Icc (-⌊k⌋) ⌊k⌋, ∃ s, b = .fin (z : K) s} =
        (fun x : ℤ × Bool => Bound.fin (x.1 : K) x.2) '' (Set.Icc (-⌊k⌋) ⌊k⌋ ×ˢ Set.univ) := by
      ext b
      constructor
      · rintro ⟨z, hz, s, rfl⟩; exact ⟨(z, s), ⟨hz, trivial⟩, rfl⟩
      · rintro ⟨⟨z, s⟩, ⟨hz, -⟩, rfl⟩; exact ⟨z, hz, s, rfl⟩
    rw [himage]
    exact ((Set.finite_Icc _ _).prod Set.finite_univ).image _
  refine (Set.Finite.pi' fun i : ι => Set.Finite.pi' fun j : ι => hfin).subset ?_
  rintro D ⟨hle, hint⟩ i j
  cases hij : D i j with
  | inf => exact Or.inr rfl
  | fin c s =>
    obtain ⟨z, rfl⟩ := hint i j c s hij
    have habs := abs_le.1 (hle i j _ s hij)
    refine Or.inl ⟨z, ⟨?_, Int.le_floor.2 habs.2⟩, s, rfl⟩
    rw [neg_le, Int.le_floor]
    push_cast
    linarith

end Difference

/-
  Extrapolation of a system of difference constraints.

  One index `o` is the reference point: the value of an index `i` in the valuation
  `v` is `v i - v o`.

  * `Closed.exists_sat_box`: a closed system has a solution within given bounds on the
    values, if no such bounds on two of them contradict the entry between the two;
  * `extrapolate m b` forgets a bound above `m` and weakens one below `-m`;
  * `Closed.exists_agree`: a solution of the extrapolated system agrees with one of the
    system up to `m`: each value is the same in both, or above `m` in both.
-/
import MooreFilter.Lib.Difference

namespace Difference

variable {ι K : Type*} [Field K] [LinearOrder K]

/-! ## Bounds on the values -/

section
variable [Fintype ι] (lo up : ι → Bound K) (D : ι → ι → Bound K)

/-- The bound on the value of `i` by the upper bounds. -/
def valueUpper (i : ι) : Bound K := Finset.univ.inf fun j => D i j + up j

/-- The bound on the negated value of `j` by the lower bounds. -/
def valueLower (j : ι) : Bound K := Finset.univ.inf fun i => lo i + D i j

/-- The system with the bounds on the values. -/
def boxed : ι → ι → Bound K := fun i j => min (D i j) (valueUpper up D i + valueLower lo D j)

variable {lo up D}

theorem valueUpper_le (i j : ι) : valueUpper up D i ≤ D i j + up j :=
  Finset.inf_le (Finset.mem_univ j)

theorem valueLower_le (i j : ι) : valueLower lo D j ≤ lo i + D i j :=
  Finset.inf_le (Finset.mem_univ i)

variable [IsStrictOrderedRing K] (hD : Closed D)
include hD

theorem Closed.valueUpper_le_add (i k : ι) : valueUpper up D i ≤ D i k + valueUpper up D k := by
  obtain ⟨j, -, hj⟩ := Finset.univ.exists_mem_eq_inf ⟨k, Finset.mem_univ k⟩ fun j => D k j + up j
  calc valueUpper up D i ≤ D i j + up j := valueUpper_le i j
    _ ≤ D i k + D k j + up j := add_le_add_left (hD.tri k i j) _
    _ = D i k + (D k j + up j) := add_assoc _ _ _
    _ = _ := by rw [valueUpper, hj]

theorem Closed.valueLower_le_add (j k : ι) : valueLower lo D j ≤ valueLower lo D k + D k j := by
  obtain ⟨i, -, hi⟩ := Finset.univ.exists_mem_eq_inf ⟨k, Finset.mem_univ k⟩ fun i => lo i + D i k
  calc valueLower lo D j ≤ lo i + D i j := valueLower_le i j
    _ ≤ lo i + (D i k + D k j) := add_le_add_right (hD.tri k i j) _
    _ = lo i + D i k + D k j := (add_assoc _ _ _).symm
    _ = _ := by rw [valueLower, hi]

theorem Closed.closed_boxed (h : ∀ i j, 0 ≤ lo i + D i j + up j) : Closed (boxed lo up D) := by
  -- the bounds on one value do not contradict each other
  have hvalue : ∀ k, 0 ≤ valueLower lo D k + valueUpper up D k := by
    intro k
    obtain ⟨i, -, hi⟩ := Finset.univ.exists_mem_eq_inf ⟨k, Finset.mem_univ k⟩ fun i => lo i + D i k
    obtain ⟨j, -, hj⟩ := Finset.univ.exists_mem_eq_inf ⟨k, Finset.mem_univ k⟩ fun j => D k j + up j
    calc 0 ≤ lo i + D i j + up j := h i j
      _ ≤ lo i + (D i k + D k j) + up j := add_le_add_left (add_le_add_right (hD.tri k i j) _) _
      _ = lo i + D i k + (D k j + up j) := by rw [← add_assoc, add_assoc]
      _ = _ := by rw [valueLower, valueUpper, hi, hj]
  refine ⟨fun i => ?_, fun k i j => ?_⟩
  · unfold boxed
    rw [hD.diag, add_comm]
    exact min_eq_left (hvalue i)
  · unfold boxed
    rw [← min_add_add_right, ← min_add_add_left, ← min_add_add_left]
    refine le_min (le_min ?_ ?_) (le_min ?_ ?_)
    · exact (min_le_left _ _).trans (hD.tri k i j)
    · rw [← add_assoc]
      exact (min_le_right _ _).trans (add_le_add_left (hD.valueUpper_le_add i k) _)
    · rw [add_assoc]
      exact (min_le_right _ _).trans (add_le_add_right (hD.valueLower_le_add j k) _)
    · calc min (D i j) (valueUpper up D i + valueLower lo D j)
          ≤ valueUpper up D i + valueLower lo D j := min_le_right _ _
        _ ≤ valueUpper up D i + (valueLower lo D k + valueUpper up D k) + valueLower lo D j :=
          add_le_add_left (le_add_of_nonneg_right (hvalue k)) _
        _ = _ := by rw [← add_assoc, add_assoc]

variable (lo up) in
/-- **Boxes.** A closed system has a solution within bounds on the values, if no two of
    these contradict the entry between them. -/
theorem Closed.exists_sat_box [DecidableEq ι] {o : ι} (hlo : lo o = 0) (hup : up o = 0)
    (h : ∀ i j, 0 ≤ lo i + D i j + up j) :
    ∃ v, Sat D v ∧ ∀ i, (lo i).Holds (v o - v i) ∧ (up i).Holds (v i - v o) := by
  obtain ⟨v, hv⟩ := (hD.closed_boxed h).exists_sat
  refine ⟨v, hv.mono fun i j => min_le_left _ _, fun i => ⟨(hv o i).mono ?_, (hv i o).mono ?_⟩⟩
  · calc boxed lo up D o i ≤ valueUpper up D o + valueLower lo D i := min_le_right _ _
      _ ≤ (D o o + up o) + (lo i + D i i) := add_le_add (valueUpper_le o o) (valueLower_le i i)
      _ = lo i := by rw [hD.diag, hD.diag, hup, add_zero, add_zero, zero_add]
  · calc boxed lo up D i o ≤ valueUpper up D i + valueLower lo D o := min_le_right _ _
      _ ≤ (D i i + up i) + (lo o + D o o) := add_le_add (valueUpper_le i i) (valueLower_le o o)
      _ = up i := by rw [hD.diag, hD.diag, hlo, add_zero, add_zero, zero_add]

end

/-! ## Extrapolation -/

/-- The bound, forgotten above `m` and weakened below `-m`. -/
def extrapolate (m : K) (b : Bound K) : Bound K :=
  if b > .fin m true then .inf else if b < .fin (-m) false then .fin (-m) false else b

theorem le_extrapolate (m : K) (b : Bound K) : b ≤ extrapolate m b := by
  unfold extrapolate
  split_ifs with h₁ h₂
  · exact Bound.le_inf b
  · exact h₂.le
  · exact le_rfl

/-- The upper bound on a value, up to `m`. -/
def upTo (m x : K) : Bound K := if x ≤ m then .fin x true else .inf

/-- The lower bound, as a bound on the negated value. -/
def downTo (m x : K) : Bound K := if x ≤ m then .fin (-x) true else .fin (-m) false

omit [Field K] in
theorem holds_upTo (m x : K) : (upTo m x).Holds x := by
  unfold upTo
  split_ifs
  · exact le_refl x
  · trivial

variable [IsStrictOrderedRing K]

theorem holds_downTo (m x : K) : (downTo m x).Holds (-x) := by
  unfold downTo
  split_ifs with h
  · exact le_refl (-x)
  · exact neg_lt_neg (not_le.1 h)

theorem extrapolate_nonpos {m : K} (hm : 0 ≤ m) {b : Bound K} (hb : b ≤ 0) :
    extrapolate m b ≤ 0 := by
  have hle : (.fin 0 true : Bound K) ≤ .fin m true := by
    rw [Bound.fin_le_fin]
    exact hm.lt_or_eq.imp id fun h => ⟨h, le_rfl⟩
  unfold extrapolate
  split_ifs with h₁ h₂
  · exact absurd (hb.trans hle) (not_le.2 h₁)
  · rw [Bound.zero_def, Bound.fin_le_fin]
    exact (neg_nonpos.2 hm).lt_or_eq.imp id fun h => ⟨h, Bool.false_le _⟩
  · exact hb

/-- A difference within the extrapolated bound does not contradict the bound, as far as its
    two values are known up to `m`. -/
theorem nonneg_of_holds_extrapolate {m x y : K} (hx : 0 ≤ x) (hy : 0 ≤ y)
    {b : Bound K} (h : (extrapolate m b).Holds (x - y)) : 0 ≤ downTo m x + b + upTo m y := by
  unfold extrapolate at h
  split_ifs at h with h₁ h₂
  · -- the bound is above `m`, and so is `x` with it
    unfold upTo
    split_ifs with hym
    · cases b with
      | inf => simp
      | fin c s =>
        have hc : m < c := by
          rcases Bound.fin_lt_fin.1 h₁ with hc | ⟨-, hs⟩
          · exact hc
          · exact absurd hs (not_lt.2 (Bool.le_true s))
        rw [Bound.zero_le_iff]
        unfold downTo
        split_ifs with hxm
        all_goals
          simp only [Bound.fin_add_fin]
          refine (Bound.zero_le_iff (b := .fin _ _)).1 (Bound.fin_le_fin.2 (Or.inl ?_))
          linarith
    · simp
  · -- the bound is below `-m`, so `y` is above `m`
    have hlt : x - y < -m := h
    have hy : ¬ y ≤ m := by linarith
    unfold upTo
    rw [if_neg hy, Bound.add_inf]
    exact Bound.le_inf 0
  · rw [Bound.zero_le_iff]
    have hsum := ((holds_downTo m x).add h).add (holds_upTo m y)
    rwa [show -x + (x - y) + y = 0 by ring] at hsum

/-- **Extrapolation.** A solution of the extrapolated system agrees with one of the system
    up to `m`. -/
theorem Closed.exists_agree [Fintype ι] [DecidableEq ι] {D : ι → ι → Bound K} (hD : Closed D)
    {o : ι} (hnonneg : ∀ i, D o i ≤ 0) {m : K} (hm : 0 ≤ m) {v' : ι → K}
    (hv' : Sat (fun i j => extrapolate m (D i j)) v') :
    ∃ v, Sat D v ∧ ∀ i, v i - v o = v' i - v' o ∨ m < v i - v o ∧ m < v' i - v' o := by
  have hvalue : ∀ i, 0 ≤ v' i - v' o := by
    intro i
    have h : (0 : Bound K).Holds (v' o - v' i) := (hv' o i).mono (extrapolate_nonpos hm (hnonneg i))
    have h : v' o - v' i ≤ 0 := h
    linarith
  obtain ⟨v, hv, hbox⟩ := hD.exists_sat_box (fun i => downTo m (v' i - v' o))
    (fun i => upTo m (v' i - v' o)) (o := o) (by simp [downTo, hm, Bound.zero_def])
    (by simp [upTo, hm, Bound.zero_def]) fun i j => by
      refine nonneg_of_holds_extrapolate (hvalue i) (hvalue j) ?_
      rw [sub_sub_sub_cancel_right]; exact hv' i j
  refine ⟨v, hv, fun i => ?_⟩
  obtain ⟨hlo, hup⟩ := hbox i
  by_cases hi : v' i - v' o ≤ m
  · left
    rw [downTo, if_pos hi] at hlo
    rw [upTo, if_pos hi] at hup
    have hlo : v o - v i ≤ -(v' i - v' o) := hlo
    have hup : v i - v o ≤ v' i - v' o := hup
    linarith
  · right
    rw [downTo, if_neg hi] at hlo
    have hlo : v o - v i < -m := hlo
    exact ⟨by linarith, not_le.1 hi⟩

end Difference

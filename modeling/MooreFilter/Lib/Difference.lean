/-
  Systems of difference constraints.

  A matrix `D` of bounds, over any index type, constrains the differences
  `v i - v j` of a valuation `v` (`Sat`).

  * `Closed D`: the diagonal is `0` and `D i j ≤ D i k + D k j`;
  * `Closed.extend`: over a closed matrix a valuation of some of the indices
    that meets the bounds among them extends to one more index, so to all of
    them (`Closed.extend_all`);
  * `Closed.le_of_forall`: every entry of a closed matrix is the tightest bound
    that the system implies;
  * `close k D` is one elimination step, which keeps the solutions (`sat_close`)
    and closes `D` at `k` without opening it elsewhere (`closedAt_close_self`,
    `ClosedAt.closedAt_close`); `lower x y c D` adds one constraint, and two
    elimination steps close the matrix again (`Closed.closed_lower`);
  * `Canonical D`: no detour improves a bound, and the diagonal is not negative; with
    `0` on the diagonal (`zeroDiag`) it is closed and has the same solutions.
-/
import MooreFilter.Lib.Bound
import Mathlib.Data.Finset.Lattice.Fold
import Mathlib.Data.Fintype.Basic
import Mathlib.Tactic.Ring

namespace Difference

variable {ι K : Type*}

section
variable [LinearOrder K] [DecidableEq ι]

/-- The matrix with the bound `c` added at `(x, y)`. -/
def lower (x y : ι) (c : Bound K) (D : ι → ι → Bound K) : ι → ι → Bound K :=
  fun i j => if i = x ∧ j = y then min (D x y) c else D i j

theorem lower_le (x y : ι) (c : Bound K) (D : ι → ι → Bound K) (i j : ι) :
    lower x y c D i j ≤ D i j := by
  unfold lower; split_ifs with h
  · obtain ⟨rfl, rfl⟩ := h; exact min_le_left _ _
  · exact le_rfl

theorem lower_self (x y : ι) (c : Bound K) (D : ι → ι → Bound K) :
    lower x y c D x y = min (D x y) c := if_pos ⟨rfl, rfl⟩

theorem lower_of_ne {x y i j : ι} (c : Bound K) (D : ι → ι → Bound K)
    (h : ¬ (i = x ∧ j = y)) : lower x y c D i j = D i j := if_neg h

end

variable [Field K] [LinearOrder K]

/-- The valuation meets every bound of the matrix. -/
def Sat (D : ι → ι → Bound K) (v : ι → K) : Prop := ∀ i j, (D i j).Holds (v i - v j)

/-- The valuation meets the bounds among the indices of `S`. -/
def SatOn (D : ι → ι → Bound K) (S : Finset ι) (v : ι → K) : Prop :=
  ∀ i ∈ S, ∀ j ∈ S, (D i j).Holds (v i - v j)

/-- Closed at `k`: no detour over `k` improves a bound. -/
def ClosedAt (k : ι) (D : ι → ι → Bound K) : Prop := ∀ i j, D i j ≤ D i k + D k j

/-- Closed: the diagonal is `0` and no detour improves a bound. -/
structure Closed (D : ι → ι → Bound K) : Prop where
  diag : ∀ i, D i i = 0
  tri : ∀ k, ClosedAt k D

/-- One elimination step: the bounds, improved by the detours over `k`. -/
def close (k : ι) (D : ι → ι → Bound K) : ι → ι → Bound K :=
  fun i j => min (D i j) (D i k + D k j)

theorem Sat.mono {D D' : ι → ι → Bound K} {v : ι → K} (h : Sat D v) (hle : ∀ i j, D i j ≤ D' i j) :
    Sat D' v :=
  fun i j => (h i j).mono (hle i j)

theorem Sat.diag_nonneg {D : ι → ι → Bound K} {v : ι → K} (h : Sat D v) (i : ι) : 0 ≤ D i i := by
  rw [Bound.zero_le_iff]; simpa using h i i

theorem close_le (k : ι) (D : ι → ι → Bound K) (i j : ι) : close k D i j ≤ D i j :=
  min_le_left _ _

theorem ClosedAt.close_eq {k : ι} {D : ι → ι → Bound K} (h : ClosedAt k D) : close k D = D := by
  funext i j; exact min_eq_left (h i j)

theorem sat_lower [DecidableEq ι] {x y : ι} {c : Bound K} {D : ι → ι → Bound K} {v : ι → K} :
    Sat (lower x y c D) v ↔ Sat D v ∧ c.Holds (v x - v y) := by
  constructor
  · refine fun h => ⟨h.mono (lower_le x y c D), ?_⟩
    have := h x y
    rw [lower_self, Bound.holds_min] at this
    exact this.2
  · rintro ⟨h, hc⟩ i j
    unfold lower; split_ifs with hij
    · obtain ⟨rfl, rfl⟩ := hij; exact Bound.holds_min.2 ⟨h i j, hc⟩
    · exact h i j

theorem Closed.nonneg_add {D : ι → ι → Bound K} (hD : Closed D) (i j : ι) : 0 ≤ D i j + D j i :=
  hD.diag i ▸ hD.tri j i i

theorem closeLower_le [DecidableEq ι] (x y : ι) (c : Bound K) (D : ι → ι → Bound K) (i j : ι) :
    close y (close x (lower x y c D)) i j ≤ D i j :=
  ((close_le _ _ _ _).trans (close_le _ _ _ _)).trans (lower_le x y c D i j)

/-! ## Canonical matrices -/

/-- Canonical: no detour improves a bound, and the diagonal is not negative. -/
structure Canonical (D : ι → ι → Bound K) : Prop where
  diag_nonneg : ∀ i, 0 ≤ D i i
  tri : ∀ k, ClosedAt k D

/-- The matrix with `0` on the diagonal. -/
def zeroDiag [DecidableEq ι] (D : ι → ι → Bound K) : ι → ι → Bound K :=
  fun i j => if i = j then 0 else D i j

omit [LinearOrder K] in
theorem zeroDiag_of_ne [DecidableEq ι] {i j : ι} (D : ι → ι → Bound K) (h : i ≠ j) :
    zeroDiag D i j = D i j := if_neg h

/-- A diagonal that is not negative is no constraint. -/
theorem sat_congr_of_ne {D D' : ι → ι → Bound K} (h : ∀ i j, i ≠ j → D i j = D' i j)
    (hD : ∀ i, 0 ≤ D i i) (hD' : ∀ i, 0 ≤ D' i i) {v : ι → K} : Sat D v ↔ Sat D' v := by
  refine forall_congr' fun i => forall_congr' fun j => ?_
  rcases eq_or_ne i j with rfl | hij
  · rw [sub_self, ← Bound.zero_le_iff, ← Bound.zero_le_iff]
    exact iff_of_true (hD i) (hD' i)
  · rw [h i j hij]

theorem sat_zeroDiag [DecidableEq ι] {D : ι → ι → Bound K} (hD : ∀ i, 0 ≤ D i i) {v : ι → K} :
    Sat (zeroDiag D) v ↔ Sat D v :=
  sat_congr_of_ne (fun _ _ => zeroDiag_of_ne D) (fun _ => (if_pos rfl).ge) hD

theorem Closed.canonical {D : ι → ι → Bound K} (hD : Closed D) : Canonical D :=
  ⟨fun i => (hD.diag i).ge, hD.tri⟩

namespace Canonical
variable {D : ι → ι → Bound K} (hD : Canonical D)
include hD

theorem pair_nonneg (i j : ι) : 0 ≤ D i j + D j i := (hD.diag_nonneg i).trans (hD.tri j i i)

theorem closed_zeroDiag [DecidableEq ι] : Closed (zeroDiag D) := by
  refine ⟨fun i => if_pos rfl, fun k i j => ?_⟩
  unfold zeroDiag
  rcases eq_or_ne i k with rfl | hik
  · rw [if_pos (rfl : i = i), zero_add]
  · rcases eq_or_ne k j with rfl | hkj
    · rw [if_pos (rfl : k = k), add_zero]
    · rw [if_neg hik, if_neg hkj]
      split_ifs with hij
      · rw [← hij]; exact hD.pair_nonneg i k
      · exact hD.tri k i j

end Canonical

section
variable [IsStrictOrderedRing K]

theorem Sat.pair_nonneg {D : ι → ι → Bound K} {v : ι → K} (h : Sat D v) (i j : ι) :
    0 ≤ D i j + D j i :=
  Bound.exists_holds_iff.1 ⟨_, h i j, by rw [neg_sub]; exact h j i⟩

theorem SatOn.pair_nonneg {S : Finset ι} {D : ι → ι → Bound K} {v : ι → K} (h : SatOn D S v)
    {i j : ι} (hi : i ∈ S) (hj : j ∈ S) : 0 ≤ D i j + D j i :=
  Bound.exists_holds_iff.1 ⟨_, h i hi j hj, by rw [neg_sub]; exact h j hj i hi⟩

/-- Elimination keeps the solutions. -/
theorem sat_close {k : ι} {D : ι → ι → Bound K} {v : ι → K} : Sat (close k D) v ↔ Sat D v := by
  refine ⟨fun h => h.mono (close_le k D), fun h i j => Bound.holds_min.2 ⟨h i j, ?_⟩⟩
  rw [← sub_add_sub_cancel (v i) (v k) (v j)]
  exact (h i k).add (h k j)

/-- Elimination at `k` closes the matrix at `k`. -/
theorem closedAt_close_self {k : ι} {D : ι → ι → Bound K} (hk : 0 ≤ D k k) :
    ClosedAt k (close k D) := by
  intro i j
  have h₁ : close k D i k = D i k := min_eq_left (le_add_of_nonneg_right hk)
  have h₂ : close k D k j = D k j := min_eq_left (le_add_of_nonneg_left hk)
  rw [h₁, h₂]
  exact min_le_right _ _

/-- Elimination at `k` keeps the matrix closed elsewhere. -/
theorem ClosedAt.closedAt_close {k l : ι} {D : ι → ι → Bound K} (hl : ClosedAt l D)
    (hk : 0 ≤ D k k) :
    ClosedAt l (close k D) := by
  intro i j
  -- the detour over `l` uses each half either directly or over `k`
  have direct : close k D i j ≤ D i k + D k j := min_le_right _ _
  rcases min_choice (D i l) (D i k + D k l) with h₁ | h₁ <;>
    rcases min_choice (D l j) (D l k + D k j) with h₂ | h₂ <;>
    simp only [close, h₁, h₂]
  · exact (min_le_left _ _).trans (hl i j)
  · calc _ ≤ D i k + D k j := direct
      _ ≤ D i l + D l k + D k j := add_le_add_left (hl i k) _
      _ = _ := add_assoc _ _ _
  · calc _ ≤ D i k + D k j := direct
      _ ≤ D i k + (D k l + D l j) := add_le_add_right (hl k j) _
      _ = _ := (add_assoc _ _ _).symm
  · calc _ ≤ D i k + D k j := direct
      _ ≤ D i k + (D k k + D k j) := add_le_add_right (le_add_of_nonneg_left hk) _
      _ ≤ D i k + ((D k l + D l k) + D k j) :=
        add_le_add_right (add_le_add_left (hl k k) _) _
      _ = _ := by rw [add_assoc, add_assoc]

namespace Closed
variable {D : ι → ι → Bound K} (hD : Closed D)
include hD

/-- **Extension.** A valuation meeting the bounds among the indices of `S` can
    be changed at one index `k` to meet those with `k` too. -/
theorem extend [DecidableEq ι] {S : Finset ι} {v : ι → K} (hv : SatOn D S v) {k : ι} (hk : k ∉ S) :
    ∃ a, SatOn D (insert k S) (Function.update v k a) := by
  -- the bounds on the new value `a`, and those on `-a`
  set U := S.inf fun j => D k j + .fin (v j) true with hU
  set L := S.inf fun i => D i k + .fin (-v i) true with hL
  have compat : 0 ≤ U + L := by
    rcases S.eq_empty_or_nonempty with rfl | hne
    · simp only [hU, Finset.inf_empty, Bound.top_eq_inf, Bound.inf_add]; exact Bound.le_inf _
    · obtain ⟨j, hj, ej⟩ := S.exists_mem_eq_inf hne fun j => D k j + .fin (v j) true
      obtain ⟨i, hi, ei⟩ := S.exists_mem_eq_inf hne fun i => D i k + .fin (-v i) true
      have h := (hv i hi j hj).mono (hD.tri k i j)
      have e : U + L = D i k + D k j + .fin (v j - v i) true := by
        rw [hU, hL, ej, ei, add_add_add_comm, add_comm (D k j), sub_eq_add_neg]; rfl
      rw [e, Bound.zero_le_iff, Bound.holds_add_fin]
      simpa using h
  obtain ⟨a, ha, ha'⟩ := Bound.exists_holds_iff.2 compat
  refine ⟨a, fun i hi j hj => ?_⟩
  have ne : ∀ {l}, l ∈ S → l ≠ k := fun hl e => hk (e ▸ hl)
  rcases Finset.mem_insert.1 hi with rfl | hi' <;> rcases Finset.mem_insert.1 hj with rfl | hj'
  · rw [hD.diag]; simp [← Bound.zero_le_iff]
  · rw [Function.update_self, Function.update_of_ne (ne hj'), ← Bound.holds_add_fin]
    exact ha.mono (Finset.inf_le hj')
  · rw [Function.update_self, Function.update_of_ne (ne hi')]
    have : (D i j + .fin (-v i) true).Holds (-a) := ha'.mono (Finset.inf_le hi')
    rw [Bound.holds_add_fin] at this
    rwa [show v i - a = -a - -v i by ring]
  · rw [Function.update_of_ne (ne hi'), Function.update_of_ne (ne hj')]
    exact hv i hi' j hj'

/-- A valuation meeting the bounds among the indices of `S` extends to a
    solution. -/
theorem extend_all [DecidableEq ι] [Fintype ι] {S : Finset ι} {v : ι → K} (hv : SatOn D S v) :
    ∃ w, Sat D w ∧ ∀ i ∈ S, w i = v i := by
  suffices h : ∀ T : Finset ι, ∃ w, SatOn D (S ∪ T) w ∧ ∀ i ∈ S, w i = v i by
    obtain ⟨w, hw, he⟩ := h Finset.univ
    exact ⟨w, fun i j => hw i (by simp) j (by simp), he⟩
  intro T
  induction T using Finset.induction_on with
  | empty => exact ⟨v, by simpa using hv, fun _ _ => rfl⟩
  | insert k T _ ih =>
    obtain ⟨w, hw, he⟩ := ih
    by_cases hk : k ∈ S ∪ T
    · exact ⟨w, by rwa [Finset.union_insert, Finset.insert_eq_of_mem hk], he⟩
    · obtain ⟨a, ha⟩ := hD.extend hw hk
      refine ⟨Function.update w k a, by rwa [Finset.union_insert], fun i hi => ?_⟩
      have : i ≠ k := fun e => hk (Finset.mem_union_left _ (e ▸ hi))
      rw [Function.update_of_ne this, he i hi]

/-- Every difference within the two bounds on it is taken by a solution. -/
theorem exists_sat_sub [DecidableEq ι] [Fintype ι] {i j : ι} (hij : i ≠ j) {r : K}
    (h : (D i j).Holds r) (h' : (D j i).Holds (-r)) : ∃ v, Sat D v ∧ v i - v j = r := by
  have hv : SatOn D {i, j} (Function.update (fun _ => 0) i r) := by
    have h0 : ∀ a, (D a a).Holds 0 := fun a => Bound.zero_le_iff.1 (hD.diag a).ge
    intro a ha b hb
    simp only [Finset.mem_insert, Finset.mem_singleton] at ha hb
    rcases ha with rfl | rfl <;> rcases hb with rfl | rfl <;>
      simp [Function.update_of_ne hij.symm, h, h', h0]
  obtain ⟨w, hw, he⟩ := hD.extend_all hv
  refine ⟨w, hw, ?_⟩
  rw [he i (by simp), he j (by simp)]
  simp [Function.update_of_ne hij.symm]

theorem exists_sat [DecidableEq ι] [Fintype ι] : ∃ v, Sat D v := by
  obtain ⟨w, hw, -⟩ := hD.extend_all (S := ∅) (v := fun _ => 0) (by simp [SatOn])
  exact ⟨w, hw⟩

/-- **Tightness.** An entry of a closed matrix is the tightest bound that the
    system implies. -/
theorem le_of_forall [DecidableEq ι] [Fintype ι] {i j : ι} (hij : i ≠ j) {b : Bound K}
    (h : ∀ v, Sat D v → b.Holds (v i - v j)) : D i j ≤ b := by
  by_contra hlt
  rw [not_le] at hlt
  rcases b with ⟨c, s⟩ | _
  · -- a difference that meets the entry but not the bound
    have hL : 0 ≤ D i j + min (D j i) (.fin (-c) (!s)) := by
      rw [← min_add_add_left]
      exact le_min (hD.nonneg_add i j) (Bound.fin_lt_iff.1 hlt)
    obtain ⟨r, hr, hr'⟩ := Bound.exists_holds_iff.2 hL
    rw [Bound.holds_min] at hr'
    obtain ⟨v, hv, rfl⟩ := hD.exists_sat_sub hij hr hr'.1
    exact Bound.not_holds_fin.2 hr'.2 (h v hv)
  · exact absurd hlt (by simp)

end Closed

/-! ## One more constraint -/

namespace Canonical
variable {D : ι → ι → Bound K} (hD : Canonical D)
include hD

theorem exists_sat [DecidableEq ι] [Fintype ι] : ∃ v, Sat D v := by
  obtain ⟨v, hv⟩ := hD.closed_zeroDiag.exists_sat
  exact ⟨v, (sat_zeroDiag hD.diag_nonneg).1 hv⟩

/-- A canonical matrix with one more constraint keeps a solution, unless the constraint
    contradicts the opposite entry. -/
theorem exists_sat_lower [DecidableEq ι] [Fintype ι] {x y : ι} (hxy : x ≠ y) {c : Bound K}
    (hc : 0 ≤ c + D y x) : ∃ v, Sat (lower x y c D) v := by
  have hmin : 0 ≤ min (D x y) c + D y x := by
    rw [← min_add_add_right]; exact le_min (hD.pair_nonneg x y) hc
  obtain ⟨r, hr, hr'⟩ := Bound.exists_holds_iff.2 hmin
  rw [Bound.holds_min] at hr
  have hZ := hD.closed_zeroDiag
  obtain ⟨v, hv, rfl⟩ := hZ.exists_sat_sub hxy (by rw [zeroDiag_of_ne D hxy]; exact hr.1)
    (by rw [zeroDiag_of_ne D hxy.symm]; exact hr')
  exact ⟨v, sat_lower.2 ⟨(sat_zeroDiag hD.diag_nonneg).1 hv, hr.2⟩⟩

/-- Then it is canonical again after eliminating the two indices of the constraint. -/
theorem canonical_lower [DecidableEq ι] [Fintype ι] {x y : ι} (hxy : x ≠ y) {c : Bound K}
    (hc : 0 ≤ c + D y x) : Canonical (close y (close x (lower x y c D))) := by
  -- a solution, so that the diagonal does not get negative
  obtain ⟨v, s₁⟩ := hD.exists_sat_lower hxy hc
  have s₂ := (sat_close (k := x)).2 s₁
  have s₃ := (sat_close (k := y)).2 s₂
  -- the new entry is on no detour over another index
  have other : ∀ k, k ≠ x → k ≠ y → ClosedAt k (lower x y c D) := by
    intro k hx hy i j
    rw [lower_of_ne c D (i := i) (j := k) (by tauto), lower_of_ne c D (i := k) (j := j) (by tauto)]
    exact (lower_le x y c D i j).trans (hD.tri k i j)
  refine ⟨s₃.diag_nonneg, fun k => ?_⟩
  rcases eq_or_ne k y with rfl | hy
  · exact closedAt_close_self (s₂.diag_nonneg k)
  rcases eq_or_ne k x with rfl | hx
  · exact (closedAt_close_self (s₁.diag_nonneg k)).closedAt_close (s₂.diag_nonneg y)
  · exact ((other k hx hy).closedAt_close (s₁.diag_nonneg x)).closedAt_close (s₂.diag_nonneg y)

end Canonical

/-- A closed matrix with one more constraint, if it keeps a solution, is closed
    again after eliminating the two indices of the constraint. -/
theorem Closed.closed_lower [DecidableEq ι] [Fintype ι] {D : ι → ι → Bound K} (hD : Closed D)
    {x y : ι} (hxy : x ≠ y) {c : Bound K} (hc : 0 ≤ c + D y x) :
    Closed (close y (close x (lower x y c D))) := by
  have h := hD.canonical.canonical_lower hxy hc
  refine ⟨fun i => le_antisymm ?_ (h.diag_nonneg i), h.tri⟩
  exact (closeLower_le x y c D i i).trans (hD.diag i).le

end

end Difference

/-
  The extrapolation of zones.

  * `abstractize` is the extrapolation of the library, entry by entry
    (`value_abstractize`);
  * `AgreesUpTo m u u'`: each clock has the same value in both valuations, or one above
    `m`; the constraints by constants up to `m` do not tell the two apart
    (`AgreesUpTo.satisfiedBy_iff`);
  * `exists_agreesUpTo`: a valuation of the extrapolated zone agrees with one of the
    zone;
  * `abstractize_sound`: so a guard by constants up to `m` is satisfiable in the one iff
    it is in the other.
-/
import MooreFilter.Lib.Extrapolation
import MooreFilter.Proof.Successors
import Mathlib.Tactic.FinCases

namespace MooreFilter

open Difference (Sat extrapolate)

variable {n : ℕ}

namespace DBM
variable {D : DBM n} {m : ℚ} {s : Bool}

theorem value_abstractize (hM : D.M = .fin m s) (i j : Fin (n + 1)) :
    D.abstractize.value i j = extrapolate m (D.value i j) := by
  unfold abstractize
  rw [hM]; rfl

/-- `abstractize` only weakens the bounds. -/
theorem le_abstractize (D : DBM n) (i j : Fin (n + 1)) :
    D.value i j ≤ D.abstractize.value i j := by
  cases hM : D.M with
  | fin m s => rw [value_abstractize hM]; exact Difference.le_extrapolate m _
  | inf =>
    unfold abstractize
    rw [hM]

end DBM

/-- Each clock has the same value in both valuations, or one above `m`. -/
def AgreesUpTo (m : ℚ) (u u' : Fin n → ℚ) : Prop := ∀ x, u x = u' x ∨ m < u x ∧ m < u' x

/-- A constraint by a constant up to `m` does not tell the valuations apart. -/
theorem AgreesUpTo.satisfiedBy_iff {m : ℚ} {u u' : Fin n → ℚ} (h : AgreesUpTo m u u')
    {g : Constraint} (hg : (g.c.toInt : ℚ) ≤ m) : g.SatisfiedBy u ↔ g.SatisfiedBy u' := by
  refine exists_congr fun hx => ?_
  rcases h ⟨g.x.toNat, hx⟩ with he | ⟨hu, hu'⟩
  · rw [he]
  · -- both values are above the constant
    have hu := hg.trans_lt hu
    have hu' := hg.trans_lt hu'
    unfold Constraint.satisfy
    cases g.odr with
    | lt => exact iff_of_false (by simp [hu.le]) (by simp [hu'.le])
    | le => exact iff_of_false (by simp [hu]) (by simp [hu'])
    | gt => exact iff_of_true (by simp [hu]) (by simp [hu'])
    | ge => exact iff_of_true (by simp [hu.le]) (by simp [hu'.le])

/-- A valuation of the extrapolated zone agrees with one of the zone. -/
theorem DBM.IsZone.exists_agreesUpTo {D : DBM n} (hD : D.IsZone) {m : ℚ} {s : Bool}
    (hM : D.M = .fin m s) (hm : 0 ≤ m) {u' : Fin n → ℚ} (hu' : D.abstractize.Contains u') :
    ∃ u, D.Contains u ∧ AgreesUpTo m u u' := by
  obtain ⟨Z, hZ⟩ := hD.exists_represents
  have hsat : Sat (fun i j => extrapolate m (Z.bound i j)) (valuation u') := by
    intro i j
    by_cases hij : i = 0 ∧ j = 0
    · rw [hij.1, hij.2, sub_self, ← Bound.zero_le_iff]
      exact (Z.closed.diag 0).ge.trans (Difference.le_extrapolate m _)
    · have h := hu' i j
      rwa [value_abstractize hM, hZ.eq i j hij] at h
  obtain ⟨v, hv, hagree⟩ := Z.closed.exists_agree Z.nonneg hm hsat
  refine ⟨clocks v, contains_clocks.2 (hZ.sat_iff.2 hv), fun x => ?_⟩
  have hx := hagree x.succ
  rwa [valuation_succ, valuation_zero, sub_zero] at hx

/-- **Extrapolation.** The valuations are kept, and a guard by constants up to `m` is
    satisfiable in the extrapolated zone iff it is in the zone. -/
theorem abstractize_sound (D : DBM n) (hD : D.IsZone) (m : ℤ) (s : Bool) (hM : D.M = .fin m s)
    (hm : 0 ≤ m) :
    (∀ u, D.Contains u → D.abstractize.Contains u) ∧
    ∀ guard : List Constraint, (∀ g ∈ guard, 0 ≤ g.c.toInt ∧ g.c.toInt ≤ m) →
      ((∃ u, D.abstractize.Contains u ∧ ∀ g ∈ guard, g.SatisfiedBy u) ↔
        ∃ u, D.Contains u ∧ ∀ g ∈ guard, g.SatisfiedBy u) := by
  have hkeep : ∀ u, D.Contains u → D.abstractize.Contains u := fun u hu => hu.mono D.le_abstractize
  refine ⟨hkeep, fun guard hguard => ⟨?_, ?_⟩⟩
  · rintro ⟨u', hu', hg⟩
    obtain ⟨u, hu, hagree⟩ := hD.exists_agreesUpTo hM (by exact_mod_cast hm) hu'
    refine ⟨u, hu, fun g hmem => ?_⟩
    have hc : (g.c.toInt : ℚ) ≤ m := by exact_mod_cast (hguard g hmem).2
    exact (hagree.satisfiedBy_iff hc).2 (hg g hmem)
  · rintro ⟨u, hu, hg⟩
    exact ⟨u, hkeep u hu, hg⟩

/-- The matrix of one clock that is at least `3`, with the constant `2`. -/
def aged : DBM 1 where
  value i j := if i = 0 ∧ j = 1 then .fin (-3) true else if i = 1 ∧ j = 0 then .inf else .fin 0 true
  M := .fin (2 : ℤ) true

theorem isZone_aged : aged.IsZone := by
  refine DBM.Represents.isZone (Z := ⟨aged.value, ⟨fun i => ?_, fun k i j => ?_⟩, fun j => ?_⟩)
    ⟨fun _ _ _ => rfl, le_rfl⟩
  · fin_cases i <;> rfl
  · fin_cases k <;> fin_cases i <;> fin_cases j <;> simp [aged]
  · fin_cases j <;> simp [aged, Bound.zero_def, Bound.fin_le_fin]

/-- After the extrapolation, the clock is still not at most `2`. -/
theorem abstractize_sound_aged :
    ¬ ∃ u, aged.abstractize.Contains u ∧ ∀ g ∈ [(⟨0, .le, 2⟩ : Constraint)], g.SatisfiedBy u := by
  rw [(abstractize_sound aged isZone_aged 2 true rfl (by norm_num)).2 _ (by decide)]
  rintro ⟨u, hu, hg⟩
  have h₁ : valuation u 0 - valuation u 1 ≤ -3 := hu 0 1
  obtain ⟨hx, h₂⟩ := hg _ (List.mem_singleton_self _)
  have h₂ : u 0 ≤ ((2 : ℤ) : ℚ) := of_decide_eq_true h₂
  push_cast at h₂
  have h₃ : valuation u 1 = u 0 := rfl
  rw [valuation_zero, h₃] at h₁
  linarith

end MooreFilter

/-
  Delays and resets on closed systems of difference constraints.

  One index `o` is the reference point: the value of a clock `i` in the valuation
  `v` is `v i - v o`, so a delay moves the reference point, and a reset gives a
  clock the value of the reference point.

  * `elapse o D` are the valuations of `D` after a positive delay
    (`Closed.sat_elapse_iff`), and is closed again (`Closed.elapse`);
  * `D ∘ π`, for a map `π` of the indices, is closed if `D` is (`Closed.comap`);
    with a `π` that sends one index to `o` it is the system after a reset
    (`Closed.sat_comap_iff`);
  * `Closed.eq_of_sat_iff`: a closed system is determined by its solutions;
  * `Canonical.sat_restrict_iff`: the solutions for some of the indices;
  * `Canonical.elapse`, `Canonical.comap`, `Canonical.sat_elapse_iff` and
    `Canonical.sat_comap_iff`: the same for canonical systems.
-/
import MooreFilter.Lib.Difference
import Mathlib.Data.Fintype.Option
import Mathlib.Algebra.Order.Ring.Rat

namespace Difference

variable {ι κ K : Type*} [DecidableEq ι] [Field K] [LinearOrder K] [IsStrictOrderedRing K]

section
omit [DecidableEq ι] [IsStrictOrderedRing K]

/-- A copy of the indices of a closed system. -/
theorem Closed.comap {D : ι → ι → Bound K} (hD : Closed D) (π : κ → ι) :
    Closed fun i j => D (π i) (π j) :=
  ⟨fun i => hD.diag (π i), fun k i j => hD.tri (π k) (π i) (π j)⟩

theorem Canonical.comap {D : ι → ι → Bound K} (hD : Canonical D) (π : κ → ι) :
    Canonical fun i j => D (π i) (π j) :=
  ⟨fun i => hD.diag_nonneg (π i), fun k i j => hD.tri (π k) (π i) (π j)⟩

end

/-- Some of the indices of a canonical system have the valuations that can be extended to
    the others. -/
theorem Canonical.sat_restrict_iff [Fintype ι] [Fintype κ] {D : ι → ι → Bound K} (hD : Canonical D)
    {π : κ → ι} (hπ : Function.Injective π) {v : κ → K} :
    Sat (fun i j => D (π i) (π j)) v ↔ ∃ w, Sat D w ∧ ∀ a, v a = w (π a) := by
  constructor
  · intro hv
    have hS : SatOn (zeroDiag D) (Finset.univ.image π) (Function.extend π v 0) := by
      intro i hi j hj
      obtain ⟨a, -, rfl⟩ := Finset.mem_image.1 hi
      obtain ⟨b, -, rfl⟩ := Finset.mem_image.1 hj
      rw [hπ.extend_apply, hπ.extend_apply]
      unfold zeroDiag
      split_ifs with hab
      · rw [hπ hab, sub_self, ← Bound.zero_le_iff]
      · exact hv a b
    obtain ⟨w, hw, he⟩ := hD.closed_zeroDiag.extend_all hS
    refine ⟨w, (sat_zeroDiag hD.diag_nonneg).1 hw, fun a => ?_⟩
    rw [he (π a) (Finset.mem_image_of_mem π (Finset.mem_univ a)), hπ.extend_apply]
  · rintro ⟨w, hw, he⟩ i j
    rw [he, he]; exact hw _ _

theorem Closed.eq_of_sat_iff [Fintype ι] {D D' : ι → ι → Bound K} (hD : Closed D)
    (hD' : Closed D') (h : ∀ v, Sat D v ↔ Sat D' v) : D = D' := by
  funext i j
  rcases eq_or_ne i j with rfl | hij
  · rw [hD.diag, hD'.diag]
  · refine le_antisymm (hD.le_of_forall hij fun v hv => (h v).1 hv i j) ?_
    exact hD'.le_of_forall hij fun v hv => (h v).2 hv i j

/-! ## Delays -/

/-- The system after a positive delay: no bound by the reference point from
    above, the bounds from below are strict. -/
def elapse (o : ι) (D : ι → ι → Bound K) : ι → ι → Bound K := fun i j =>
  if j = o then if i = o then 0 else .inf else if i = o then (D i j).strict else D i j

section
variable {o : ι} {D : ι → ι → Bound K}

omit [LinearOrder K] [IsStrictOrderedRing K] in
theorem elapse_to_ref {i : ι} (hi : i ≠ o) : elapse o D i o = .inf := by simp [elapse, hi]

omit [LinearOrder K] [IsStrictOrderedRing K] in
theorem elapse_from_ref {j : ι} (hj : j ≠ o) : elapse o D o j = (D o j).strict := by
  simp [elapse, hj]

omit [LinearOrder K] [IsStrictOrderedRing K] in
theorem elapse_of_ne {i j : ι} (hi : i ≠ o) (hj : j ≠ o) : elapse o D i j = D i j := by
  simp [elapse, hi, hj]

omit [IsStrictOrderedRing K] in
/-- Elapsing keeps a system closed at an index. -/
theorem ClosedAt.elapse {k : ι} (hk : ClosedAt k D) : ClosedAt k (Difference.elapse o D) := by
  intro i j
  rcases eq_or_ne j o with rfl | hj
  · rcases eq_or_ne k j with rfl | hkj
    · rcases eq_or_ne i k with rfl | hi
      · simp [Difference.elapse]
      · rw [elapse_to_ref hi]; simp
    · rw [elapse_to_ref hkj]; simp
  · rcases eq_or_ne k o with rfl | hko
    · rcases eq_or_ne i k with rfl | hi
      · simp [Difference.elapse]
      · rw [elapse_to_ref hi]; simp
    · rw [elapse_of_ne hko hj]
      rcases eq_or_ne i o with rfl | hi
      · rw [elapse_from_ref hj, elapse_from_ref hko, ← Bound.strict_add]
        exact Bound.strict_mono (hk i j)
      · rw [elapse_of_ne hi hj, elapse_of_ne hi hko]; exact hk i j

omit [IsStrictOrderedRing K] in
/-- And closed, or canonical. -/
theorem Closed.elapse (hD : Closed D) : Closed (elapse o D) := by
  refine ⟨fun i => ?_, fun k => (hD.tri k).elapse⟩
  rcases eq_or_ne i o with rfl | hi
  · simp [Difference.elapse]
  · rw [elapse_of_ne hi hi, hD.diag]

omit [IsStrictOrderedRing K] in
theorem Canonical.elapse (hD : Canonical D) : Canonical (elapse o D) := by
  refine ⟨fun i => ?_, fun k => (hD.tri k).elapse⟩
  rcases eq_or_ne i o with rfl | hi
  · simp [Difference.elapse]
  · rw [elapse_of_ne hi hi]; exact hD.diag_nonneg i

omit [DecidableEq ι] [Field K] [IsStrictOrderedRing K] in
theorem holds_strict_of_lt {b : Bound K} {x y : K} (h : b.Holds x) (hxy : y < x) :
    b.strict.Holds y := by
  rcases b with ⟨c, _ | _⟩ | _
  exacts [hxy.trans h, hxy.trans_le h, trivial]

/-- The time before the delay, as a copy of the reference point. -/
theorem Closed.exists_delay [Fintype ι] (hD : Closed D) {w : ι → K}
    (hw : Sat (Difference.elapse o D) w) : ∃ t, 0 < t ∧ Sat D (Function.update w o (w o + t)) := by
  set π : Option ι → ι := fun i => i.getD o with hπ
  set E := Difference.elapse (some o) fun i j => D (π i) (π j) with hE
  have hEc : Closed E := (hD.comap π).elapse
  have hne : ∀ {i}, i ≠ o → (some i : Option ι) ≠ some o := fun hi e => hi (Option.some.inj e)
  have hsome : ∀ i j, E (some i) (some j) = Difference.elapse o D i j := by
    intro i j
    simp only [hE, hπ, Difference.elapse, Option.some.injEq, Option.getD_some]
  obtain ⟨u, hu, he⟩ := hEc.extend_all (S := Finset.univ.image some)
    (v := fun i => (i.map w).getD 0) (by
      intro i hi j hj
      obtain ⟨i, -, rfl⟩ := Finset.mem_image.1 hi
      obtain ⟨j, -, rfl⟩ := Finset.mem_image.1 hj
      rw [hsome]; exact hw i j)
  have he : ∀ i, u (some i) = w i := fun i => he (some i) (by simp)
  have hpos : w o < u none := by
    have h := hu (some o) none
    have hstrict : E (some o) none = .fin 0 false := by
      rw [hE, elapse_from_ref (by simp)]
      simp only [hπ, Option.getD_some, Option.getD_none, hD.diag]
      rfl
    rw [hstrict, he] at h
    have h : w o - u none < 0 := h
    linarith
  refine ⟨u none - w o, by linarith, ?_⟩
  rw [add_sub_cancel]
  intro i j
  rcases eq_or_ne i o with hi | hi <;> rcases eq_or_ne j o with hj | hj
  · rw [hi, hj, hD.diag]; simp [← Bound.zero_le_iff]
  · rw [hi, Function.update_self, Function.update_of_ne hj, ← he j]
    have h := hu none (some j)
    rwa [hE, elapse_of_ne (by simp) (hne hj)] at h
  · rw [hj, Function.update_self, Function.update_of_ne hi, ← he i]
    have h := hu (some i) none
    rwa [hE, elapse_of_ne (hne hi) (by simp)] at h
  · rw [Function.update_of_ne hi, Function.update_of_ne hj]
    have h := hw i j
    rwa [elapse_of_ne hi hj] at h

theorem sat_elapse {w : ι → K} {t : K} (ht : 0 < t)
    (hv : Sat D (Function.update w o (w o + t))) : Sat (Difference.elapse o D) w := by
  intro i j
  rcases eq_or_ne j o with rfl | hj
  · rcases eq_or_ne i j with rfl | hi
    · simp [Difference.elapse, ← Bound.zero_le_iff]
    · rw [elapse_to_ref hi]; trivial
  · have h := hv i j
    rw [Function.update_of_ne hj] at h
    rcases eq_or_ne i o with rfl | hi
    · rw [elapse_from_ref hj]
      rw [Function.update_self] at h
      exact holds_strict_of_lt h (by linarith)
    · rw [elapse_of_ne hi hj]
      rwa [Function.update_of_ne hi] at h

/-- **Delays.** The valuations after a positive delay: those that solve the
    system when the reference point is moved back. -/
theorem Closed.sat_elapse_iff [Fintype ι] (hD : Closed D) (w : ι → K) :
    Sat (Difference.elapse o D) w ↔ ∃ t, 0 < t ∧ Sat D (Function.update w o (w o + t)) :=
  ⟨hD.exists_delay, fun ⟨_, ht, hv⟩ => sat_elapse ht hv⟩

theorem Canonical.sat_elapse_iff [Fintype ι] (hD : Canonical D) (w : ι → K) :
    Sat (Difference.elapse o D) w ↔ ∃ t, 0 < t ∧ Sat D (Function.update w o (w o + t)) := by
  have hZ := hD.closed_zeroDiag
  have hne : ∀ i j, i ≠ j →
      Difference.elapse o D i j = Difference.elapse o (zeroDiag D) i j := by
    intro i j hij
    unfold Difference.elapse
    rw [zeroDiag_of_ne D hij]
  rw [sat_congr_of_ne hne hD.elapse.diag_nonneg hZ.elapse.canonical.diag_nonneg,
    hZ.sat_elapse_iff]
  simp only [sat_zeroDiag hD.diag_nonneg]

end

/-! ## Resets -/

/-- The indices, with `x` sent to the reference point. -/
def resetIndex (o x : ι) : ι → ι := fun i => if i = x then o else i

omit [Field K] [LinearOrder K] [IsStrictOrderedRing K] in
theorem resetIndex_ref (o x : ι) : resetIndex o x o = o := by
  unfold resetIndex; split_ifs <;> rfl

/-- **Resets.** The valuations after a reset: those of the system, with the clock
    `x` at the reference point. -/
theorem Closed.sat_comap_iff [Fintype ι] {D : ι → ι → Bound K} (hD : Closed D) (o x : ι)
    (u : ι → K) :
    Sat (fun i j => D (resetIndex o x i) (resetIndex o x j)) u ↔
      ∃ w, Sat D w ∧ ∀ i, u i = w (resetIndex o x i) := by
  constructor
  · intro hu
    rcases eq_or_ne x o with rfl | hxo
    · have hid : ∀ i, resetIndex x x i = i := fun i => by unfold resetIndex; split_ifs <;> simp [*]
      refine ⟨u, fun i j => ?_, fun i => by rw [hid]⟩
      have h : (D (resetIndex x x i) (resetIndex x x j)).Holds (u i - u j) := hu i j
      rwa [hid, hid] at h
    · have hself : resetIndex o x x = o := if_pos rfl
      have hne : ∀ {i}, i ≠ x → resetIndex o x i = i := fun hi => if_neg hi
      -- the clock is at the reference point
      have hx : u x = u o := by
        have h₁ : (D (resetIndex o x x) (resetIndex o x o)).Holds (u x - u o) := hu x o
        have h₂ : (D (resetIndex o x o) (resetIndex o x x)).Holds (u o - u x) := hu o x
        rw [hself, hne hxo.symm, hD.diag] at h₁ h₂
        have h₁ : u x - u o ≤ 0 := h₁
        have h₂ : u o - u x ≤ 0 := h₂
        linarith
      obtain ⟨w, hw, he⟩ := hD.extend_all (S := Finset.univ.erase x) (v := u) (by
        intro i hi j hj
        have h : (D (resetIndex o x i) (resetIndex o x j)).Holds (u i - u j) := hu i j
        rwa [hne (Finset.ne_of_mem_erase hi), hne (Finset.ne_of_mem_erase hj)] at h)
      refine ⟨w, hw, fun i => ?_⟩
      rcases eq_or_ne i x with rfl | hi
      · rw [hself, he o (by simp [hxo.symm]), hx]
      · rw [hne hi, he i (by simp [hi])]
  · rintro ⟨w, hw, he⟩ i j
    rw [he, he]; exact hw _ _

theorem Canonical.sat_comap_iff [Fintype ι] {D : ι → ι → Bound K} (hD : Canonical D) {o : ι}
    (ho : D o o = 0) (x : ι) (u : ι → K) :
    Sat (fun i j => D (resetIndex o x i) (resetIndex o x j)) u ↔
      ∃ w, Sat D w ∧ ∀ i, u i = w (resetIndex o x i) := by
  have hZ := hD.closed_zeroDiag
  have hne : ∀ i j, i ≠ j → D (resetIndex o x i) (resetIndex o x j) =
      zeroDiag D (resetIndex o x i) (resetIndex o x j) := by
    intro i j hij
    rcases eq_or_ne (resetIndex o x i) (resetIndex o x j) with he | he
    · -- both indices are sent to the reference point
      have hi : resetIndex o x i = o := by
        unfold resetIndex at he ⊢
        rcases eq_or_ne i x with hi | hi
        · rw [if_pos hi]
        · rcases eq_or_ne j x with hj | hj
          · rw [if_pos hj] at he; exact he
          · rw [if_neg hi, if_neg hj] at he; exact absurd he hij
      rw [← he, hi, ho]
      exact (if_pos rfl).symm
    · exact (zeroDiag_of_ne D he).symm
  rw [sat_congr_of_ne hne (hD.comap _).diag_nonneg (hZ.canonical.comap _).diag_nonneg,
    hZ.sat_comap_iff]
  simp only [sat_zeroDiag hD.diag_nonneg]

end Difference

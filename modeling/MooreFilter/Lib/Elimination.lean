/-
  Elimination at some of the indices.

  * `closeAll l D` are the elimination steps at the indices of `l`, in order; if the
    diagonal of the result is not negative, the result is closed at these indices
    (`closedAt_closeAll`);
  * `ClosedBut i j D`: closed at all indices but two, and no pair of opposite
    entries is negative.  Such a system has solutions (`ClosedBut.exists_sat`), and
    its entry `(i, j)` is the tightest bound that the system implies
    (`ClosedBut.le_of_forall`), although two eliminations are missing;
  * `SatOn D S` are the solutions of the system of some of the indices
    (`satOn_extend`); elimination at an index of `S` keeps them (`satOn_close`).
-/
import MooreFilter.Lib.Difference

namespace Difference

variable {ι K : Type*} [Field K] [LinearOrder K]

/-- Elimination at the indices of a list. -/
def closeAll (l : List ι) (D : ι → ι → Bound K) : ι → ι → Bound K :=
  l.foldl (fun D k => close k D) D

theorem closeAll_append_singleton (l : List ι) (k : ι) (D : ι → ι → Bound K) :
    closeAll (l ++ [k]) D = close k (closeAll l D) := by
  unfold closeAll
  rw [List.foldl_append]; rfl

theorem satOn_congr {S : Finset ι} {D : ι → ι → Bound K} {v v' : ι → K}
    (h : ∀ i j, v i - v j = v' i - v' j) : SatOn D S v ↔ SatOn D S v' := by
  unfold SatOn
  simp only [h]

/-- The solutions of the system of some of the indices. -/
theorem satOn_extend {S : Finset ι} {D : ι → ι → Bound K} {v : S → K} :
    SatOn D S (Function.extend Subtype.val v 0) ↔ Sat (fun a b : S => D a b) v := by
  have hv : ∀ a : S, Function.extend Subtype.val v 0 a.1 = v a :=
    fun a => Subtype.val_injective.extend_apply v 0 a
  constructor
  · intro h a b
    have := h a a.2 b b.2
    rwa [hv, hv] at this
  · intro h i hi j hj
    have := h ⟨i, hi⟩ ⟨j, hj⟩
    rwa [← hv, ← hv] at this

variable [IsStrictOrderedRing K]

theorem close_self_left {k : ι} {D : ι → ι → Bound K} (hk : 0 ≤ D k k) (j : ι) :
    close k D k j = D k j :=
  min_eq_left (le_add_of_nonneg_left hk)

theorem close_self_right {k : ι} {D : ι → ι → Bound K} (hk : 0 ≤ D k k) (i : ι) :
    close k D i k = D i k :=
  min_eq_left (le_add_of_nonneg_right hk)

theorem satOn_close {S : Finset ι} {k : ι} (hk : k ∈ S) {D : ι → ι → Bound K} {v : ι → K}
    (h : SatOn D S v) : SatOn (close k D) S v := by
  intro i hi j hj
  refine Bound.holds_min.2 ⟨h i hi j hj, ?_⟩
  rw [← sub_add_sub_cancel (v i) (v k) (v j)]
  exact (h i hi k hk).add (h k hk j hj)

theorem diag_nonneg_of_pair {D : ι → ι → Bound K} (hpair : ∀ i j, 0 ≤ D i j + D j i) (i : ι) :
    0 ≤ D i i := by
  by_contra h
  have h := not_le.1 h
  exact absurd (hpair i i) (not_le.2 (add_neg_of_neg_of_nonpos h h.le))

/-- **Elimination closes.** The result is closed at the indices of the list, if its
    diagonal is not negative. -/
theorem closedAt_closeAll {l : List ι} {D : ι → ι → Bound K}
    (h : ∀ i, 0 ≤ closeAll l D i i) : ∀ k ∈ l, ClosedAt k (closeAll l D) := by
  induction l using List.reverseRecOn with
  | nil => simp
  | append_singleton l k ih =>
    rw [closeAll_append_singleton] at h ⊢
    -- the diagonal was not negative before, either
    have hl : ∀ i, 0 ≤ closeAll l D i i := fun i => (h i).trans (close_le _ _ _ _)
    intro k' hk'
    rcases List.mem_append.1 hk' with hk' | hk'
    · exact (ih hl k' hk').closedAt_close (hl k)
    · rw [List.mem_singleton.1 hk']
      exact closedAt_close_self (hl k)

/-! ## Two eliminations missing -/

/-- Closed at all indices but two, with no negative pair of opposite entries. -/
structure ClosedBut (i j : ι) (D : ι → ι → Bound K) : Prop where
  tri : ∀ k, k ≠ i → k ≠ j → ClosedAt k D
  pair : ∀ a b, 0 ≤ D a b + D b a

namespace ClosedBut
variable {i j : ι} {D : ι → ι → Bound K}

theorem diag (h : ClosedBut i j D) (a : ι) : 0 ≤ D a a := diag_nonneg_of_pair h.pair a

/-- There is no negative cycle of length three over `i`. -/
theorem cycle_nonneg (h : ClosedBut i j D) (a b : ι) : 0 ≤ D a b + (D b i + D i a) := by
  have hcycle : ∀ a b, a ≠ i → a ≠ j → 0 ≤ D a b + (D b i + D i a) := by
    intro a b hai haj
    calc 0 ≤ D b i + D i b := h.pair b i
      _ ≤ D b i + (D i a + D a b) := add_le_add_right (h.tri a hai haj i b) _
      _ = _ := by rw [← add_assoc, add_comm]
  rcases eq_or_ne a i with rfl | hai
  · rw [← add_assoc]; exact add_nonneg (h.pair a b) (h.diag a)
  · rcases eq_or_ne a j with rfl | haj
    · rcases eq_or_ne b i with rfl | hbi
      · rw [add_left_comm]; exact add_nonneg (h.diag b) (h.pair a b)
      · rcases eq_or_ne b a with rfl | hba
        · exact add_nonneg (h.diag b) (h.pair b i)
        · -- the cycle can be entered at `b` instead
          calc 0 ≤ D a i + D i a := h.pair a i
            _ ≤ D a b + D b i + D i a := add_le_add_left (h.tri b hbi hba a i) _
            _ = _ := add_assoc _ _ _
    · exact hcycle a b hai haj

/-- The elimination at one of the two. -/
theorem close (h : ClosedBut i j D) : ClosedBut j j (close i D) := by
  refine ⟨fun k hk _ => ?_, fun a b => ?_⟩
  · rcases eq_or_ne k i with rfl | hki
    · exact closedAt_close_self (h.diag k)
    · exact (h.tri k hki hk).closedAt_close (h.diag i)
  · unfold Difference.close
    rw [← min_add_add_right]
    refine le_min ?_ ?_ <;> rw [← min_add_add_left]
    · exact le_min (h.pair a b) (h.cycle_nonneg a b)
    · refine le_min ?_ ?_
      · rw [add_comm]; exact h.cycle_nonneg b a
      · rw [add_add_add_comm]
        have := add_nonneg (h.pair a i) (h.pair b i)
        rwa [add_add_add_comm, add_comm (D i a)] at this

/-- After both eliminations the system is canonical. -/
theorem canonical_close (h : ClosedBut i j D) :
    Canonical (Difference.close j (Difference.close i D)) := by
  refine ⟨h.close.close.diag, fun k => ?_⟩
  rcases eq_or_ne k j with rfl | hk
  · exact closedAt_close_self (h.close.diag k)
  · exact h.close.close.tri k hk hk

section
variable [DecidableEq ι]

/-- The closed system: both eliminations, and `0` on the diagonal. -/
def closure (i j : ι) (D : ι → ι → Bound K) : ι → ι → Bound K := fun a b =>
  if a = b then 0 else Difference.close j (Difference.close i D) a b

omit [IsStrictOrderedRing K] in
theorem closure_eq_zeroDiag (i j : ι) (D : ι → ι → Bound K) :
    closure i j D = zeroDiag (Difference.close j (Difference.close i D)) := rfl

theorem closed_closure (h : ClosedBut i j D) : Closed (closure i j D) :=
  h.canonical_close.closed_zeroDiag

theorem sat_closure (h : ClosedBut i j D) {v : ι → K} : Sat (closure i j D) v ↔ Sat D v := by
  rw [closure_eq_zeroDiag, sat_zeroDiag h.canonical_close.diag_nonneg, sat_close, sat_close]

/-- The missing eliminations do not improve the bounds between the two. -/
theorem closure_eq (h : ClosedBut i j D) (hij : i ≠ j) :
    closure i j D i j = D i j ∧ closure i j D j i = D j i := by
  unfold closure
  rw [if_neg hij, if_neg hij.symm, close_self_right (h.close.diag j),
    close_self_left (h.close.diag j), close_self_left (h.diag i), close_self_right (h.diag i)]
  exact ⟨rfl, rfl⟩

theorem exists_sat [Fintype ι] (h : ClosedBut i j D) : ∃ v, Sat D v := by
  obtain ⟨v, hv⟩ := h.closed_closure.exists_sat
  exact ⟨v, h.sat_closure.1 hv⟩

/-- **Tightness.** The bound between the two is the tightest one. -/
theorem le_of_forall [Fintype ι] (h : ClosedBut i j D) (hij : i ≠ j) {b : Bound K}
    (hb : ∀ v, Sat D v → b.Holds (v i - v j)) : D i j ≤ b := by
  rw [← (h.closure_eq hij).1]
  exact h.closed_closure.le_of_forall hij fun v hv => hb v (h.sat_closure.1 hv)

/-- Every difference within the bounds between the two is taken by a solution. -/
theorem exists_sat_sub [Fintype ι] (h : ClosedBut i j D) (hij : i ≠ j) {r : K}
    (hr : (D i j).Holds r) (hr' : (D j i).Holds (-r)) : ∃ v, Sat D v ∧ v i - v j = r := by
  rw [← (h.closure_eq hij).1] at hr
  rw [← (h.closure_eq hij).2] at hr'
  obtain ⟨v, hv, he⟩ := h.closed_closure.exists_sat_sub hij hr hr'
  exact ⟨v, h.sat_closure.1 hv, he⟩

end

end ClosedBut

end Difference

/-
  The difference bound matrices denote sets of valuations.

  A valuation gives a number to each index; the value of a clock is the
  difference to the number of the reference point `0`.

  * `Zone n` are closed systems of non-negative clocks, `D.Represents Z` says that
    the matrix `D` is `Z`, and `D.Agrees E` that it is the system `E`, but for the
    entry `(0, 0)`;
  * `Agrees.elapse`, `Agrees.reset`, `Agrees.canonize` and `Agrees.tightenBy` say
    what the methods do to a canonical system; tightening to an empty set leaves an
    opposite pair of entries with a negative sum (`DBM.Unsat`), which later calls
    keep (`Unsat.mono`);
  * `Represents.isSatisfiable`, `Unsat.isSatisfiable`: `isSatisfiable` tells the
    two apart;
  * `Agrees.foldl_tightenBy`: a whole guard.
-/
import MooreFilter.Dbm
import MooreFilter.Lib.Delay

namespace MooreFilter

open Difference (Sat Closed ClosedAt Canonical close lower resetIndex resetIndex_ref)

variable {n : ℕ}

/-- The reference point, as a clock variable. -/
@[simp] theorem row_ref : row n 255 = 0 := rfl

/-! ## Elimination in place -/

namespace DBM

theorem ext_value {D D' : DBM n} (hv : D.value = D'.value) (hM : D.M = D'.M) : D = D' := by
  cases D; cases D'; cases hv; cases hM; rfl

theorem value_closeRow_of_ne {x i j k : Fin (n + 1)} (D : DBM n) (h : k ≠ i) :
    (closeRow x D i).value k j = D.value k j := by
  simp [closeRow, Function.update_of_ne h]

theorem value_closeRow_self {x i j : Fin (n + 1)} (D : DBM n) :
    (closeRow x D i).value i j = min (D.value i j) (D.value x j + D.value i x) := by
  simp [closeRow]

theorem M_foldl_closeRow (x : Fin (n + 1)) (l : List (Fin (n + 1))) (D : DBM n) :
    (l.foldl (closeRow x) D).M = D.M := by
  induction l generalizing D with
  | nil => rfl
  | cons i l ih => exact ih _

/-- `close1` in place is the elimination step, if the diagonal entry is not
    negative. -/
theorem value_close1 {x : Fin (n + 1)} {D : DBM n} (h : 0 ≤ D.value x x) :
    (D.close1 x).value = close x D.value := by
  suffices key : ∀ l : List (Fin (n + 1)), l.Nodup → ∀ i j,
      (l.foldl (closeRow x) D).value i j = if i ∈ l then close x D.value i j else D.value i j by
    funext i j
    rw [close1, key _ (List.nodup_finRange _), if_pos (List.mem_finRange i)]
  intro l hnd
  induction l using List.reverseRecOn with
  | nil => intro i j; rfl
  | append_singleton l k ih =>
    obtain ⟨hl, -, hk⟩ := List.nodup_append.1 hnd
    have hkl : k ∉ l := fun hk' => hk k hk' k (by simp) rfl
    have ih := ih hl
    -- row `x` is the same before and after it is processed
    have hrow : ∀ j, (l.foldl (closeRow x) D).value x j = D.value x j := by
      intro j
      rw [ih]; split_ifs
      · exact min_eq_left (le_add_of_nonneg_left h)
      · rfl
    intro i j
    rw [List.foldl_append, List.foldl_cons, List.foldl_nil]
    rcases eq_or_ne i k with rfl | hik
    · rw [value_closeRow_self, hrow, ih, ih, if_neg hkl, if_neg hkl, if_pos (by simp),
        add_comm]
      rfl
    · rw [value_closeRow_of_ne _ hik, ih]
      simp [hik]

theorem close1_le (x : Fin (n + 1)) (D : DBM n) (i j : Fin (n + 1)) :
    (D.close1 x).value i j ≤ D.value i j := by
  suffices key : ∀ (l : List (Fin (n + 1))) (D : DBM n),
      (l.foldl (closeRow x) D).value i j ≤ D.value i j from key _ D
  intro l
  induction l with
  | nil => intro D; exact le_rfl
  | cons k l ih =>
    intro D
    refine (ih _).trans ?_
    rcases eq_or_ne i k with rfl | hik
    · rw [value_closeRow_self]; exact min_le_left _ _
    · rw [value_closeRow_of_ne _ hik]

theorem tighten_le (D : DBM n) (x y : ClockVariables) (c : Bounds) (i j : Fin (n + 1)) :
    (D.tighten x y c).value i j ≤ D.value i j := by
  refine (close1_le _ _ _ _).trans ((close1_le _ _ _ _).trans ?_)
  dsimp only [set]
  split_ifs with h
  · obtain ⟨rfl, rfl⟩ := h; exact min_le_left _ _
  · exact le_rfl

theorem tighten_self_le (D : DBM n) (x y : ClockVariables) (c : Bounds) :
    (D.tighten x y c).value (row n x) (row n y) ≤ c := by
  refine (close1_le _ _ _ _).trans ((close1_le _ _ _ _).trans ?_)
  simp [set]

theorem canonize_le (D : DBM n) (i j : Fin (n + 1)) : D.canonize.value i j ≤ D.value i j := by
  unfold canonize
  generalize List.range (n + 1) = l
  induction l generalizing D with
  | nil => exact le_rfl
  | cons k l ih => exact (ih _).trans (close1_le _ _ _ _)

/-- The methods keep `M`. -/
theorem M_tighten (D : DBM n) (x y : ClockVariables) (c : Bounds) : (D.tighten x y c).M = D.M := by
  unfold tighten close1
  rw [M_foldl_closeRow, M_foldl_closeRow]; rfl

theorem M_canonize (D : DBM n) : D.canonize.M = D.M := by
  unfold canonize
  generalize List.range (n + 1) = l
  induction l generalizing D with
  | nil => rfl
  | cons k l ih => exact (ih _).trans (M_foldl_closeRow _ _ _)

/-! ## Soundness -/

theorem sat_close1 {x : Fin (n + 1)} {D : DBM n} {v : Fin (n + 1) → ℚ} (h : Sat D.value v) :
    Sat (D.close1 x).value v := by
  rw [value_close1 (h.diag_nonneg x)]; exact Difference.sat_close.2 h

theorem sat_tighten {D : DBM n} {v : Fin (n + 1) → ℚ} {x y : ClockVariables} {c : Bounds}
    (h : Sat D.value v) (hc : c.Holds (v (row n x) - v (row n y))) :
    Sat (D.tighten x y c).value v := by
  refine sat_close1 (sat_close1 fun i j => ?_)
  unfold set
  dsimp only
  split_ifs with hij
  · obtain ⟨rfl, rfl⟩ := hij; exact Bound.holds_min.2 ⟨h _ _, hc⟩
  · exact h i j

theorem sat_canonize {D : DBM n} {v : Fin (n + 1) → ℚ} (h : Sat D.value v) :
    Sat D.canonize.value v := by
  unfold canonize
  generalize List.range (n + 1) = l
  induction l generalizing D with
  | nil => exact h
  | cons k l ih => exact ih (sat_close1 h)

/-- The entries that no valuation meets. -/
def Unsat (D : DBM n) : Prop := ∃ i j, D.value i j + D.value j i < 0

theorem Unsat.mono {D D' : DBM n} (h : D.Unsat) (hle : ∀ i j, D'.value i j ≤ D.value i j) :
    D'.Unsat := by
  obtain ⟨i, j, hij⟩ := h
  exact ⟨i, j, (add_le_add (hle i j) (hle j i)).trans_lt hij⟩

/-- A matrix with a valuation passes the test. -/
theorem isSatisfiable_of_sat {D : DBM n} {v : Fin (n + 1) → ℚ} (h : Sat D.value v) :
    D.isSatisfiable.1 = true :=
  decide_eq_true fun i j => (sat_canonize h).pair_nonneg i j

theorem Unsat.isSatisfiable {D : DBM n} (h : D.Unsat) : D.isSatisfiable.1 = false := by
  obtain ⟨i, j, hij⟩ := h.mono D.canonize_le
  refine decide_eq_false fun hall => ?_
  exact absurd (hall i j) (not_le.2 hij)

end DBM

/-! ## Zones -/

/-- A closed system of non-negative clocks. -/
structure Zone (n : ℕ) where
  bound : Fin (n + 1) → Fin (n + 1) → Bounds
  closed : Closed bound
  nonneg : ∀ j, bound 0 j ≤ 0

namespace Zone

theorem ext_bound {Z Z' : Zone n} (h : Z.bound = Z'.bound) : Z = Z' := by
  cases Z; cases Z'; cases h; rfl

/-- A zone is determined by its valuations. -/
theorem ext_sat {Z Z' : Zone n} (h : ∀ v, Sat Z.bound v ↔ Sat Z'.bound v) : Z = Z' :=
  ext_bound (Z.closed.eq_of_sat_iff Z'.closed h)

/-- The zone where all clocks are `0`. -/
def zero (n : ℕ) : Zone n where
  bound _ _ := 0
  closed := ⟨fun _ => rfl, fun _ _ _ => le_of_eq (add_zero 0).symm⟩
  nonneg _ := le_rfl

/-- The zone after a positive delay. -/
def elapse (Z : Zone n) : Zone n where
  bound := Difference.elapse 0 Z.bound
  closed := Z.closed.elapse
  nonneg j := by
    rcases eq_or_ne j 0 with rfl | hj
    · simp [Difference.elapse]
    · rw [Difference.elapse_from_ref hj]; exact (Bound.strict_le _).trans (Z.nonneg j)

/-- The zone after the reset of a clock. -/
def reset (Z : Zone n) (x : ClockVariables) : Zone n where
  bound i j := Z.bound (resetIndex 0 (row n x) i) (resetIndex 0 (row n x) j)
  closed := Z.closed.comap _
  nonneg j := by rw [resetIndex_ref]; exact Z.nonneg _

end Zone

namespace DBM

/-- The matrix is the zone, but for the entry `(0, 0)`. -/
structure Represents (D : DBM n) (Z : Zone n) : Prop where
  eq : ∀ i j, ¬ (i = 0 ∧ j = 0) → D.value i j = Z.bound i j
  diag : 0 ≤ D.value 0 0

theorem represents_zero (M : Bounds) : Represents { zero n with M := M } (Zone.zero n) :=
  ⟨fun _ _ _ => rfl, le_rfl⟩

/-- A matrix agrees with a system, but for the entry `(0, 0)`. -/
structure Agrees (D : DBM n) (E : Fin (n + 1) → Fin (n + 1) → Bounds) : Prop where
  eq : ∀ i j, ¬ (i = 0 ∧ j = 0) → D.value i j = E i j
  diag : 0 ≤ D.value 0 0
  zero : E 0 0 = 0

theorem Represents.agrees {D : DBM n} {Z : Zone n} (h : D.Represents Z) : D.Agrees Z.bound :=
  ⟨h.eq, h.diag, Z.closed.diag 0⟩

theorem Agrees.represents {D : DBM n} {Z : Zone n} (h : D.Agrees Z.bound) : D.Represents Z :=
  ⟨h.eq, h.diag⟩

/-- Elimination keeps the agreement, as long as there is a solution. -/
theorem Agrees.close1 {D : DBM n} {E : Fin (n + 1) → Fin (n + 1) → Bounds} (h : D.Agrees E)
    {v : Fin (n + 1) → ℚ} (hv : Sat E v) (x : Fin (n + 1)) :
    (D.close1 x).Agrees (close x E) := by
  have hx : 0 ≤ D.value x x := by
    rcases eq_or_ne x 0 with rfl | hx
    · exact h.diag
    · rw [h.eq x x fun hxx => hx hxx.1]; exact hv.diag_nonneg x
  have hval := value_close1 hx
  refine ⟨fun i j hij => ?_, ?_, ?_⟩
  · rw [hval]
    unfold Difference.close
    rcases eq_or_ne x 0 with rfl | hx0
    · -- detours over `0` use the entry `(0, 0)` only where they do not help
      rcases eq_or_ne i 0 with rfl | hi
      · rw [h.eq _ _ hij, h.zero, zero_add, min_self]
        exact min_eq_left (le_add_of_nonneg_left h.diag)
      · rcases eq_or_ne j 0 with rfl | hj
        · rw [h.eq _ _ hij, h.zero, add_zero, min_self]
          exact min_eq_left (le_add_of_nonneg_right h.diag)
        · rw [h.eq i j hij, h.eq i 0 fun e => hi e.1, h.eq 0 j fun e => hj e.2]
    · rw [h.eq i j hij, h.eq i x fun e => hx0 e.2, h.eq x j fun e => hx0 e.1]
  · rw [hval]
    refine le_min h.diag ?_
    rcases eq_or_ne x 0 with rfl | hx0
    · exact add_nonneg h.diag h.diag
    · rw [h.eq 0 x fun e => hx0 e.2, h.eq x 0 fun e => hx0 e.1]; exact hv.pair_nonneg 0 x
  · unfold Difference.close
    rw [h.zero]; exact min_eq_left (hv.pair_nonneg 0 x)

section
variable {D : DBM n} {Z : Zone n} {E : Fin (n + 1) → Fin (n + 1) → Bounds}

theorem Agrees.sat_iff (h : D.Agrees E) {v : Fin (n + 1) → ℚ} : Sat D.value v ↔ Sat E v := by
  refine forall_congr' fun i => forall_congr' fun j => ?_
  by_cases hij : i = 0 ∧ j = 0
  · rw [hij.1, hij.2, sub_self, h.zero, ← Bound.zero_le_iff, ← Bound.zero_le_iff]
    exact iff_of_true h.diag le_rfl
  · rw [h.eq i j hij]

/-! ## The methods -/

/-- Elimination keeps a canonical system. -/
theorem Agrees.close1_canonical (h : D.Agrees E) (hE : Canonical E) (x : Fin (n + 1)) :
    (D.close1 x).Agrees E := by
  obtain ⟨v, hv⟩ := hE.exists_sat
  have hA := h.close1 hv x
  rwa [(hE.tri x).close_eq] at hA

/-- And so does `canonize`. -/
theorem Agrees.canonize (h : D.Agrees E) (hE : Canonical E) : D.canonize.Agrees E := by
  unfold DBM.canonize
  generalize List.range (n + 1) = l
  induction l generalizing D with
  | nil => exact h
  | cons k l ih => exact ih (h.close1_canonical hE _)

theorem Represents.canonize (h : D.Represents Z) : D.canonize.Represents Z :=
  (h.agrees.canonize Z.closed.canonical).represents

theorem Represents.isSatisfiable (h : D.Represents Z) : D.isSatisfiable.1 = true := by
  obtain ⟨v, hv⟩ := Z.closed.exists_sat
  exact isSatisfiable_of_sat (h.agrees.sat_iff.2 hv)

theorem Agrees.elapse (h : D.Agrees E) : D.elapse.Agrees (Difference.elapse 0 E) := by
  refine ⟨fun i j hij => ?_, ?_, ?_⟩
  · unfold DBM.elapse Difference.elapse
    dsimp only
    rcases eq_or_ne j 0 with rfl | hj
    · have hi : i ≠ 0 := fun e => hij ⟨e, rfl⟩
      simp [hi]
    · rcases eq_or_ne i 0 with rfl | hi
      · simp [hj, h.eq 0 j hij]
      · simp [hi, hj, h.eq i j hij]
  · simp [DBM.elapse]
  · simp [Difference.elapse]

theorem Represents.elapse (h : D.Represents Z) : D.elapse.Represents Z.elapse :=
  h.agrees.elapse.represents

/-- `reset` makes the clock a copy of the reference point. -/
theorem Agrees.reset (h : D.Agrees E) (x : ClockVariables) : (D.reset x).Agrees fun i j =>
    E (resetIndex 0 (row n x) i) (resetIndex 0 (row n x) j) := by
  refine ⟨fun i j hij => ?_, ?_, ?_⟩
  · dsimp only [DBM.reset, resetIndex, set]
    generalize row n x = x
    rcases eq_or_ne x 0 with rfl | hx
    · rcases eq_or_ne i 0 with rfl | hi
      · have hj : j ≠ 0 := fun e => hij ⟨rfl, e⟩
        simp [hj, h.eq 0 j hij]
      · rcases eq_or_ne j 0 with rfl | hj
        · simp [hi, h.eq i 0 hij]
        · simp [hi, hj, h.eq i j hij]
    · rcases eq_or_ne i x with rfl | hix
      · rcases eq_or_ne j 0 with rfl | hj
        · simp [hx, hx.symm, h.zero, Bound.zero_def]
        · rcases eq_or_ne j i with rfl | hji
          · simp [hx, hx.symm, h.zero, Bound.zero_def]
          · simp [hx.symm, hj, hji, h.eq 0 j fun e => hj e.2]
      · rcases eq_or_ne j x with rfl | hjx
        · rcases eq_or_ne i 0 with rfl | hi
          · simp [hx, hx.symm, h.zero, Bound.zero_def]
          · simp [hi, hix, hx, hx.symm, h.eq i 0 fun e => hi e.1]
        · simp [hix, hjx, h.eq i j hij]
  · dsimp only [DBM.reset, set]
    generalize row n x = x
    rcases eq_or_ne x 0 with rfl | hx
    · simp [Bound.zero_def]
    · simp [hx.symm, h.diag]
  · rw [resetIndex_ref, h.zero]

theorem Represents.reset (h : D.Represents Z) (x : ClockVariables) :
    (D.reset x).Represents (Z.reset x) :=
  (h.agrees.reset x).represents

/-- An entry off the reference point is lowered. -/
theorem Agrees.set (h : D.Agrees E) {x y : Fin (n + 1)} (hne : x ≠ y) (c : Bounds) :
    (D.set x y (min (D.value x y) c)).Agrees (lower x y c E) := by
  have hxy0 : ¬ (x = 0 ∧ y = 0) := fun e => hne (e.1.trans e.2.symm)
  have h0 : ¬ ((0 : Fin (n + 1)) = x ∧ (0 : Fin (n + 1)) = y) := fun e => hxy0 ⟨e.1.symm, e.2.symm⟩
  refine ⟨fun i j hij => ?_, ?_, ?_⟩
  · unfold DBM.set Difference.lower
    dsimp only
    split_ifs with e
    · rw [h.eq x y hxy0]
    · exact h.eq i j hij
  · unfold DBM.set
    dsimp only
    rw [if_neg h0]; exact h.diag
  · rw [Difference.lower_of_ne _ _ h0, h.zero]

/-- The entry of the reference point with itself is not read. -/
theorem Agrees.tighten_ref (h : D.Agrees E) (hE : Canonical E) {c : Bounds} (hc : 0 ≤ c) :
    (((D.set 0 0 (min (D.value 0 0) c)).close1 0).close1 0).Agrees E := by
  refine Agrees.close1_canonical (Agrees.close1_canonical ⟨fun i j hij => ?_, ?_, h.zero⟩ hE 0) hE 0
  · simp only [DBM.set, if_neg hij]; exact h.eq i j hij
  · simp only [DBM.set, and_self, if_true]; exact le_min h.diag hc

/-- The matrix is the canonical system cut by `P`, or it has an opposite pair of entries with
    a negative sum, and nothing is left. -/
def CutTo (D : DBM n) (E : Fin (n + 1) → Fin (n + 1) → Bounds) (P : (Fin (n + 1) → ℚ) → Prop) :
    Prop :=
  (∃ E', D.Agrees E' ∧ Canonical E' ∧ (∀ i j, E' i j ≤ E i j) ∧ ∀ v, Sat E' v ↔ Sat E v ∧ P v) ∨
    D.Unsat ∧ ∀ v, Sat E v → ¬ P v

/-- A cut zone is a zone. -/
theorem CutTo.represents {P : (Fin (n + 1) → ℚ) → Prop} (h : D.CutTo Z.bound P) :
    (∃ Z', D.Represents Z' ∧ ∀ v, Sat Z'.bound v ↔ Sat Z.bound v ∧ P v) ∨
      D.Unsat ∧ ∀ v, Sat Z.bound v → ¬ P v := by
  refine h.imp_left ?_
  rintro ⟨E', hA, hE', hle, hsat⟩
  refine ⟨⟨E', ⟨fun i => le_antisymm ?_ (hE'.diag_nonneg i), hE'.tri⟩, fun j => ?_⟩,
    hA.represents, hsat⟩
  · exact (hle i i).trans (Z.closed.diag i).le
  · exact (hle 0 j).trans (Z.nonneg j)

/-- A constraint between two indices: the system is cut. -/
theorem Agrees.tighten (h : D.Agrees E) (hE : Canonical E) (x y : ClockVariables) (c : Bounds)
    (hxy : row n x = row n y → row n x = 0) :
    (D.tighten x y c).CutTo E fun v => c.Holds (v (row n x) - v (row n y)) := by
  have hmin := D.tighten_self_le x y c
  unfold DBM.tighten at hmin ⊢
  generalize row n x = x at hxy hmin ⊢
  generalize row n y = y at hxy hmin ⊢
  rcases eq_or_ne x y with rfl | hne
  · -- both indices are the reference point
    obtain rfl := hxy rfl
    rcases le_or_gt 0 c with hc | hc
    · refine Or.inl ⟨E, h.tighten_ref hE hc, hE, fun _ _ => le_rfl, fun v => ?_⟩
      dsimp only
      rw [sub_self, ← Bound.zero_le_iff]; exact (and_iff_left hc).symm
    · refine Or.inr ⟨⟨0, 0, (add_le_add hmin hmin).trans_lt ?_⟩, fun v _ => ?_⟩
      · exact add_neg_of_neg_of_nonpos hc hc.le
      · dsimp only
        rw [sub_self, ← Bound.zero_le_iff]; exact not_le.2 hc
  · have hyx0 : ¬ (y = 0 ∧ x = 0) := fun e => hne (e.2.trans e.1.symm)
    rcases le_or_gt 0 (c + E y x) with hc | hc
    · obtain ⟨v, hv⟩ := hE.exists_sat_lower hne hc
      have hA := ((h.set hne c).close1 hv x).close1 (Difference.sat_close.2 hv) y
      have hle := Difference.closeLower_le x y c E
      refine Or.inl ⟨_, hA, hE.canonical_lower hne hc, hle, fun w => ?_⟩
      exact (Difference.sat_close.trans Difference.sat_close).trans Difference.sat_lower
    · refine Or.inr ⟨⟨x, y, lt_of_le_of_lt ?_ hc⟩, fun v hv hcv => ?_⟩
      · refine add_le_add hmin (((close1_le _ _ _ _).trans (close1_le _ _ _ _)).trans ?_)
        simp only [DBM.set, if_neg fun e : y = x ∧ x = y => hne e.2]
        exact (h.eq y x hyx0).le
      · have := hcv.add (hv y x)
        rw [sub_add_sub_cancel, sub_self, ← Bound.zero_le_iff] at this
        exact absurd this (not_le.2 hc)

end

end DBM

/-! ## Guards -/

namespace Constraint

/-- The test that the matrices make of a value: the constant of a lower bound is negated
    as an `int`, and the bound of the matrix is one on the negated value. -/
def tested (g : Constraint) (d : ℚ) : Bool :=
  match g.odr with
  | .lt => d < g.c.toInt
  | .le => d ≤ g.c.toInt
  | .gt => -d < (-g.c).toInt
  | .ge => -d ≤ (-g.c).toInt

/-- A lower bound by the least `int`: its negation overflows. -/
def Overflows (g : Constraint) : Prop := (g.odr = .gt ∨ g.odr = .ge) ∧ g.c = Int32.minValue

instance (g : Constraint) : Decidable g.Overflows := inferInstanceAs (Decidable (_ ∧ _))

theorem toInt_neg {c : Int32} (hc : c ≠ Int32.minValue) : (-c).toInt = -c.toInt := by
  have hlow : c.toInt ≠ -2 ^ 31 := fun e => hc (Int32.toInt_inj.1 e)
  have hle := c.le_toInt
  have hlt := c.toInt_lt
  rw [Int32.toInt_neg, Int.bmod_eq_of_le] <;> omega

/-- Otherwise the test is that of the constraint. -/
theorem tested_eq_satisfy {g : Constraint} (h : ¬ g.Overflows) : g.tested = g.satisfy := by
  funext d
  obtain ⟨x, o, c⟩ := g
  cases o
  case lt => rfl
  case le => rfl
  all_goals
    have hc : (-c).toInt = -c.toInt := toInt_neg fun e => h ⟨by simp, e⟩
    simp only [tested, satisfy, hc]
    push_cast
  case gt => exact decide_eq_decide.2 neg_lt_neg_iff
  case ge => exact decide_eq_decide.2 neg_le_neg_iff

/-- The valuation meets the constraint, as the matrices test it. -/
def HoldsAt (g : Constraint) (v : Fin (n + 1) → ℚ) : Prop :=
  g.tested (v (row n g.x) - v 0) = true

theorem holdsAt_iff {g : Constraint} (h : ¬ g.Overflows) {v : Fin (n + 1) → ℚ} :
    g.HoldsAt v ↔ g.satisfy (v (row n g.x) - v 0) = true := by
  rw [HoldsAt, tested_eq_satisfy h]

end Constraint

namespace DBM

/-- A constraint is tightened by a bound that says the same. -/
theorem exists_tightenBy_eq (n : ℕ) (g : Constraint) : ∃ x y c,
    (∀ D : DBM n, D.tightenBy g = D.tighten x y c) ∧ (row n x = row n y → row n x = 0) ∧
      ∀ v : Fin (n + 1) → ℚ, c.Holds (v (row n x) - v (row n y)) ↔ g.HoldsAt v := by
  obtain ⟨x, o, c⟩ := g
  cases o
  · exact ⟨x, 255, .fin c.toInt false, fun _ => rfl, id, fun v => by
      simp [Constraint.HoldsAt, Constraint.tested, Bound.Holds]⟩
  · exact ⟨x, 255, .fin c.toInt true, fun _ => rfl, id, fun v => by
      simp [Constraint.HoldsAt, Constraint.tested, Bound.Holds]⟩
  · exact ⟨255, x, .fin (-c).toInt false, fun _ => rfl, fun _ => rfl, fun v => by
      simp [Constraint.HoldsAt, Constraint.tested, Bound.Holds]⟩
  · exact ⟨255, x, .fin (-c).toInt true, fun _ => rfl, fun _ => rfl, fun v => by
      simp [Constraint.HoldsAt, Constraint.tested, Bound.Holds]⟩

theorem Agrees.tightenBy {D : DBM n} {E : Fin (n + 1) → Fin (n + 1) → Bounds} (h : D.Agrees E)
    (hE : Canonical E) (g : Constraint) : (D.tightenBy g).CutTo E g.HoldsAt := by
  obtain ⟨x, y, c, he, hxy, hc⟩ := exists_tightenBy_eq n g
  have ht := h.tighten hE x y c hxy
  simp only [hc] at ht
  rw [he]; exact ht

theorem tightenBy_le (D : DBM n) (g : Constraint) (i j : Fin (n + 1)) :
    (D.tightenBy g).value i j ≤ D.value i j := by
  obtain ⟨x, y, c, he, -⟩ := exists_tightenBy_eq n g
  rw [he]; exact tighten_le D x y c i j

theorem foldl_tightenBy_le (guard : List Constraint) (D : DBM n) (i j : Fin (n + 1)) :
    (guard.foldl DBM.tightenBy D).value i j ≤ D.value i j := by
  induction guard generalizing D with
  | nil => exact le_rfl
  | cons g guard ih => exact (ih _).trans (tightenBy_le D g i j)

/-- The matrix of a guard has the bounds of its constraints. -/
theorem constraintsToDBM_le {guard : List Constraint} {g : Constraint} (hg : g ∈ guard)
    {x y : ClockVariables} {c : Bounds} (h : ∀ D : DBM n, D.tightenBy g = D.tighten x y c) :
    (constraintsToDBM n guard).value (row n x) (row n y) ≤ c := by
  obtain ⟨l, l', rfl⟩ := List.append_of_mem hg
  unfold constraintsToDBM
  rw [List.foldl_append, List.foldl_cons]
  refine (foldl_tightenBy_le l' _ _ _).trans ?_
  rw [h]; exact tighten_self_le _ x y c

theorem M_tightenBy (D : DBM n) (g : Constraint) : (D.tightenBy g).M = D.M := by
  obtain ⟨x, y, c, he, -⟩ := exists_tightenBy_eq n g
  rw [he]; exact M_tighten D x y c

theorem M_foldl_tightenBy (guard : List Constraint) (D : DBM n) :
    (guard.foldl DBM.tightenBy D).M = D.M := by
  induction guard generalizing D with
  | nil => rfl
  | cons g guard ih => exact (ih _).trans (M_tightenBy D g)

theorem Unsat.foldl_tightenBy (guard : List Constraint) {D : DBM n} (h : D.Unsat) :
    (guard.foldl DBM.tightenBy D).Unsat :=
  h.mono (foldl_tightenBy_le guard D)

/-- **Guards.** The system is cut by the constraints. -/
theorem Agrees.foldl_tightenBy (guard : List Constraint) {D : DBM n}
    {E : Fin (n + 1) → Fin (n + 1) → Bounds} (h : D.Agrees E) (hE : Canonical E) :
    (guard.foldl DBM.tightenBy D).CutTo E fun v => ∀ g ∈ guard, g.HoldsAt v := by
  induction guard generalizing D E with
  | nil => exact Or.inl ⟨E, h, hE, fun _ _ => le_rfl, fun v => by simp⟩
  | cons g guard ih =>
    unfold CutTo
    simp only [List.foldl_cons, List.forall_mem_cons]
    rcases h.tightenBy hE g with ⟨E₁, h₁, hE₁, hle₁, hsat₁⟩ | ⟨hU, hnone⟩
    · refine (ih h₁ hE₁).imp ?_ ?_
      · rintro ⟨E', h', hE', hle, hsat⟩
        exact ⟨E', h', hE', fun i j => (hle i j).trans (hle₁ i j),
          fun v => by rw [hsat, hsat₁, and_assoc]⟩
      · rintro ⟨hU, hnone⟩
        exact ⟨hU, fun v hv hg => hnone v ((hsat₁ v).2 ⟨hv, hg.1⟩) hg.2⟩
    · exact Or.inr ⟨hU.foldl_tightenBy guard, fun v hv hg => hnone v hv hg.1⟩

theorem Represents.foldl_tightenBy (guard : List Constraint) {D : DBM n} {Z : Zone n}
    (h : D.Represents Z) :
    (∃ Z', (guard.foldl DBM.tightenBy D).Represents Z' ∧
        ∀ v, Sat Z'.bound v ↔ Sat Z.bound v ∧ ∀ g ∈ guard, g.HoldsAt v) ∨
      (guard.foldl DBM.tightenBy D).Unsat ∧
        ∀ v, Sat Z.bound v → ¬ ∀ g ∈ guard, g.HoldsAt v :=
  (h.agrees.foldl_tightenBy guard Z.closed.canonical).represents

/-- The matrix of a guard is met by the valuations of non-negative clocks that
    satisfy it. -/
theorem sat_constraintsToDBM {guard : List Constraint} {v : Fin (n + 1) → ℚ}
    (hv : ∀ j, v 0 ≤ v j) (hg : ∀ g ∈ guard, g.HoldsAt v) :
    Sat (constraintsToDBM n guard).value v := by
  unfold constraintsToDBM
  have h0 : Sat (fun i j : Fin (n + 1) => if i = 0 then (.fin 0 true : Bounds)
      else if i = j then .fin 0 true else .inf) v := by
    intro i j
    dsimp only
    split_ifs with hi hij
    · subst hi; simpa [Bound.Holds] using hv j
    · subst hij; simp [Bound.Holds]
    · trivial
  dsimp only
  generalize hD : DBM.mk _ _ = D
  have hsat : Sat D.value v := by rw [← hD]; exact h0
  clear hD h0
  induction guard generalizing D with
  | nil => exact hsat
  | cons g guard ih =>
    refine ih (fun g' hg' => hg g' (by simp [hg'])) (D.tightenBy g) ?_
    obtain ⟨x, y, c, he, -, hc⟩ := exists_tightenBy_eq n g
    rw [he]; exact sat_tighten hsat ((hc v).2 (hg g (by simp)))

end DBM

/-! ## Durations -/

/-- The indices with one more copy of the reference point. -/
def oldIndex : Fin (n + 2) → Fin (n + 1) := Fin.lastCases 0 id

@[simp] theorem oldIndex_last : oldIndex (Fin.last (n + 1)) = 0 := Fin.lastCases_last

@[simp] theorem oldIndex_castSucc (i : Fin (n + 1)) : oldIndex i.castSucc = i :=
  Fin.lastCases_castSucc i

@[simp] theorem oldIndex_zero : oldIndex (0 : Fin (n + 2)) = 0 := oldIndex_castSucc 0

theorem oldIndex_eq_zero {i : Fin (n + 2)} (hi : i ≠ 0) :
    oldIndex i = 0 ↔ i = Fin.last (n + 1) := by
  refine Fin.lastCases ?_ (fun i hi => ?_) i hi
  · simp
  · have : i ≠ 0 := fun e => hi (by rw [e]; rfl)
    simp [this, Fin.ext_iff, i.isLt.ne]

theorem Zone.bound_oldIndex_le (Z : Zone n) (j : Fin (n + 2)) :
    Z.bound (oldIndex 0) (oldIndex j) ≤ 0 := by
  rw [oldIndex_zero]; exact Z.nonneg _

/-- The zone after a positive delay; the last index is the reference point before
    the delay. -/
def Zone.withDuration (Z : Zone n) : Zone (n + 1) :=
  Zone.elapse ⟨fun i j => Z.bound (oldIndex i) (oldIndex j), Z.closed.comap _,
    Z.bound_oldIndex_le⟩

/-- A valuation, with the reference point `t` ago as the last index. -/
def withOld (w : Fin (n + 1) → ℚ) (t : ℚ) : Fin (n + 2) → ℚ := Fin.lastCases (w 0 + t) w

@[simp] theorem withOld_last (w : Fin (n + 1) → ℚ) (t : ℚ) :
    withOld w t (Fin.last (n + 1)) = w 0 + t := Fin.lastCases_last

@[simp] theorem withOld_castSucc (w : Fin (n + 1) → ℚ) (t : ℚ) (i : Fin (n + 1)) :
    withOld w t i.castSucc = w i := Fin.lastCases_castSucc i

@[simp] theorem withOld_zero (w : Fin (n + 1) → ℚ) (t : ℚ) : withOld w t 0 = w 0 :=
  withOld_castSucc w t 0

/-- If the valuation was in the zone `t` ago, it is in the zone with the duration. -/
theorem Zone.sat_withDuration {Z : Zone n} {w : Fin (n + 1) → ℚ} {t : ℚ} (ht : 0 < t)
    (hw : Sat Z.bound (Function.update w 0 (w 0 + t))) :
    Sat Z.withDuration.bound (withOld w t) := by
  refine ((Z.closed.comap oldIndex).sat_elapse_iff _).2 ⟨t, ht, fun i j => ?_⟩
  have key : ∀ i : Fin (n + 2), Function.update (withOld w t) 0 (withOld w t 0 + t) i =
      Function.update w 0 (w 0 + t) (oldIndex i) := by
    intro i
    refine Fin.lastCases ?_ (fun i => ?_) i
    · rw [oldIndex_last, Function.update_self, Function.update_of_ne (Fin.last_pos.ne'),
        withOld_last]
    · rw [oldIndex_castSucc]
      rcases eq_or_ne i 0 with rfl | hi
      · rw [Function.update_self, Fin.castSucc_zero, Function.update_self, withOld_zero]
      · have hi' : i.castSucc ≠ 0 := fun e => hi (Fin.castSucc_injective _ e)
        rw [Function.update_of_ne hi', Function.update_of_ne hi, withOld_castSucc]
  rw [key, key]; exact hw _ _

namespace DBM
variable {D D' : DBM n} {Z : Zone n}

theorem value_withDuration (D : DBM n) (i j : Fin (n + 2)) :
    D.withDuration.value i j =
      if j = 0 then .inf
      else if i = 0 then (D.value 0 (oldIndex j)).strict
      else if i = Fin.last (n + 1) ∧ j = Fin.last (n + 1) then .fin 0 true
      else D.value (oldIndex i) (oldIndex j) := by
  have hlast : (0 : Fin (n + 2)) ≠ Fin.last (n + 1) := Fin.last_pos.ne
  unfold withDuration DBM.elapse set
  change (if i = 0 then Bound.strict _ else _) = _
  rcases eq_or_ne j 0 with rfl | hj
  · simp
  · rcases eq_or_ne i 0 with rfl | hi
    · simp only [hj, hlast, if_false, if_true, false_and, and_false]
      exact congrArg (fun k => (D.value k (oldIndex j)).strict) oldIndex_zero
    · simp only [hi, hj, if_false, and_false]
      rfl

theorem durationConstraint_zero (z : DBM n) :
    durationConstraint z (0 : Fin (n + 2)) 0 = z.value 0 0 := by
  unfold durationConstraint
  rw [if_neg fun e => Fin.last_pos.ne e.2]
  exact (Fin.lastCases_castSucc (0 : Fin (n + 1))).trans
    (Fin.lastCases_castSucc (0 : Fin (n + 1)))

theorem durationConstraint_zero_last (z : DBM n) :
    durationConstraint z (0 : Fin (n + 2)) (Fin.last (n + 1)) = .fin 0 false := by
  simp [durationConstraint]

/-- The matrix that `findDuration` closes depends on the zone only. -/
theorem value_inter_duration (h : D.Represents Z) (z : DBM n) (i j : Fin (n + 2)) :
    min (D.withDuration.value i j) (durationConstraint z i j) =
      if i = 0 ∧ j = 0 then z.value 0 0
      else min (Z.withDuration.bound i j) (durationConstraint z i j) := by
  have hbound : Z.withDuration.bound i j = if j = 0 then if i = 0 then 0 else .inf
      else if i = 0 then (Z.bound (oldIndex i) (oldIndex j)).strict
      else Z.bound (oldIndex i) (oldIndex j) := rfl
  rw [hbound, value_withDuration]
  rcases eq_or_ne j 0 with rfl | hj
  · rcases eq_or_ne i 0 with rfl | hi
    · simp [durationConstraint_zero]
    · simp [hi]
  · rcases eq_or_ne i 0 with rfl | hi
    · simp only [hj, if_false, if_true, and_false, oldIndex_zero]
      rcases eq_or_ne j (Fin.last (n + 1)) with rfl | hjl
      · -- the copy of the entry `(0, 0)` is cut by the constraint on the delay
        rw [durationConstraint_zero_last, oldIndex_last, Z.closed.diag]
        have hle : (.fin 0 false : Bounds) ≤ (D.value 0 0).strict := Bound.strict_mono h.diag
        rw [min_eq_right hle]
        exact (min_self _).symm
      · rw [h.eq _ _ fun e => hjl ((oldIndex_eq_zero hj).1 e.2)]
    · simp only [hi, hj, if_false, and_false]
      split_ifs with hl
      · rw [hl.1, hl.2, oldIndex_last, Z.closed.diag]; rfl
      · rw [h.eq _ _ fun e => hl ⟨(oldIndex_eq_zero hi).1 e.1, (oldIndex_eq_zero hj).1 e.2⟩]

theorem findDuration_congr (h : D.Represents Z) (h' : D'.Represents Z) (z : DBM n) :
    D.findDuration z = D'.findDuration z := by
  have hM : D.withDuration.M = D'.withDuration.M := rfl
  simp only [findDuration, value_inter_duration h, value_inter_duration h', hM]

/-- The delays are positive. -/
theorem findDuration_lower_le (D z : DBM n) : (D.findDuration z).1 ≤ .fin 0 false := by
  refine (canonize_le _ _ _).trans ?_
  dsimp only
  rw [durationConstraint_zero_last]; exact min_le_right _ _

/-- **Durations.** A delay from the zone into the constraints is within the
    bounds. -/
theorem holds_findDuration (h : D.Represents Z) {z : DBM n} {w : Fin (n + 1) → ℚ} {t : ℚ}
    (ht : 0 < t) (hw : Sat Z.bound (Function.update w 0 (w 0 + t))) (hz : Sat z.value w) :
    (D.findDuration z).1.Holds (-t) ∧ (D.findDuration z).2.Holds t := by
  have hsat := Zone.sat_withDuration ht hw
  have hcon : ∀ i j, (durationConstraint z i j).Holds (withOld w t i - withOld w t j) := by
    intro i j
    unfold durationConstraint
    split_ifs with hij
    · rw [hij.1, hij.2, withOld_zero, withOld_last]
      simpa [Bound.Holds] using ht
    · refine Fin.lastCases ?_ (fun i => ?_) i <;> refine Fin.lastCases ?_ (fun j => ?_) j
      · simp [Bound.Holds]
      · simp [Bound.Holds]
      · simp [Bound.Holds]
      · simpa using hz i j
  have hall : Sat (fun i j => min (D.withDuration.value i j) (durationConstraint z i j))
      (withOld w t) := by
    intro i j
    dsimp only
    rw [value_inter_duration h]
    split_ifs with hij
    · rw [hij.1, hij.2, sub_self]
      simpa using hz 0 0
    · exact Bound.holds_min.2 ⟨hsat i j, hcon i j⟩
  have hcan := sat_canonize (D := ⟨fun i j => min (D.withDuration.value i j)
    (durationConstraint z i j), D.withDuration.M⟩) hall
  have h₁ := hcan 0 (Fin.last (n + 1))
  have h₂ := hcan (Fin.last (n + 1)) 0
  rw [withOld_zero, withOld_last] at h₁ h₂
  rw [show w 0 - (w 0 + t) = -t by ring] at h₁
  rw [show w 0 + t - w 0 = t by ring] at h₂
  exact ⟨h₁, h₂⟩

end DBM

end MooreFilter

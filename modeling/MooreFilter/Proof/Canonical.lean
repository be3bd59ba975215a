/-
  The methods on canonical matrices.

  * `D.Canonical`: the matrix is satisfiable, and no detour improves an entry, but for
    the entry `(0, 0)`; it agrees with a canonical system (`canonical_iff`);
  * `tighten_eq_canonize`: for at most 256 rows, the two eliminations of `tighten` do
    what `canonize` does, or nothing is left, also after any further calls;
  * `Canonical.contains_elapse`, `Canonical.contains_foldl_reset`: the valuations after
    a delay, and after resets;
  * `operationsExact_iff`: so `elapse` is exact, and the resets are unless one of them
    is that of the clock `255`, which is not always `0`.
-/
import MooreFilter.Proof.Successors

namespace MooreFilter

open Difference (Sat Closed close lower)

variable {n : ℕ}

namespace DBM
variable {D : DBM n}

/-! ## Canonical matrices -/

/-- No detour improves an entry, but for the entry `(0, 0)`. -/
def Triangle (D : DBM n) : Prop :=
  ∀ i j k, ¬ (i = 0 ∧ j = 0) → D.value i j ≤ D.value i k + D.value k j

/-- Satisfiable and canonical, but for the entry `(0, 0)`. -/
structure Canonical (D : DBM n) : Prop where
  satisfiable : ∃ u, D.Contains u
  triangle : D.Triangle

theorem Agrees.le {E : Fin (n + 1) → Fin (n + 1) → Bounds} (h : D.Agrees E) (i j : Fin (n + 1)) :
    E i j ≤ D.value i j := by
  by_cases hij : i = 0 ∧ j = 0
  · rw [hij.1, hij.2, h.zero]; exact h.diag
  · exact (h.eq i j hij).ge

/-- The canonical matrices are the canonical systems, with any entry `(0, 0)` that is not
    negative. -/
theorem canonical_iff : D.Canonical ↔ ∃ E, D.Agrees E ∧ Difference.Canonical E := by
  constructor
  · rintro ⟨⟨u, hu⟩, htri⟩
    set E : Fin (n + 1) → Fin (n + 1) → Bounds :=
      fun i j => if i = 0 ∧ j = 0 then 0 else D.value i j with hE
    have h0 : E 0 0 = 0 := if_pos ⟨rfl, rfl⟩
    have hne : ∀ {i j}, ¬ (i = 0 ∧ j = 0) → E i j = D.value i j := fun hij => if_neg hij
    have hA : D.Agrees E := ⟨fun i j hij => (hne hij).symm, hu.diag_nonneg 0, h0⟩
    refine ⟨E, hA, fun i => ?_, fun k i j => ?_⟩
    · exact (hA.sat_iff.1 hu).diag_nonneg i
    · -- a detour over the reference point to itself is none
      by_cases hik : i = 0 ∧ k = 0
      · rw [hik.1, hik.2, h0, zero_add]
      by_cases hkj : k = 0 ∧ j = 0
      · rw [hkj.1, hkj.2, h0, add_zero]
      by_cases hij : i = 0 ∧ j = 0
      · rw [hij.1, hij.2, h0]
        exact (hA.sat_iff.1 hu).pair_nonneg 0 k
      · rw [hne hik, hne hkj, hne hij]
        exact htri i j k hij
  · rintro ⟨E, hA, hE⟩
    obtain ⟨v, hv⟩ := hE.exists_sat
    refine ⟨exists_contains_iff.2 ⟨v, hA.sat_iff.2 hv⟩, fun i j k hij => ?_⟩
    rw [hA.eq i j hij]
    exact (hE.tri k i j).trans (add_le_add (hA.le i k) (hA.le k j))

/-! ## Incremental closure -/

/-- The matrix with the entry `(i, j)` lowered to the bound. -/
def lowered (D : DBM n) (i j : Fin (n + 1)) (c : Bounds) : DBM n :=
  D.set i j (min (D.value i j) c)

/-- The clock variable for an index: `-1` for the reference point. -/
def clockOf (i : Fin (n + 1)) : ClockVariables := UInt8.ofNat i.val - 1

theorem row_clockOf (hn : n + 1 ≤ 256) (i : Fin (n + 1)) : row n (clockOf i) = i := by
  have hi : i.val < 2 ^ 8 := by have := i.isLt; omega
  unfold row clockOf
  rw [UInt8.sub_add_cancel, UInt8.toNat_ofNat', Nat.mod_eq_of_lt hi]
  exact Fin.ext (Nat.mod_eq_of_lt i.isLt)

/-- Any calls of `tighten`. -/
def tightenAll (D : DBM n) (calls : List (ClockVariables × ClockVariables × Bounds)) : DBM n :=
  calls.foldl (fun D call => D.tighten call.1 call.2.1 call.2.2) D

theorem tightenAll_le (calls : List (ClockVariables × ClockVariables × Bounds)) (D : DBM n)
    (i j : Fin (n + 1)) : (D.tightenAll calls).value i j ≤ D.value i j := by
  unfold tightenAll
  induction calls generalizing D with
  | nil => exact le_rfl
  | cons call calls ih => exact (ih _).trans (tighten_le D _ _ _ i j)

/-- Closing a satisfiable matrix gives the closed one with the same valuations. -/
theorem closed_canonize (hn : n + 1 ≤ 256) {v : Fin (n + 1) → ℚ} (hv : Sat D.value v)
    (hdiag : ∀ i, D.value i i = 0) : Closed D.canonize.value := by
  have hcan : ∀ i, 0 ≤ D.canonize.value i i := (sat_canonize hv).diag_nonneg
  refine ⟨fun i => le_antisymm ((D.canonize_le i i).trans (hdiag i).le) (hcan i), fun k => ?_⟩
  exact closedAt_canonize hcan (mem_lowRows.2 (by omega))

section
variable {i j : Fin (n + 1)} {b : Bounds}

theorem value_lowered (D : DBM n) (i j : Fin (n + 1)) (b : Bounds) :
    (D.lowered i j b).value = lower i j b D.value := rfl

/-- The lowered matrix is satisfiable unless the bound contradicts the opposite entry. -/
theorem exists_contains_lowered_iff (hD : Closed D.value) (hij : i ≠ j) :
    (∃ u, (D.lowered i j b).Contains u) ↔ 0 ≤ b + D.value j i := by
  rw [exists_contains_iff, value_lowered]
  refine ⟨?_, fun h => hD.canonical.exists_sat_lower hij h⟩
  rintro ⟨v, hv⟩
  obtain ⟨hv, hbv⟩ := Difference.sat_lower.1 hv
  exact Bound.exists_holds_iff.1 ⟨_, hbv, by rw [neg_sub]; exact hv j i⟩

theorem tighten_clockOf (hn : n + 1 ≤ 256) (D : DBM n) (i j : Fin (n + 1)) (b : Bounds) :
    D.tighten (clockOf i) (clockOf j) b = close1 j (close1 i (D.lowered i j b)) := by
  unfold tighten
  rw [row_clockOf hn, row_clockOf hn]; rfl

/-- On a satisfiable matrix, two eliminations do. -/
theorem tighten_eq_canonize_of_sat (hn : n + 1 ≤ 256) (hD : Closed D.value) (hij : i ≠ j)
    (hex : ∃ u, (D.lowered i j b).Contains u) :
    D.tighten (clockOf i) (clockOf j) b = (D.lowered i j b).canonize := by
  have hclosed := hD.closed_lower hij ((exists_contains_lowered_iff hD hij).1 hex)
  obtain ⟨v, hv⟩ := exists_contains_iff.1 hex
  have hdiag : ∀ k, (D.lowered i j b).value k k = 0 := by
    intro k
    rw [value_lowered, Difference.lower_of_ne b _ fun e => hij (e.1.symm.trans e.2), hD.diag]
  have hval : (D.tighten (clockOf i) (clockOf j) b).value =
      close j (close i (lower i j b D.value)) := by
    rw [tighten_clockOf hn, value_close1 ((sat_close1 hv).diag_nonneg j),
      value_close1 (hv.diag_nonneg i), value_lowered]
  -- both are closed, with the valuations of the lowered matrix
  refine ext_value (hval.trans ?_) ?_
  · refine hclosed.eq_of_sat_iff (closed_canonize hn hv hdiag) fun w => ?_
    rw [Difference.sat_close, Difference.sat_close, sat_canonize_iff, value_lowered]
  · rw [M_tighten, M_canonize]; rfl

/-- Otherwise the opposite entries contradict each other. -/
theorem unsat_tighten (hn : n + 1 ≤ 256) (hD : Closed D.value) (hij : i ≠ j)
    (hno : ¬ ∃ u, (D.lowered i j b).Contains u) :
    (D.tighten (clockOf i) (clockOf j) b).Unsat := by
  have hneg : b + D.value j i < 0 :=
    not_le.1 fun h => hno ((exists_contains_lowered_iff hD hij).2 h)
  have hb := D.tighten_self_le (clockOf i) (clockOf j) b
  rw [row_clockOf hn, row_clockOf hn] at hb
  exact ⟨i, j, lt_of_le_of_lt (add_le_add hb (D.tighten_le _ _ b j i)) hneg⟩

end

/-- **Incremental closure.** If the lowered matrix is satisfiable, `tighten` is `canonize`, and
otherwise the test fails from then on. -/
theorem tighten_eq_canonize (hn : n + 1 ≤ 256) (D : DBM n) (hD : Closed D.value)
    (i j : Fin (n + 1)) (hij : i ≠ j) (c : ℚ) (s : Bool) :
    ((∃ u, (D.lowered i j (.fin c s)).Contains u) →
      D.tighten (clockOf i) (clockOf j) (.fin c s) = (D.lowered i j (.fin c s)).canonize) ∧
    ((¬ ∃ u, (D.lowered i j (.fin c s)).Contains u) → ∀ calls,
      ((D.tighten (clockOf i) (clockOf j) (.fin c s)).tightenAll calls).isSatisfiable.1 =
        false) := by
  refine ⟨tighten_eq_canonize_of_sat hn hD hij, fun hno calls => ?_⟩
  exact ((unsat_tighten hn hD hij hno).mono (tightenAll_le calls _)).isSatisfiable

theorem closed_zero (n : ℕ) : Closed (DBM.zero n).value := (Zone.zero n).closed

/-- One clock: `x <= 2` leaves the zero zone, and `x < 0` nothing, after any calls. -/
theorem tighten_eq_canonize_zero :
    (DBM.zero 1).tighten 0 255 (.fin 2 true) =
        ((DBM.zero 1).lowered 1 0 (.fin 2 true)).canonize ∧
      ∀ calls, (((DBM.zero 1).tighten 0 255 (.fin 0 false)).tightenAll calls).isSatisfiable.1 =
        false := by
  have h := tighten_eq_canonize (by norm_num) (DBM.zero 1) (closed_zero 1) 1 0 (by decide)
  have hiff := fun b : Bounds =>
    exists_contains_lowered_iff (b := b) (closed_zero 1) (show (1 : Fin 2) ≠ 0 by decide)
  refine ⟨(h 2 true).1 ((hiff _).2 ?_), (h 0 false).2 fun hex => ?_⟩
  · exact Bound.zero_le_iff.2 (show (0 : ℚ) ≤ 2 + 0 by norm_num)
  · have : (0 : ℚ) < 0 + 0 := Bound.zero_le_iff.1 ((hiff _).1 hex)
    norm_num at this

/-! ## Delays and resets -/

/-- The valuations after a positive delay. -/
theorem Canonical.contains_elapse (h : D.Canonical) {u' : Fin n → ℚ} :
    D.elapse.Contains u' ↔ ∃ u, D.Contains u ∧ ∃ t, 0 < t ∧ u' = later t u := by
  obtain ⟨E, hA, hE⟩ := canonical_iff.1 h
  have hsat : ∀ w, Sat D.elapse.value w ↔
      ∃ t, 0 < t ∧ Sat D.value (Function.update w 0 (w 0 + t)) := by
    intro w
    rw [hA.elapse.sat_iff, hE.sat_elapse_iff]
    simp only [hA.sat_iff]
  constructor
  · intro hu'
    obtain ⟨t, ht, hv⟩ := (hsat _).1 hu'
    refine ⟨_, contains_clocks.2 hv, t, ht, ?_⟩
    rw [← clocks_delay, delay_update, clocks_valuation]
  · rintro ⟨u, hu, t, ht, rfl⟩
    rw [← clocks_valuation u, ← clocks_delay, contains_clocks]
    exact (hsat _).2 ⟨t, ht, by rw [update_delay]; exact hu⟩

theorem Canonical.elapse (h : D.Canonical) : D.elapse.Canonical := by
  obtain ⟨E, hA, hE⟩ := canonical_iff.1 h
  exact canonical_iff.2 ⟨_, hA.elapse, hE.elapse⟩

/-- The valuations after resets. -/
theorem Canonical.contains_foldl_reset (h : D.Canonical) {xs : List ClockVariables}
    {u' : Fin n → ℚ} : (xs.foldl DBM.reset D).Contains u' ↔
      ∃ u, D.Contains u ∧ u' = clocks (resetRows xs (valuation u)) := by
  obtain ⟨E, hA, hE⟩ := canonical_iff.1 h
  have hsat : ∀ v, Sat (xs.foldl DBM.reset D).value v ↔
      ∃ w, Sat D.value w ∧ v = resetRows xs w := by
    intro v
    rw [(hA.foldl_reset xs).sat_iff, sat_resetSystem hE hA.zero]
    simp only [hA.sat_iff]
  constructor
  · intro hu'
    obtain ⟨w, hw, he⟩ := (hsat _).1 hu'
    refine ⟨clocks w, contains_clocks.2 hw, ?_⟩
    rw [clocks_resetRows_clocks, ← he, clocks_valuation]
  · rintro ⟨u, hu, rfl⟩
    exact contains_clocks.2 ((hsat _).2 ⟨_, hu, rfl⟩)

theorem Canonical.foldl_reset (h : D.Canonical) (xs : List ClockVariables) :
    (xs.foldl DBM.reset D).Canonical := by
  obtain ⟨E, hA, hE⟩ := canonical_iff.1 h
  exact canonical_iff.2 ⟨_, hA.foldl_reset xs, canonical_resetSystem hE xs⟩

/-- After a guard that can be met, the matrix is canonical again. -/
theorem Canonical.isSatisfiable_foldl_tightenBy (h : D.Canonical) (guard : List Constraint)
    (hsat : (guard.foldl DBM.tightenBy D).isSatisfiable.1 = true) :
    (guard.foldl DBM.tightenBy D).isSatisfiable.2.Canonical := by
  obtain ⟨E, hA, hE⟩ := canonical_iff.1 h
  rcases hA.foldl_tightenBy guard hE with ⟨E', hA', hE', -, -⟩ | ⟨hU, -⟩
  · exact canonical_iff.2 ⟨E', hA'.canonize hE', hE'⟩
  · rw [hU.isSatisfiable] at hsat
    exact absurd hsat Bool.false_ne_true

/-! ## Exactness -/

/-- The values of the clocks after resets. -/
def resetClocks (xs : List ClockVariables) (u : Fin n → ℚ) : Fin n → ℚ :=
  fun x => if ∃ y ∈ xs, y.toNat = x.val then 0 else u x

/-- `elapse` and the resets are exact, and no detour improves an entry of their results. -/
structure OperationsExact (D : DBM n) (xs : List ClockVariables) : Prop where
  elapse : {u | D.elapse.Contains u} = {u' | ∃ u, D.Contains u ∧ ∃ t, 0 < t ∧ u' = later t u}
  elapse_triangle : D.elapse.Triangle
  reset : {u | (xs.foldl DBM.reset D).Contains u} = resetClocks xs '' {u | D.Contains u}
  reset_triangle : (xs.foldl DBM.reset D).Triangle

/-- The clock `255` is not reset, or is always `0`. -/
def ResetHarmless (D : DBM n) (xs : List ClockVariables) : Prop :=
  255 ∈ xs → ∀ u, D.Contains u → ∀ h : 255 < n, u ⟨255, h⟩ = 0

theorem Canonical.operationsExact_iff_harmless (h : D.Canonical) {xs : List ClockVariables}
    (hxs : ∀ x ∈ xs, x.toNat < n) : D.OperationsExact xs ↔ D.ResetHarmless xs := by
  have hset : {u | (xs.foldl DBM.reset D).Contains u} =
      (fun u => clocks (resetRows xs (valuation u))) '' {u | D.Contains u} := by
    ext u'
    rw [Set.mem_ofPred_eq, h.contains_foldl_reset]
    simp only [Set.mem_image, Set.mem_ofPred_eq, eq_comm]
  constructor
  · intro hE h255 u hu hn
    -- the value after the resets is that before them, and `0`
    have hmem : clocks (resetRows xs (valuation u)) ∈ resetClocks xs '' {u | D.Contains u} := by
      rw [← hE.reset, hset]
      exact ⟨u, hu, rfl⟩
    obtain ⟨u₁, -, he⟩ := hmem
    have hx := congrFun he ⟨255, hn⟩
    have hno : ¬ ∃ y ∈ xs, y ≠ 255 ∧ y.toNat = 255 := by
      rintro ⟨y, -, hy, hy255⟩
      exact hy (UInt8.toNat_inj.1 hy255)
    rw [clocks_resetRows hxs, if_neg hno, resetClocks, if_pos ⟨255, h255, rfl⟩] at hx
    exact hx.symm
  · intro hH
    refine ⟨Set.ext fun u' => h.contains_elapse, h.elapse.triangle, ?_,
      (h.foldl_reset xs).triangle⟩
    rw [hset]
    refine Set.image_congr fun u hu => funext fun x => ?_
    rw [clocks_resetRows hxs, resetClocks]
    by_cases hy : ∃ y ∈ xs, y ≠ 255 ∧ y.toNat = x.val
    · obtain ⟨y, hys, hne, hyx⟩ := hy
      rw [if_pos ⟨y, hys, hne, hyx⟩, if_pos ⟨y, hys, hyx⟩]
    · rw [if_neg hy]
      split_ifs with hy'
      · -- only the clock `255` can be left
        obtain ⟨y, hys, hyx⟩ := hy'
        obtain rfl : y = 255 := by_contra fun hne => hy ⟨y, hys, hne, hyx⟩
        have hn : 255 < n := lt_of_eq_of_lt hyx x.isLt
        rw [show x = ⟨255, hn⟩ from Fin.ext hyx.symm]
        exact hH hys u hu hn
      · rfl

theorem canonical_zero (n : ℕ) : (DBM.zero n).Canonical :=
  canonical_iff.2 ⟨_, (represents_zero (.fin 0 false)).agrees, (Zone.zero n).closed.canonical⟩

/-- All clocks have the same positive value. -/
theorem canonical_elapse_zero (n : ℕ) : (DBM.zero n).elapse.Canonical := (canonical_zero n).elapse

theorem contains_elapse_zero (n : ℕ) : (DBM.zero n).elapse.Contains fun _ => 1 := by
  have hA := (represents_zero (n := n) (.fin 0 false)).agrees
  refine (canonical_zero n).contains_elapse.2 ⟨fun _ => 0, hA.sat_iff.2 ?_, 1, one_pos, ?_⟩
  · exact Zone.sat_zero.2 fun i => Fin.cases rfl (fun _ => rfl) i
  · funext x
    exact (zero_add 1).symm

/-- The reset of the clock `255` leaves it positive. -/
theorem not_operationsExact_elapse_zero (hn : 255 < n) :
    ¬ (DBM.zero n).elapse.OperationsExact [255] := by
  have hxs : ∀ x ∈ [(255 : ClockVariables)], x.toNat < n := by
    intro x hx
    rw [List.mem_singleton.1 hx]; exact hn
  rw [(canonical_elapse_zero n).operationsExact_iff_harmless hxs]
  intro hH
  exact one_ne_zero (hH (List.mem_singleton_self _) _ (contains_elapse_zero n) hn)

/-- **Delays and resets** of canonical matrices are exact iff the clock `255` is not reset, or
is always `0`; a guard that can be met gives a canonical matrix again; and they are exact for
all matrices over `n` clocks iff `n` is at most `255`. -/
theorem operationsExact_iff (n : ℕ) :
    (∀ D : DBM n, D.Canonical → ∀ xs : List ClockVariables, (∀ x ∈ xs, x.toNat < n) →
      (D.OperationsExact xs ↔ D.ResetHarmless xs)) ∧
    (∀ D : DBM n, D.Canonical → ∀ guard : List Constraint,
      (guard.foldl DBM.tightenBy D.elapse).isSatisfiable.1 = true →
      (guard.foldl DBM.tightenBy D.elapse).isSatisfiable.2.Canonical) ∧
    ((∀ D : DBM n, D.Canonical → ∀ xs : List ClockVariables, (∀ x ∈ xs, x.toNat < n) →
      D.OperationsExact xs) ↔ n ≤ 255) := by
  refine ⟨fun D hD xs hxs => hD.operationsExact_iff_harmless hxs,
    fun D hD guard => hD.elapse.isSatisfiable_foldl_tightenBy guard, fun hall => ?_,
    fun hn D hD xs hxs => (hD.operationsExact_iff_harmless hxs).2 fun _ _ _ h => ?_⟩
  · by_contra hn
    have hn := not_le.1 hn
    refine not_operationsExact_elapse_zero hn (hall _ (canonical_elapse_zero n) _ fun x hx => ?_)
    rw [List.mem_singleton.1 hx]; exact hn
  · exact absurd hn (not_le.2 h)

/-- One clock, positive after a delay, and reset. -/
theorem operationsExact_iff_elapse_zero : (DBM.zero 1).elapse.OperationsExact [0] := by
  have h := (operationsExact_iff 1).1 _ (canonical_elapse_zero 1) [0] (by simp)
  exact h.2 fun h255 => absurd (List.mem_singleton.1 h255) (by decide)

/-- For 256 clocks, all positive after a delay, the reset of the clock `255` is not exact. -/
theorem reset_255_inexact : (DBM.zero 256).elapse.Canonical ∧ (255 : ClockVariables).toNat < 256 ∧
    ¬ (DBM.zero 256).elapse.OperationsExact [255] :=
  ⟨canonical_elapse_zero 256, by decide, not_operationsExact_elapse_zero (by norm_num)⟩

end DBM

end MooreFilter

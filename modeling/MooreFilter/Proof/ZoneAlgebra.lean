/-
  Intersections of zones, zones over fewer clocks, and widened guards.

  * `Canonical.isLeast`: the entries of a canonical matrix are the tightest bounds, so
    that canonical matrices with the same valuations have the same bounds
    (`Canonical.sameBounds`);
  * `contains_inter`, `canonical_inter`: `operator&=` gives the canonical matrix with
    the common valuations, for at most 256 rows (`inter_exact`);
  * `contains_constraintsToDBM`: the matrix of a guard;
  * `inter_laws`: so intersection is associative, and guards can be taken apart and
    written in any order;
  * `cutVars_exact`: `cutVars` projects the valuations to some of the clocks;
  * `widen_exact`: a widened guard is met below the valuations that meet the guard.
-/
import MooreFilter.Proof.Canonical

namespace MooreFilter

open Difference (Sat)

variable {n : ℕ}

namespace DBM
variable {D z : DBM n}

/-! ## The tightest bounds -/

/-- The same entries, but for the diagonal. -/
def SameBounds (D D' : DBM n) : Prop := ∀ i j, i ≠ j → D.value i j = D'.value i j

theorem Canonical.isLeast (h : D.Canonical) {i j : Fin (n + 1)} (hij : i ≠ j) :
    IsLeast {b : Bounds | ∀ u, D.Contains u → b.Holds (valuation u i - valuation u j)}
      (D.value i j) := by
  obtain ⟨E, hA, hE⟩ := canonical_iff.1 h
  refine ⟨fun u hu => hu i j, fun b hb => ?_⟩
  have hle : Difference.zeroDiag E i j ≤ b := hE.closed_zeroDiag.le_of_forall hij fun v hv =>
    holds_of_contains hb (hA.sat_iff.2 ((Difference.sat_zeroDiag hE.diag_nonneg).1 hv))
  rw [Difference.zeroDiag_of_ne E hij] at hle
  rwa [hA.eq i j fun e => hij (e.1.trans e.2.symm)]

/-- The valuations determine the bounds. -/
theorem Canonical.sameBounds {D' : DBM n} (h : D.Canonical) (h' : D'.Canonical)
    (hiff : ∀ u, D.Contains u ↔ D'.Contains u) : D.SameBounds D' := by
  intro i j hij
  have hleast := h.isLeast hij
  simp only [hiff] at hleast
  exact hleast.unique (h'.isLeast hij)

/-! ## Intersections -/

theorem contains_inter {u : Fin n → ℚ} :
    (D.inter z).Contains u ↔ D.Contains u ∧ z.Contains u := by
  refine sat_canonize_iff.trans ?_
  constructor
  · intro h
    exact ⟨fun i j => (Bound.holds_min.1 (h i j)).1, fun i j => (Bound.holds_min.1 (h i j)).2⟩
  · rintro ⟨hD, hz⟩ i j
    exact Bound.holds_min.2 ⟨hD i j, hz i j⟩

theorem canonical_canonize (hn : n ≤ 255) (h : ∃ u, D.Contains u) : D.canonize.Canonical := by
  obtain ⟨u, hu⟩ := h
  have hc : D.canonize.Contains u := sat_canonize hu
  refine ⟨⟨u, hc⟩, fun i j k _ => ?_⟩
  exact closedAt_canonize (fun i => hc.diag_nonneg i) (mem_lowRows.2 (by omega)) i j

theorem canonical_inter (hn : n ≤ 255) (h : ∃ u, D.Contains u ∧ z.Contains u) :
    (D.inter z).Canonical := by
  obtain ⟨u, hu⟩ := h
  have hsat : (D.inter z).Contains u := contains_inter.2 hu
  exact canonical_canonize hn ⟨u, sat_canonize_iff.1 hsat⟩

/-! ## Guards -/

/-- The matrix that `constraintsToDBM` starts from. -/
def nonnegative (n : ℕ) : DBM n := constraintsToDBM n []

theorem canonical_value_nonnegative (n : ℕ) : Difference.Canonical (nonnegative n).value := by
  have hval : ∀ i j, (nonnegative n).value i j =
      if i = 0 then .fin 0 true else if i = j then .fin 0 true else .inf := fun _ _ => rfl
  refine ⟨fun i => ?_, fun k i j => ?_⟩
  · rw [hval, if_pos rfl, ite_self]; exact le_refl (0 : Bounds)
  · simp only [hval]
    rcases eq_or_ne i 0 with rfl | hi
    · rcases eq_or_ne k 0 with rfl | hk
      · simp only [if_true]; exact (zero_add (0 : Bounds)).ge
      · simp only [if_true, if_neg hk]
        split_ifs
        · exact (zero_add (0 : Bounds)).ge
        · rw [Bound.add_inf]; exact Bound.le_inf _
    · simp only [if_neg hi]
      rcases eq_or_ne i k with rfl | hik
      · simp only [if_true, if_neg hi]
        exact (zero_add _).ge
      · rw [if_neg hik, Bound.inf_add]; exact Bound.le_inf _

theorem agrees_nonnegative (n : ℕ) : (nonnegative n).Agrees (nonnegative n).value :=
  ⟨fun _ _ _ => rfl, le_rfl, rfl⟩

theorem contains_nonnegative {u : Fin n → ℚ} : (nonnegative n).Contains u ↔ ∀ x, 0 ≤ u x := by
  constructor
  · intro h x
    have h0 : valuation u 0 - valuation u x.succ ≤ 0 := h 0 x.succ
    rw [valuation_zero, valuation_succ] at h0
    linarith
  · intro h i j
    change Bound.Holds (if i = 0 then .fin 0 true else if i = j then .fin 0 true else .inf) _
    split_ifs with hi hij
    · subst hi
      have hj : 0 ≤ valuation u j := Fin.cases le_rfl h j
      change valuation u 0 - valuation u j ≤ 0
      rw [valuation_zero]; linarith
    · subst hij; exact (sub_self _).le
    · trivial

theorem cutTo_constraintsToDBM (n : ℕ) (guard : List Constraint) :
    (constraintsToDBM n guard).CutTo (nonnegative n).value fun v => ∀ g ∈ guard, g.HoldsAt v :=
  (agrees_nonnegative n).foldl_tightenBy guard (canonical_value_nonnegative n)

/-- The matrix of a guard has the valuations that satisfy it. -/
theorem contains_constraintsToDBM {guard : List Constraint} {u : Fin n → ℚ} :
    (constraintsToDBM n guard).Contains u ↔
      (∀ x, 0 ≤ u x) ∧ ∀ g ∈ guard, g.HoldsAt (valuation u) := by
  rw [← contains_nonnegative]
  rcases cutTo_constraintsToDBM n guard with ⟨E, hA, -, -, hE⟩ | ⟨hU, hnone⟩
  · exact hA.sat_iff.trans (hE _)
  · constructor
    · intro hu
      have hsat := isSatisfiable_of_sat hu
      rw [hU.isSatisfiable] at hsat
      exact absurd hsat Bool.false_ne_true
    · rintro ⟨hu, hg⟩
      exact absurd hg (hnone _ hu)

theorem canonical_constraintsToDBM {guard : List Constraint}
    (h : ∃ u, (constraintsToDBM n guard).Contains u) : (constraintsToDBM n guard).Canonical := by
  rcases cutTo_constraintsToDBM n guard with ⟨E, hA, hE, -⟩ | ⟨hU, -⟩
  · exact canonical_iff.2 ⟨E, hA, hE⟩
  · obtain ⟨u, hu⟩ := h
    have hsat := isSatisfiable_of_sat hu
    rw [hU.isSatisfiable] at hsat
    exact absurd hsat Bool.false_ne_true

/-! ## The laws of intersection -/

theorem isSatisfiable_iff (hn : n ≤ 255) : D.isSatisfiable.1 = true ↔ ∃ u, D.Contains u :=
  (lowRowsSuffice_of_le hn D).canonizeExact.isSatisfiable_iff

/-- Guards with the same valuations have the same matrix, or both have none. -/
theorem constraintsToDBM_congr {guard guard' : List Constraint}
    (h : ∀ v : Fin (n + 1) → ℚ, (∀ g ∈ guard, g.HoldsAt v) ↔ ∀ g ∈ guard', g.HoldsAt v)
    (hex : ∃ u, (constraintsToDBM n guard).Contains u) :
    (constraintsToDBM n guard).SameBounds (constraintsToDBM n guard') := by
  have hiff : ∀ u, (constraintsToDBM n guard).Contains u ↔
      (constraintsToDBM n guard').Contains u := fun u => by
    rw [contains_constraintsToDBM, contains_constraintsToDBM, h]
  refine (canonical_constraintsToDBM hex).sameBounds (canonical_constraintsToDBM ?_) hiff
  exact hex.imp fun u hu => (hiff u).1 hu

theorem contains_constraintsToDBM_append {guard guard' : List Constraint} {u : Fin n → ℚ} :
    (constraintsToDBM n (guard ++ guard')).Contains u ↔
      (constraintsToDBM n guard).Contains u ∧ (constraintsToDBM n guard').Contains u := by
  simp only [contains_constraintsToDBM, List.forall_mem_append]
  exact ⟨fun h => ⟨⟨h.1, h.2.1⟩, h.1, h.2.2⟩, fun h => ⟨h.1.1, h.1.2, h.2.2⟩⟩

/-- **Intersection.** For at most 256 rows `operator&=` gives the canonical matrix with the
    common valuations, if there are any, and otherwise one that is found to be empty. -/
theorem inter_exact (hn : n ≤ 255) (D z : DBM n) :
    (∀ u, (D.inter z).Contains u ↔ D.Contains u ∧ z.Contains u) ∧
      ((D.inter z).isSatisfiable.1 = true ↔ ∃ u, D.Contains u ∧ z.Contains u) ∧
      ((∃ u, D.Contains u ∧ z.Contains u) → (D.inter z).Canonical ∧
        ∀ E : DBM n, E.Canonical → (∀ u, E.Contains u ↔ D.Contains u ∧ z.Contains u) →
          E.SameBounds (D.inter z)) := by
  refine ⟨fun u => contains_inter, ?_, fun h => ⟨canonical_inter hn h, fun E hE hiff => ?_⟩⟩
  · rw [(lowRowsSuffice_of_le hn (D.inter z)).canonizeExact.isSatisfiable_iff]
    simp only [contains_inter]
  · exact hE.sameBounds (canonical_inter hn h) fun u => (hiff u).trans contains_inter.symm

/-- One clock: `x <= 2`, and `x > 3`. -/
theorem inter_exact_guards :
    ¬ ((constraintsToDBM 1 [⟨0, .le, 2⟩]).inter
      (constraintsToDBM 1 [⟨0, .gt, 3⟩])).isSatisfiable.1 = true := by
  rw [(inter_exact (by norm_num) (constraintsToDBM 1 [⟨0, .le, 2⟩])
    (constraintsToDBM 1 [⟨0, .gt, 3⟩])).2.1]
  rintro ⟨u, hle, hgt⟩
  have hle := (contains_constraintsToDBM.1 hle).2 _ (List.mem_singleton_self _)
  have hgt := (contains_constraintsToDBM.1 hgt).2 _ (List.mem_singleton_self _)
  rw [Constraint.holdsAt_iff (by decide)] at hle hgt
  simp only [Constraint.satisfy, decide_eq_true_eq] at hle hgt
  have h23 := hgt.trans_le hle
  exact absurd (Int.cast_lt.1 h23) (by decide)

/-- **The laws.** Intersection is associative, and one with a larger set changes nothing;
    the zone of a guard is the intersection of the zones of its parts, and does not depend
    on the order of the constraints, nor does it whether there is one. -/
theorem inter_laws (hn : n ≤ 255) :
    (∀ D z w : DBM n, (∃ u, D.Contains u ∧ z.Contains u ∧ w.Contains u) →
      ((D.inter z).inter w).SameBounds (D.inter (z.inter w))) ∧
    (∀ D z : DBM n, D.Canonical → (∀ u, D.Contains u → z.Contains u) →
      (D.inter z).SameBounds D) ∧
    (∀ g g' : List Constraint,
      (constraintsToDBM n (g ++ g')).isSatisfiable.1 =
          ((constraintsToDBM n g).inter (constraintsToDBM n g')).isSatisfiable.1 ∧
        ((constraintsToDBM n (g ++ g')).isSatisfiable.1 = true →
          (constraintsToDBM n (g ++ g')).SameBounds
            ((constraintsToDBM n g).inter (constraintsToDBM n g')))) ∧
    ∀ g g' : List Constraint, (∀ c, c ∈ g ↔ c ∈ g') →
      (constraintsToDBM n g).isSatisfiable.1 = (constraintsToDBM n g').isSatisfiable.1 ∧
        ((constraintsToDBM n g).isSatisfiable.1 = true →
          (constraintsToDBM n g).SameBounds (constraintsToDBM n g')) := by
  refine ⟨fun D z w h => ?_, fun D z hD hz => ?_, fun g g' => ⟨?_, fun h => ?_⟩,
    fun g g' hg => ⟨?_, fun h => ?_⟩⟩
  · obtain ⟨u, hu, hz, hw⟩ := h
    refine (canonical_inter hn ⟨u, contains_inter.2 ⟨hu, hz⟩, hw⟩).sameBounds
      (canonical_inter hn ⟨u, hu, contains_inter.2 ⟨hz, hw⟩⟩) fun u => ?_
    simp only [contains_inter, and_assoc]
  · have hiff : ∀ u, (D.inter z).Contains u ↔ D.Contains u := fun u =>
      contains_inter.trans ⟨And.left, fun hu => ⟨hu, hz u hu⟩⟩
    obtain ⟨u, hu⟩ := hD.satisfiable
    exact (canonical_inter hn ⟨u, hu, hz u hu⟩).sameBounds hD hiff
  · refine Bool.eq_iff_iff.2 ?_
    rw [isSatisfiable_iff hn, isSatisfiable_iff hn]
    exact exists_congr fun u => contains_constraintsToDBM_append.trans contains_inter.symm
  · have hex := (isSatisfiable_iff hn).1 h
    refine (canonical_constraintsToDBM hex).sameBounds (canonical_inter hn ?_) fun u =>
      contains_constraintsToDBM_append.trans contains_inter.symm
    exact hex.imp fun u hu => contains_constraintsToDBM_append.1 hu
  · refine Bool.eq_iff_iff.2 ?_
    rw [isSatisfiable_iff hn, isSatisfiable_iff hn]
    simp only [contains_constraintsToDBM, hg]
  · refine constraintsToDBM_congr (fun v => forall_congr' fun c => ?_) ((isSatisfiable_iff hn).1 h)
    rw [hg]

/-- `x <= 2` and `x > 1`, in the two orders. -/
theorem inter_laws_guards :
    (constraintsToDBM 1 [⟨0, .le, 2⟩, ⟨0, .gt, 1⟩]).SameBounds
      (constraintsToDBM 1 [⟨0, .gt, 1⟩, ⟨0, .le, 2⟩]) :=
  ((inter_laws (n := 1) (by norm_num)).2.2.2 _ _ fun c => by simp [or_comm]).2 (by decide +kernel)

/-! ## Fewer clocks -/

section
variable {fromVar toVar : ℕ}

theorem cutIndex_zero {k : ℕ} : cutIndex n fromVar (0 : Fin (k + 1)) = 0 := if_pos rfl

theorem val_cutIndex (hle : fromVar ≤ toVar) (hto : toVar < n) {i : Fin (toVar - fromVar + 1 + 1)}
    (hi : i ≠ 0) : (cutIndex n fromVar i).val = fromVar + i.val := by
  unfold cutIndex
  rw [if_neg hi, Fin.val_ofNat]
  exact Nat.mod_eq_of_lt (by have := i.isLt; omega)

theorem cutIndex_ne_zero (hle : fromVar ≤ toVar) (hto : toVar < n)
    {i : Fin (toVar - fromVar + 1 + 1)} (hi : i ≠ 0) : cutIndex n fromVar i ≠ 0 := by
  intro he
  have hval := val_cutIndex hle hto hi
  rw [he, Fin.val_zero] at hval
  exact hi (Fin.ext (by rw [Fin.val_zero]; omega))

theorem cutIndex_eq_zero_iff (hle : fromVar ≤ toVar) (hto : toVar < n)
    {i : Fin (toVar - fromVar + 1 + 1)} : cutIndex n fromVar i = 0 ↔ i = 0 :=
  ⟨fun he => by_contra fun hi => cutIndex_ne_zero hle hto hi he, fun he => he ▸ cutIndex_zero⟩

theorem cutIndex_injective (hle : fromVar ≤ toVar) (hto : toVar < n) :
    Function.Injective (cutIndex n fromVar : Fin (toVar - fromVar + 1 + 1) → Fin (n + 1)) := by
  intro i j he
  rcases eq_or_ne i 0 with rfl | hi <;> rcases eq_or_ne j 0 with rfl | hj
  · rfl
  · exact absurd (he.symm.trans cutIndex_zero) (cutIndex_ne_zero hle hto hj)
  · exact absurd (he.trans cutIndex_zero) (cutIndex_ne_zero hle hto hi)
  · have hval := congrArg Fin.val he
    rw [val_cutIndex hle hto hi, val_cutIndex hle hto hj] at hval
    exact Fin.ext (by omega)

theorem cutIndex_succ (hle : fromVar ≤ toVar) (hto : toVar < n) (x : Fin (toVar - fromVar + 1)) :
    ∃ hx : fromVar + x.val < n,
      cutIndex n fromVar x.succ = (⟨fromVar + x.val, hx⟩ : Fin n).succ := by
  have hx : fromVar + x.val < n := by have := x.isLt; omega
  refine ⟨hx, Fin.ext ?_⟩
  rw [val_cutIndex hle hto (Fin.succ_ne_zero x), Fin.val_succ, Fin.val_succ]
  exact (Nat.add_assoc _ _ _).symm

/-- The rows that are copied are a canonical system again. -/
theorem Agrees.cutVars {E : Fin (n + 1) → Fin (n + 1) → Bounds} (h : D.Agrees E)
    (hle : fromVar ≤ toVar) (hto : toVar < n) : (D.cutVars fromVar toVar).Agrees fun i j =>
      E (cutIndex n fromVar i) (cutIndex n fromVar j) := by
  refine ⟨fun i j hij => ?_, le_rfl, ?_⟩
  · unfold DBM.cutVars
    dsimp only
    rw [if_neg hij]
    refine h.eq _ _ fun e => hij ?_
    exact ⟨(cutIndex_eq_zero_iff hle hto).1 e.1, (cutIndex_eq_zero_iff hle hto).1 e.2⟩
  · rw [cutIndex_zero, h.zero]

/-- **Projection.** The valuations are those of the clocks that are kept. -/
theorem Canonical.contains_cutVars (h : D.Canonical) (hle : fromVar ≤ toVar) (hto : toVar < n)
    {u' : Fin (toVar - fromVar + 1) → ℚ} : (D.cutVars fromVar toVar).Contains u' ↔
      ∃ u, D.Contains u ∧ ∀ x (hx : fromVar + x.val < n), u' x = u ⟨fromVar + x.val, hx⟩ := by
  obtain ⟨E, hA, hE⟩ := canonical_iff.1 h
  refine (hA.cutVars hle hto).sat_iff.trans ?_
  rw [hE.sat_restrict_iff (cutIndex_injective hle hto)]
  constructor
  · rintro ⟨w, hw, he⟩
    refine ⟨clocks w, contains_clocks.2 (hA.sat_iff.2 hw), fun x hx => ?_⟩
    have h0 : 0 = w 0 := by have := he 0; rwa [cutIndex_zero, valuation_zero] at this
    obtain ⟨_, hcut⟩ := cutIndex_succ hle hto x
    have hx' := he x.succ
    rw [valuation_succ, hcut] at hx'
    rw [hx', clocks, ← h0, sub_zero]
  · rintro ⟨u, hu, he⟩
    refine ⟨valuation u, hA.sat_iff.1 hu, Fin.cases ?_ fun x => ?_⟩
    · rw [cutIndex_zero]; rfl
    · obtain ⟨hx, hcut⟩ := cutIndex_succ hle hto x
      rw [hcut, valuation_succ, valuation_succ, he x hx]

theorem Canonical.cutVars (h : D.Canonical) (hle : fromVar ≤ toVar) (hto : toVar < n) :
    (D.cutVars fromVar toVar).Canonical := by
  obtain ⟨E, hA, hE⟩ := canonical_iff.1 h
  exact canonical_iff.2 ⟨_, hA.cutVars hle hto, hE.comap _⟩

/-! ### The methods on the rows that are kept -/

theorem value_elapse (D : DBM n) (i j : Fin (n + 1)) : D.elapse.value i j =
    if i = 0 then (if j = 0 then .inf else D.value i j).strict
    else if j = 0 then .inf else D.value i j := rfl

/-- Time elapses for the clocks that are kept as for all. -/
theorem cutVars_elapse (hle : fromVar ≤ toVar) (hto : toVar < n) (D : DBM n) :
    (D.elapse.cutVars fromVar toVar).beq (D.cutVars fromVar toVar).elapse = true := by
  refine decide_eq_true fun i j hij => ?_
  rw [value_elapse]
  unfold DBM.cutVars
  dsimp only
  rw [if_neg hij, value_elapse]
  simp only [cutIndex_eq_zero_iff hle hto, if_neg hij]

/-- The entries after a reset. -/
theorem value_reset {x : ClockVariables} (hx : row n x ≠ 0) (D : DBM n) (i j : Fin (n + 1)) :
    (D.reset x).value i j =
      if i = row n x then if j = 0 ∨ j = row n x then .fin 0 true else D.value 0 j
      else if j = row n x then if i = 0 then .fin 0 true else D.value i 0
      else D.value i j := by
  unfold DBM.reset DBM.set
  dsimp only
  rcases eq_or_ne i (row n x) with rfl | hi
  · rcases eq_or_ne j 0 with rfl | hj
    · simp [hx, hx.symm]
    · rcases eq_or_ne j (row n x) with rfl | hjx
      · simp [hx, hx.symm]
      · simp [hj, hjx, hx.symm]
  · rcases eq_or_ne j (row n x) with rfl | hjx
    · rcases eq_or_ne i 0 with rfl | hi0
      · simp [hi, hx]
      · simp [hi, hi0, hx.symm]
    · simp [hi, hjx]

/-- The clock is one of those that are kept. -/
theorem cutIndex_eq_row_iff (hle : fromVar ≤ toVar) (hto : toVar < n) {x : ClockVariables}
    (hx : HasRow n x) {i : Fin (toVar - fromVar + 1 + 1)} :
    cutIndex n fromVar i = row n x ↔ i ≠ 0 ∧ fromVar + i.val = x.toNat + 1 := by
  rcases eq_or_ne i 0 with rfl | hi
  · rw [cutIndex_zero]
    exact ⟨fun he => absurd he.symm hx.row_ne_zero, fun h => absurd rfl h.1⟩
  · rw [Fin.ext_iff, val_cutIndex hle hto hi, hx.val_row]
    exact ⟨fun h => ⟨hi, h⟩, And.right⟩

theorem cutVars_reset_of_notMem (hle : fromVar ≤ toVar) (hto : toVar < n) {x : ClockVariables}
    (hx : HasRow n x) (hno : ¬ (fromVar ≤ x.toNat ∧ x.toNat ≤ toVar)) (D : DBM n) :
    (D.reset x).cutVars fromVar toVar = D.cutVars fromVar toVar := by
  have hne : ∀ i : Fin (toVar - fromVar + 1 + 1), cutIndex n fromVar i ≠ row n x := by
    intro i he
    obtain ⟨hi, he⟩ := (cutIndex_eq_row_iff hle hto hx).1 he
    have hpos : 0 < i.val := Nat.pos_of_ne_zero fun h => hi (Fin.ext h)
    have hlt := i.isLt
    exact hno ⟨by omega, by omega⟩
  refine ext_value (funext fun i => funext fun j => ?_) rfl
  unfold DBM.cutVars
  dsimp only
  rw [value_reset hx.row_ne_zero, if_neg (hne i), if_neg (hne j)]

/-- A clock that is kept has a row among those that are. -/
theorem hasRow_sub {x : ClockVariables} (hfrom : fromVar ≤ x.toNat) (hxto : x.toNat ≤ toVar)
    (hx : x ≠ 255) :
    (x - UInt8.ofNat fromVar).toNat = x.toNat - fromVar ∧
      HasRow (toVar - fromVar + 1) (x - UInt8.ofNat fromVar) := by
  have hlt := x.toNat_lt
  have hfrom' : (UInt8.ofNat fromVar).toNat = fromVar := by
    rw [UInt8.toNat_ofNat']
    exact Nat.mod_eq_of_lt (by omega)
  have hle : UInt8.ofNat fromVar ≤ x := by rw [UInt8.le_iff_toNat_le, hfrom']; exact hfrom
  have hsub : (x - UInt8.ofNat fromVar).toNat = x.toNat - fromVar := by
    rw [UInt8.toNat_sub_of_le _ _ hle, hfrom']
  refine ⟨hsub, by omega, fun he => hx (UInt8.toNat_inj.1 ?_)⟩
  rw [he] at hsub
  have h255 : (255 : ClockVariables).toNat = 255 := rfl
  omega

theorem cutVars_reset_of_mem (hle : fromVar ≤ toVar) (hto : toVar < n) {x : ClockVariables}
    (hx : HasRow n x) (hfrom : fromVar ≤ x.toNat) (hxto : x.toNat ≤ toVar) (D : DBM n) :
    (D.reset x).cutVars fromVar toVar =
      (D.cutVars fromVar toVar).reset (x - UInt8.ofNat fromVar) := by
  obtain ⟨hsub, hy⟩ := hasRow_sub hfrom hxto hx.2
  have hiff : ∀ i : Fin (toVar - fromVar + 1 + 1),
      cutIndex n fromVar i = row n x ↔ i = row _ (x - UInt8.ofNat fromVar) := by
    intro i
    rw [cutIndex_eq_row_iff hle hto hx, Fin.ext_iff, hy.val_row, hsub]
    constructor
    · rintro ⟨-, he⟩
      omega
    · intro he
      exact ⟨fun hi => by rw [hi, Fin.val_zero] at he; omega, by omega⟩
  have hy0 := hy.row_ne_zero
  refine ext_value (funext fun i => funext fun j => ?_) rfl
  rw [value_reset hy0]
  unfold DBM.cutVars
  dsimp only
  rw [value_reset hx.row_ne_zero]
  simp only [hiff, cutIndex_eq_zero_iff hle hto]
  rcases eq_or_ne i (row _ (x - UInt8.ofNat fromVar)) with rfl | hi
  · rw [if_neg fun e => hy0 e.1, if_pos rfl, if_pos rfl]
    by_cases hj : j = 0 ∨ j = row _ (x - UInt8.ofNat fromVar)
    · rw [if_pos hj, if_pos hj]
    · rw [if_neg hj, if_neg hj, if_neg fun e => hj (Or.inl e.2), cutIndex_zero]
  · rw [if_neg hi, if_neg hi]
    rcases eq_or_ne j (row _ (x - UInt8.ofNat fromVar)) with rfl | hj
    · rw [if_neg fun e => hy0 e.2, if_pos rfl, if_pos rfl]
      by_cases hi0 : i = 0
      · rw [if_pos hi0, if_pos hi0]
      · rw [if_neg hi0, if_neg hi0, if_neg fun e => hi0 e.1, cutIndex_zero]
    · rw [if_neg hj, if_neg hj]

end

/-- **Fewer clocks.** From a canonical matrix, `cutVars` gives a canonical one with the
    valuations of the clocks that are kept; delays, and resets of these clocks, can be made
    before or after, and the resets of the others make no difference. -/
theorem cutVars_exact (D : DBM n) (hD : D.Canonical) (fromVar toVar : ℕ) (hle : fromVar ≤ toVar)
    (hto : toVar < n) :
    (D.cutVars fromVar toVar).Canonical ∧
      (∀ u', (D.cutVars fromVar toVar).Contains u' ↔
        ∃ u, D.Contains u ∧ ∀ x (hx : fromVar + x.val < n), u' x = u ⟨fromVar + x.val, hx⟩) ∧
      (D.elapse.cutVars fromVar toVar).beq (D.cutVars fromVar toVar).elapse = true ∧
      ∀ x : ClockVariables, x.toNat < n → x ≠ 255 →
        (D.reset x).cutVars fromVar toVar =
          if fromVar ≤ x.toNat ∧ x.toNat ≤ toVar then
            (D.cutVars fromVar toVar).reset (x - UInt8.ofNat fromVar)
          else D.cutVars fromVar toVar := by
  refine ⟨hD.cutVars hle hto, fun u' => hD.contains_cutVars hle hto, cutVars_elapse hle hto D,
    fun x hx hx255 => ?_⟩
  split_ifs with hmem
  · exact cutVars_reset_of_mem hle hto ⟨hx, hx255⟩ hmem.1 hmem.2 D
  · exact cutVars_reset_of_notMem hle hto ⟨hx, hx255⟩ hmem D

/-- The second of two clocks, after a delay. -/
theorem cutVars_exact_elapse_zero :
    ((DBM.zero 2).elapse.cutVars 1 1).Canonical ∧
      ((DBM.zero 2).elapse.reset 0).cutVars 1 1 = (DBM.zero 2).elapse.cutVars 1 1 := by
  have h := cutVars_exact (DBM.zero 2).elapse (canonical_elapse_zero 2) 1 1 le_rfl (by norm_num)
  exact ⟨h.1, (h.2.2.2 0 (by decide) (by decide)).trans (if_neg (by decide))⟩

end DBM

/-! ## Upper bounds -/

namespace Constraint
variable {g : Constraint} {a b : ℚ}

/-- An upper bound on the clock. -/
def IsUpper (g : Constraint) : Prop := g.odr = .lt ∨ g.odr = .le

/-- The test of an upper bound is that of the constraint. -/
theorem IsUpper.tested_eq_satisfy (h : g.IsUpper) : g.tested = g.satisfy :=
  Constraint.tested_eq_satisfy fun ho => by
    obtain ⟨x, o, c⟩ := g
    rcases h with h | h <;> rcases ho.1 with ho | ho <;> exact absurd (h.symm.trans ho) (by decide)

/-- Smaller values meet an upper bound. -/
theorem IsUpper.satisfy_of_le (h : g.IsUpper) (hab : a ≤ b) (hb : g.satisfy b = true) :
    g.satisfy a = true := by
  obtain ⟨x, o, c⟩ := g
  rcases h with h | h <;> dsimp only at h <;> subst h <;>
    simp only [satisfy, decide_eq_true_eq] at hb ⊢
  · exact hab.trans_lt hb
  · exact hab.trans hb

/-- Larger values meet a lower bound. -/
theorem satisfy_of_ge (h : ¬ g.IsUpper) (hab : a ≤ b) (ha : g.satisfy a = true) :
    g.satisfy b = true := by
  obtain ⟨x, o, c⟩ := g
  cases o
  case lt => exact absurd (Or.inl rfl) h
  case le => exact absurd (Or.inr rfl) h
  case gt =>
    simp only [satisfy, decide_eq_true_eq] at ha ⊢
    exact lt_of_lt_of_le ha hab
  case ge =>
    simp only [satisfy, decide_eq_true_eq] at ha ⊢
    exact le_trans ha hab

/-- And its test. -/
theorem tested_of_ge (h : ¬ g.IsUpper) (hab : a ≤ b) (ha : g.tested a = true) :
    g.tested b = true := by
  obtain ⟨x, o, c⟩ := g
  cases o
  case lt => exact absurd (Or.inl rfl) h
  case le => exact absurd (Or.inr rfl) h
  case gt =>
    simp only [tested, decide_eq_true_eq] at ha ⊢
    exact lt_of_le_of_lt (neg_le_neg hab) ha
  case ge =>
    simp only [tested, decide_eq_true_eq] at ha ⊢
    exact le_trans (neg_le_neg hab) ha

theorem exists_satisfy (h : ¬ g.IsUpper) (a : ℚ) : ∃ d, a ≤ d ∧ g.satisfy d = true := by
  refine ⟨max a (g.c.toInt + 1), le_max_left _ _,
    satisfy_of_ge h (le_max_right a (g.c.toInt + 1)) ?_⟩
  obtain ⟨x, o, c⟩ := g
  cases o
  case lt => exact absurd (Or.inl rfl) h
  case le => exact absurd (Or.inr rfl) h
  all_goals simp [satisfy]

/-- `GT` says that the value is too large: no larger one satisfies the constraint. -/
theorem compare_eq_GT_iff {val : ClockVariables → ℚ} :
    g.compare val = .GT ↔ ∀ d, val g.x ≤ d → g.satisfy d = false := by
  have hGT : g.compare val = .GT ↔ g.satisfy (val g.x) = false ∧ g.IsUpper := by
    unfold compare IsUpper
    split_ifs <;> simp [*]
  rw [hGT]
  constructor
  · rintro ⟨hno, hupper⟩ d hd
    refine Bool.eq_false_iff.2 fun h => ?_
    rw [hupper.satisfy_of_le hd h] at hno
    exact absurd hno (by simp)
  · intro hall
    refine ⟨hall _ le_rfl, by_contra fun hlower => ?_⟩
    obtain ⟨d, hd, hsat⟩ := exists_satisfy hlower (val g.x)
    rw [hall d hd] at hsat
    exact absurd hsat (by simp)

end Constraint

theorem mem_widen {guard : List Constraint} {g : Constraint} :
    g ∈ widen guard ↔ g ∈ guard ∧ g.IsUpper := by
  obtain ⟨x, o, c⟩ := g
  unfold widen Constraint.IsUpper
  rw [List.mem_filter]
  cases o <;> simp

theorem valuation_sup (u v : Fin n → ℚ) (i : Fin (n + 1)) :
    valuation (u ⊔ v) i = max (valuation u i) (valuation v i) :=
  Fin.cases (max_self _).symm (fun _ => rfl) i

/-- The values of the clocks, as `operator()` reads them (`at` throws where there is none). -/
def interpretation (u : Fin n → ℚ) (x : ClockVariables) : ℚ :=
  if hx : x.toNat < n then u ⟨x.toNat, hx⟩ else 0

/-- Those of the rows. -/
theorem HasRow.valuation_row {x : ClockVariables} (hx : HasRow n x) (u : Fin n → ℚ) :
    valuation u (row n x) = interpretation u x := by
  rw [row_eq_succ hx, valuation_succ, interpretation, dif_pos hx.1]

/-- **Widening.** Valuations meet the widened guard iff none of its constraints finds a clock
    too large.  If the guard can be met at all, they are those below the valuations that
    meet the guard. -/
theorem widen_exact (guard : List Constraint) (hrow : ∀ g ∈ guard, HasRow n g.x)
    (h : ∃ u : Fin n → ℚ, (constraintsToDBM n guard).Contains u) (u : Fin n → ℚ)
    (hu : ∀ x, 0 ≤ u x) :
    [(constraintsToDBM n (widen guard)).Contains u,
      ∀ g ∈ guard, g.compare (interpretation u) ≠ .GT,
      ∃ u', u ≤ u' ∧ (constraintsToDBM n guard).Contains u'].TFAE := by
  simp only [DBM.contains_constraintsToDBM, Constraint.HoldsAt, valuation_zero, sub_zero,
    mem_widen] at h ⊢
  tfae_have 1 → 2 := by
    rintro ⟨-, hg⟩ g hmem hGT
    have hall := Constraint.compare_eq_GT_iff.1 hGT
    have hupper : g.IsUpper := by
      by_contra hlower
      obtain ⟨d, hd, hsat⟩ := Constraint.exists_satisfy hlower (interpretation u g.x)
      rw [hall d hd] at hsat
      exact absurd hsat (by simp)
    have hsat := hg g ⟨hmem, hupper⟩
    rw [hupper.tested_eq_satisfy, (hrow g hmem).valuation_row, hall _ le_rfl] at hsat
    exact absurd hsat (by simp)
  tfae_have 2 → 3 := by
    intro hg
    obtain ⟨v, hv, hguard⟩ := h
    -- raise each clock to its value in `v`
    refine ⟨u ⊔ v, le_sup_left, fun x => (hu x).trans (le_max_left _ _), fun g hmem => ?_⟩
    rw [valuation_sup]
    by_cases hupper : g.IsUpper
    · have hnot := hg g hmem
      rw [Ne, Constraint.compare_eq_GT_iff, ← (hrow g hmem).valuation_row] at hnot
      push Not at hnot
      obtain ⟨d, hd, hsat⟩ := hnot
      have hsat := hupper.satisfy_of_le hd (Bool.of_not_eq_false hsat)
      rcases max_choice (valuation u (row n g.x)) (valuation v (row n g.x)) with he | he
      · rw [he, hupper.tested_eq_satisfy]; exact hsat
      · rw [he]; exact hguard g hmem
    · exact Constraint.tested_of_ge hupper (le_max_right _ _) (hguard g hmem)
  tfae_have 3 → 1 := by
    rintro ⟨u', hle, -, hguard⟩
    refine ⟨hu, fun g hg => ?_⟩
    have hsat := hguard g hg.1
    rw [hg.2.tested_eq_satisfy] at hsat ⊢
    have hle : ∀ i, valuation u i ≤ valuation u' i := Fin.cases le_rfl hle
    exact hg.2.satisfy_of_le (hle _) hsat
  tfae_finish

/-- One clock: below `2` there is a larger value between `1` and `2`. -/
theorem widen_exact_guard : ∃ u', (fun _ => 0 : Fin 1 → ℚ) ≤ u' ∧
    (constraintsToDBM 1 [⟨0, .gt, 1⟩, ⟨0, .le, 2⟩]).Contains u' := by
  have hsat : ∃ u : Fin 1 → ℚ, (constraintsToDBM 1 [⟨0, .gt, 1⟩, ⟨0, .le, 2⟩]).Contains u :=
    (DBM.isSatisfiable_iff (by norm_num)).1 (by decide +kernel)
  have hrow : ∀ g ∈ [⟨0, .gt, 1⟩, (⟨0, .le, 2⟩ : Constraint)], HasRow 1 g.x := by
    unfold HasRow
    decide
  exact ((widen_exact [⟨0, .gt, 1⟩, ⟨0, .le, 2⟩] hrow hsat (fun _ => 0) fun _ => le_rfl).out 1 2).1
    (by decide +kernel)

end MooreFilter

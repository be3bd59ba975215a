/-
  The delays that `findDuration` finds.

  * `delays D z` are the positive delays from the valuations of `D` to those of `z`,
    `delaysOn S D z` those for the bounds among the rows of `S`;
  * `satOn_durationMatrix`: the matrix that `findDuration` closes has the valuations
    that are in `z`, and were in `D` a delay ago;
  * `DBM.inBounds_iff`: the bounds that `findDuration` reads off are exact for the low
    rows;
  * `durationExact_iff`: so they are exact iff the other rows make no difference, and
    for all matrices of a size iff all rows are low.
-/
import MooreFilter.Proof.Canonize

namespace MooreFilter

open Difference (Sat SatOn)

variable {n : ℕ}

/-! ## Delays -/

/-- The valuation after a delay. -/
def later (t : ℚ) (u : Fin n → ℚ) : Fin n → ℚ := fun x => u x + t

namespace DBM

/-- The positive delays from the valuations of `D` to those of `z`. -/
def delays (D z : DBM n) : Set ℚ := {t | 0 < t ∧ ∃ u, D.Contains u ∧ z.Contains (later t u)}

/-- The positive delays, for the bounds among some of the rows. -/
def delaysOn (S : Finset (Fin (n + 1))) (D z : DBM n) : Set ℚ :=
  {t | 0 < t ∧ ∃ u, SatOn D.value S (valuation u) ∧ SatOn z.value S (valuation (later t u))}

theorem delays_subset_delaysOn (S : Finset (Fin (n + 1))) (D z : DBM n) :
    D.delays z ⊆ delaysOn S D z := by
  rintro t ⟨ht, u, hu, hz⟩
  exact ⟨ht, u, fun i _ j _ => hu i j, fun i _ j _ => hz i j⟩

theorem delays_eq (D z : DBM n) : D.delays z = delaysOn Finset.univ D z := by
  refine (delays_subset_delaysOn _ D z).antisymm ?_
  rintro t ⟨ht, u, hu, hz⟩
  exact ⟨ht, u, fun i j => hu i (by simp) j (by simp), fun i j => hz i (by simp) j (by simp)⟩

/-! ## The matrix that is closed -/

/-- The matrix that `findDuration` closes. -/
def durationMatrix (D z : DBM n) : DBM (n + 1) :=
  { D.withDuration with
    value := fun i j => min (D.withDuration.value i j) (durationConstraint z i j) }

theorem value_durationMatrix (D z : DBM n) (i j : Fin (n + 2)) :
    (durationMatrix D z).value i j =
      min (D.withDuration.value i j) (durationConstraint z i j) := rfl

/-- Some rows, and the row of the reference point before the delay. -/
def withLast (S : Finset (Fin (n + 1))) : Finset (Fin (n + 2)) :=
  insert (Fin.last (n + 1)) (S.map Fin.castSuccEmb)

theorem castSucc_mem_withLast {S : Finset (Fin (n + 1))} {i : Fin (n + 1)} :
    i.castSucc ∈ withLast S ↔ i ∈ S := by
  simp [withLast, (Fin.castSucc_lt_last i).ne]

theorem last_mem_withLast (S : Finset (Fin (n + 1))) : Fin.last (n + 1) ∈ withLast S := by
  simp [withLast]

theorem satOn_withLast {S : Finset (Fin (n + 1))} {E : Fin (n + 2) → Fin (n + 2) → Bounds}
    {w : Fin (n + 2) → ℚ} :
    SatOn E (withLast S) w ↔
      (∀ i ∈ S, ∀ j ∈ S, (E i.castSucc j.castSucc).Holds (w i.castSucc - w j.castSucc)) ∧
      (∀ i ∈ S, (E i.castSucc (Fin.last _)).Holds (w i.castSucc - w (Fin.last _))) ∧
      (∀ j ∈ S, (E (Fin.last _) j.castSucc).Holds (w (Fin.last _) - w j.castSucc)) ∧
      (E (Fin.last _) (Fin.last _)).Holds 0 := by
  have hlast := last_mem_withLast S
  constructor
  · intro h
    refine ⟨fun i hi j hj => ?_, fun i hi => ?_, fun j hj => ?_, ?_⟩
    · exact h _ (castSucc_mem_withLast.2 hi) _ (castSucc_mem_withLast.2 hj)
    · exact h _ (castSucc_mem_withLast.2 hi) _ hlast
    · exact h _ hlast _ (castSucc_mem_withLast.2 hj)
    · simpa using h _ hlast _ hlast
  · rintro ⟨h₁, h₂, h₃, h₄⟩ i hi j hj
    revert hi hj
    refine Fin.lastCases ?_ (fun i => ?_) i <;> refine Fin.lastCases ?_ (fun j => ?_) j
    · intro _ _; rwa [sub_self]
    · intro _ hj; exact h₃ j (castSucc_mem_withLast.1 hj)
    · intro hi _; exact h₂ i (castSucc_mem_withLast.1 hi)
    · intro hi hj; exact h₁ i (castSucc_mem_withLast.1 hi) j (castSucc_mem_withLast.1 hj)

section
variable (D z : DBM n) (i j : Fin (n + 1))

theorem durationMatrix_castSucc_castSucc :
    (durationMatrix D z).value i.castSucc j.castSucc =
      min (if j = 0 then .inf else if i = 0 then (D.value 0 j).strict else D.value i j)
        (z.value i j) := by
  have hc : durationConstraint z i.castSucc j.castSucc = z.value i j := by
    unfold durationConstraint
    rw [if_neg fun e => (Fin.castSucc_lt_last j).ne e.2, Fin.lastCases_castSucc,
      Fin.lastCases_castSucc]
  rw [value_durationMatrix, hc, value_withDuration]
  simp [(Fin.castSucc_lt_last i).ne]

theorem durationMatrix_castSucc_last :
    (durationMatrix D z).value i.castSucc (Fin.last _) =
      if i = 0 then min (D.value 0 0).strict (.fin 0 false) else D.value i 0 := by
  have hc : durationConstraint z i.castSucc (Fin.last _) =
      if i = 0 then .fin 0 false else .inf := by
    unfold durationConstraint
    rw [Fin.lastCases_castSucc, Fin.lastCases_last]
    simp
  rw [value_durationMatrix, hc, value_withDuration]
  by_cases hi : i = 0
  · simp [hi]
  · simp [hi, (Fin.castSucc_lt_last i).ne]

theorem durationMatrix_last_castSucc :
    (durationMatrix D z).value (Fin.last _) j.castSucc = if j = 0 then .inf else D.value 0 j := by
  have hc : durationConstraint z (Fin.last _) j.castSucc = .inf := by
    unfold durationConstraint
    rw [if_neg fun e => (Fin.castSucc_lt_last j).ne e.2, Fin.lastCases_last, Fin.lastCases_castSucc]
  rw [value_durationMatrix, hc, value_withDuration]
  simp [(Fin.castSucc_lt_last j).ne]

theorem durationMatrix_last_last :
    (durationMatrix D z).value (Fin.last _) (Fin.last _) = .fin 0 true := by
  rw [value_durationMatrix, value_withDuration]
  simp [durationConstraint]

end

/-- **The matrix** has the valuations in `z` that were in `D` a positive delay ago. -/
theorem satOn_durationMatrix {S : Finset (Fin (n + 1))} (h0 : 0 ∈ S) {D z : DBM n}
    (hD : 0 ≤ D.value 0 0) {w : Fin (n + 2) → ℚ} :
    SatOn (durationMatrix D z).value (withLast S) w ↔
      0 < w (Fin.last _) - w 0 ∧
      SatOn D.value S (Function.update (fun i => w i.castSucc) 0 (w (Fin.last _))) ∧
      SatOn z.value S fun i => w i.castSucc := by
  have hw0 : w (Fin.castSucc (0 : Fin (n + 1))) = w 0 := rfl
  simp only [satOn_withLast, durationMatrix_castSucc_castSucc, durationMatrix_castSucc_last,
    durationMatrix_last_castSucc, durationMatrix_last_last, Bound.holds_min]
  constructor
  · rintro ⟨h₁, h₂, h₃, -⟩
    refine ⟨?_, fun i hi j hj => ?_, fun i hi j hj => (h₁ i hi j hj).2⟩
    · have h := h₂ 0 h0
      rw [if_pos rfl, Bound.holds_min] at h
      have h : w (Fin.castSucc (0 : Fin (n + 1))) - w (Fin.last _) < 0 := h.2
      rw [hw0] at h; linarith
    · rcases eq_or_ne i 0 with rfl | hi0 <;> rcases eq_or_ne j 0 with rfl | hj0
      · rwa [sub_self, ← Bound.zero_le_iff]
      · have h := h₃ j hj
        rw [if_neg hj0] at h
        rwa [Function.update_self, Function.update_of_ne hj0]
      · have h := h₂ i hi
        rw [if_neg hi0] at h
        rwa [Function.update_self, Function.update_of_ne hi0]
      · have h := (h₁ i hi j hj).1
        rw [if_neg hj0, if_neg hi0] at h
        rwa [Function.update_of_ne hi0, Function.update_of_ne hj0]
  · rintro ⟨ht, hv, hz⟩
    refine ⟨fun i hi j hj => ⟨?_, hz i hi j hj⟩, fun i hi => ?_, fun j hj => ?_,
      le_refl (0 : ℚ)⟩
    · have h := hv i hi j hj
      split_ifs with hj0 hi0
      · trivial
      · -- the bounds by the reference point from below get strict
        rw [hi0, Function.update_self, Function.update_of_ne hj0] at h
        rw [hi0, hw0]
        exact Difference.holds_strict_of_lt h (by linarith)
      · rwa [Function.update_of_ne hi0, Function.update_of_ne hj0] at h
    · split_ifs with hi0
      · rw [hi0, hw0, Bound.holds_min]
        have hlt : w 0 - w (Fin.last _) < 0 := by linarith
        exact ⟨Difference.holds_strict_of_lt (Bound.zero_le_iff.1 hD) hlt, hlt⟩
      · have h := hv i hi 0 h0
        rwa [Function.update_self, Function.update_of_ne hi0] at h
    · split_ifs with hj0
      · trivial
      · have h := hv 0 h0 j hj
        rwa [Function.update_self, Function.update_of_ne hj0] at h

/-! ## Exactness -/

/-- The delays are the differences between the last row and the reference point. -/
theorem mem_delaysOn_iff {S : Finset (Fin (n + 1))} (h0 : 0 ∈ S) {D z : DBM n}
    (hD : 0 ≤ D.value 0 0) {t : ℚ} :
    t ∈ delaysOn S D z ↔
      ∃ w, SatOn (durationMatrix D z).value (withLast S) w ∧ w 0 - w (Fin.last _) = -t := by
  constructor
  · rintro ⟨ht, u, hu, hz⟩
    refine ⟨withOld (valuation (later t u)) t, (satOn_durationMatrix h0 hD).2 ⟨?_, ?_, ?_⟩, ?_⟩
    · simpa using ht
    · refine (Difference.satOn_congr fun i j => ?_).1 hu
      have hrow : ∀ i, Function.update (fun i : Fin (n + 1) =>
          withOld (valuation (later t u)) t i.castSucc) 0
          (withOld (valuation (later t u)) t (Fin.last _)) i = valuation u i + t := by
        intro i
        refine Fin.cases ?_ (fun x => ?_) i
        · simp
        · rw [Function.update_of_ne (Fin.succ_ne_zero x), withOld_castSucc]; rfl
      rw [hrow, hrow, add_sub_add_right_eq_sub]
    · simpa only [withOld_castSucc] using hz
    · simp
  · rintro ⟨w, hw, ht⟩
    obtain ⟨hpos, hu, hz⟩ := (satOn_durationMatrix h0 hD).1 hw
    set v := Function.update (fun i : Fin (n + 1) => w i.castSucc) 0 (w (Fin.last _)) with hv
    refine ⟨by linarith, clocks v, (Difference.satOn_congr fun i j => ?_).1 hu,
      (Difference.satOn_congr fun i j => ?_).1 hz⟩
    · rw [valuation_clocks, valuation_clocks, sub_sub_sub_cancel_right]
    · have hrow : ∀ i, valuation (later t (clocks v)) i = w i.castSucc - w 0 := by
        intro i
        refine Fin.cases ?_ (fun x => ?_) i
        · exact (sub_self (w 0)).symm
        · rw [valuation_succ, later, clocks, hv, Function.update_self,
            Function.update_of_ne (Fin.succ_ne_zero x)]
          linarith
      rw [hrow, hrow, sub_sub_sub_cancel_right]

theorem lowRowsAnd_zero_last : lowRowsAnd 0 (Fin.last (n + 1)) = withLast (lowRows n) := by
  ext i
  refine Fin.lastCases ?_ (fun i => ?_) i
  · simp [lowRowsAnd, withLast]
  · rw [castSucc_mem_withLast, lowRowsAnd, Finset.mem_insert, Finset.mem_insert, mem_lowRows,
      mem_lowRows]
    have hi : i.castSucc ≠ Fin.last (n + 1) := (Fin.castSucc_lt_last i).ne
    have h0 : i.castSucc = 0 → i.val < 256 := fun e => by
      have : i.val = 0 := congrArg Fin.val e
      omega
    rw [Fin.val_castSucc]
    tauto

theorem zero_mem_lowRows : (0 : Fin (n + 1)) ∈ lowRows n := by simp [mem_lowRows]

/-- The bounds that `findDuration` reads off are met by the delay. -/
def InBounds (D z : DBM n) (t : ℚ) : Prop :=
  (D.findDuration z).1.Holds (-t) ∧ (D.findDuration z).2.Holds t

/-- **Durations.** If there is a delay, the bounds are exact for the low rows. -/
theorem inBounds_iff {D z : DBM n} (h : (D.delays z).Nonempty) {t : ℚ} :
    InBounds D z t ↔ t ∈ delaysOn (lowRows n) D z := by
  obtain ⟨t₀, ht₀⟩ := h
  have hD : 0 ≤ D.value 0 0 := by
    obtain ⟨-, u, hu, -⟩ := ht₀
    exact hu.diag_nonneg 0
  -- with a delay, the matrix has a valuation
  have hsat : (durationMatrix D z).isSatisfiable.1 = true := by
    rw [delays_eq] at ht₀
    obtain ⟨w, hw, -⟩ := (mem_delaysOn_iff (Finset.mem_univ 0) hD).1 ht₀
    have hmem : ∀ i : Fin (n + 2), i ∈ withLast (Finset.univ : Finset (Fin (n + 1))) := fun i =>
      Fin.lastCases (last_mem_withLast _) (fun i => castSucc_mem_withLast.2 (Finset.mem_univ i)) i
    exact isSatisfiable_of_sat fun i j => hw i (hmem i) j (hmem j)
  have hiff := exists_satOn_sub_iff (r := -t) hsat (Fin.last_pos.ne : 0 ≠ Fin.last (n + 1))
  rw [neg_neg, lowRowsAnd_zero_last] at hiff
  rw [mem_delaysOn_iff zero_mem_lowRows hD]
  exact hiff.symm

/-- `findDuration` is exact: if there is a delay, the bounds are those of the delays. -/
def DurationExact (D z : DBM n) : Prop :=
  (D.delays z).Nonempty → D.delays z = {t | InBounds D z t}

theorem durationExact_iff_subset (D z : DBM n) : DurationExact D z ↔
    ((D.delays z).Nonempty → delaysOn (lowRows n) D z ⊆ D.delays z) := by
  refine forall_congr' fun h => ?_
  have hbounds : {t | InBounds D z t} = delaysOn (lowRows n) D z := Set.ext fun t => inBounds_iff h
  rw [hbounds]
  exact ⟨fun he => he.ge, fun hle => (delays_subset_delaysOn _ D z).antisymm hle⟩

theorem durationExact_of_le (hn : n ≤ 255) (D z : DBM n) : DurationExact D z := by
  have huniv : lowRows n = Finset.univ := by
    ext i
    simp only [mem_lowRows, Finset.mem_univ, iff_true]
    omega
  rw [durationExact_iff_subset, huniv, ← delays_eq]
  exact fun _ => le_rfl

/-- The clock of the row 256 is at most `1`. -/
def young (n : ℕ) : DBM n where
  value i j := if i.val = 256 ∧ j.val = 0 then .fin 1 true else .inf
  M := .fin 0 false

/-- The clock of the row 256 is at least `5`. -/
def old (n : ℕ) : DBM n where
  value i j := if i.val = 0 ∧ j.val = 256 then .fin (-5) true else .inf
  M := .fin 0 false

theorem mem_delays_young_old (hn : 255 < n) {t : ℚ} : t ∈ (young n).delays (old n) ↔ 4 ≤ t := by
  constructor
  · rintro ⟨-, u, hu, hz⟩
    have hy := hu ⟨256, by omega⟩ 0
    have ho := hz 0 ⟨256, by omega⟩
    have hx : (⟨256, by omega⟩ : Fin (n + 1)) = (⟨255, hn⟩ : Fin n).succ := rfl
    rw [hx, valuation_succ, valuation_zero] at hy ho
    simp only [young, old, Fin.val_succ, Fin.val_zero, and_self, if_true, Bound.Holds,
      later] at hy ho
    linarith
  · intro ht
    refine ⟨by linarith, fun _ => 1, fun i j => ?_, fun i j => ?_⟩
    · unfold young
      dsimp only
      split_ifs with hij
      · have hi : valuation (fun _ : Fin n => (1 : ℚ)) i ≤ 1 :=
          Fin.cases (by simp) (fun x => by simp) i
        have hj : valuation (fun _ : Fin n => (1 : ℚ)) j = 0 := by
          rw [Fin.ext (a := j) (b := 0) hij.2, valuation_zero]
        rw [hj, sub_zero]; exact hi
      · trivial
    · unfold old
      dsimp only
      split_ifs with hij
      · have hi : valuation (later t fun _ : Fin n => (1 : ℚ)) i = 0 := by
          rw [Fin.ext (a := i) (b := 0) hij.1, valuation_zero]
        have hj : valuation (later t fun _ : Fin n => (1 : ℚ)) j = 1 + t := by
          have hx : j = (⟨255, hn⟩ : Fin n).succ := Fin.ext hij.2
          rw [hx, valuation_succ]; rfl
        rw [hi, hj]
        change 0 - (1 + t) ≤ -5
        linarith
      · trivial

theorem inBounds_young_old (hn : 255 < n) {t : ℚ} (ht : 0 < t) : InBounds (young n) (old n) t := by
  rw [inBounds_iff ⟨4, (mem_delays_young_old hn).2 le_rfl⟩]
  -- neither matrix has a bound among the low rows
  refine ⟨ht, fun _ => 0, fun i hi j hj => ?_, fun i hi j hj => ?_⟩
  · have hi := mem_lowRows.1 hi
    unfold young
    dsimp only
    rw [if_neg (by omega)]; trivial
  · have hj := mem_lowRows.1 hj
    unfold old
    dsimp only
    rw [if_neg (by omega)]; trivial

end DBM

/-- **Exactness.** The bounds on the delays are exact iff the rows from 256 on make no
    difference to them, and so for all matrices over `n` clocks iff there are at most 256
    rows. -/
theorem durationExact_iff (n : ℕ) :
    (∀ D z : DBM n, DBM.DurationExact D z ↔
      ((D.delays z).Nonempty → DBM.delaysOn (DBM.lowRows n) D z ⊆ D.delays z)) ∧
    ((∀ D z : DBM n, DBM.DurationExact D z) ↔ n ≤ 255) := by
  refine ⟨DBM.durationExact_iff_subset, fun h => ?_, DBM.durationExact_of_le⟩
  by_contra hn
  have hn := not_le.1 hn
  have he := h (DBM.young n) (DBM.old n) ⟨4, (DBM.mem_delays_young_old hn).2 le_rfl⟩
  have h1 : (1 : ℚ) ∈ (DBM.young n).delays (DBM.old n) := by
    rw [he]; exact DBM.inBounds_young_old hn one_pos
  have := (DBM.mem_delays_young_old hn).1 h1
  norm_num at this

/-- Over 256 clocks, the bounds on the clock 255 are missed. -/
theorem findDuration_young_old :
    4 ∈ (DBM.young 256).delays (DBM.old 256) ∧ 1 ∉ (DBM.young 256).delays (DBM.old 256) ∧
      DBM.InBounds (DBM.young 256) (DBM.old 256) 1 := by
  refine ⟨(DBM.mem_delays_young_old (by norm_num)).2 le_rfl, fun h => ?_,
    DBM.inBounds_young_old (by norm_num) one_pos⟩
  have := (DBM.mem_delays_young_old (by norm_num)).1 h
  norm_num at this

end MooreFilter

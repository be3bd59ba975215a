/-
  Closing a matrix and deciding emptiness.

  `D.Contains u` says that the valuation `u` of the clocks, with `0` for the
  reference point, meets the bounds of the matrix `D`.

  * `canonize` eliminates at the rows of `pivots`, which are the `lowRows`, those
    below 256: its index is converted to an 8-bit number (`mem_pivots`);
  * `value_canonize`: unless the diagonal gets negative, `canonize` is the
    elimination of the library at these rows;
  * `isSatisfiable_iff_satOn`, `isLeast_canonize`: what the code decides and finds is
    about the bounds among the low rows and two more;
  * `canonizeExact_iff`: so `isSatisfiable` decides emptiness and `canonize` gives the
    tightest bounds iff these bounds suffice, and for all matrices of a size iff all
    rows are low.
-/
import MooreFilter.Lib.Elimination
import MooreFilter.Proof.Dbm

namespace MooreFilter

open Difference (Sat SatOn ClosedAt ClosedBut close closeAll)

variable {n : ℕ}

/-! ## Valuations of the clocks -/

/-- The values of the clocks, and `0` for the reference point. -/
def valuation (u : Fin n → ℚ) : Fin (n + 1) → ℚ := Fin.cons 0 u

@[simp] theorem valuation_zero (u : Fin n → ℚ) : valuation u 0 = 0 := rfl

@[simp] theorem valuation_succ (u : Fin n → ℚ) (x : Fin n) : valuation u x.succ = u x := rfl

/-- The values of the clocks in a valuation of the rows. -/
def clocks (v : Fin (n + 1) → ℚ) : Fin n → ℚ := fun x => v x.succ - v 0

theorem valuation_clocks (v : Fin (n + 1) → ℚ) (i : Fin (n + 1)) :
    valuation (clocks v) i = v i - v 0 := by
  refine Fin.cases ?_ (fun x => ?_) i
  · rw [valuation_zero, sub_self]
  · rfl

theorem clocks_valuation (u : Fin n → ℚ) : clocks (valuation u) = u := by
  funext x
  rw [clocks, valuation_succ, valuation_zero, sub_zero]

/-- The values of the clocks satisfy the constraint. -/
def Constraint.SatisfiedBy (g : Constraint) (u : Fin n → ℚ) : Prop :=
  ∃ h : g.x.toNat < n, g.satisfy (u ⟨g.x.toNat, h⟩) = true

namespace DBM

/-- The values of the clocks meet the bounds. -/
def Contains (D : DBM n) (u : Fin n → ℚ) : Prop := Sat D.value (valuation u)

theorem contains_clocks {D : DBM n} {v : Fin (n + 1) → ℚ} :
    D.Contains (clocks v) ↔ Sat D.value v := by
  unfold Contains Sat
  simp only [valuation_clocks, sub_sub_sub_cancel_right]

theorem exists_contains_iff {D : DBM n} : (∃ u, D.Contains u) ↔ ∃ v, Sat D.value v := by
  constructor
  · rintro ⟨u, hu⟩
    exact ⟨_, hu⟩
  · rintro ⟨v, hv⟩
    exact ⟨_, contains_clocks.2 hv⟩

/-- A bound that the valuations of the clocks meet is met by those of the rows. -/
theorem holds_of_contains {D : DBM n} {b : Bounds} {i j : Fin (n + 1)}
    (h : ∀ u, D.Contains u → b.Holds (valuation u i - valuation u j)) {v : Fin (n + 1) → ℚ}
    (hv : Sat D.value v) : b.Holds (v i - v j) := by
  have hvb := h _ (contains_clocks.2 hv)
  rwa [valuation_clocks, valuation_clocks, sub_sub_sub_cancel_right] at hvb

/-! ## Pivots -/

/-- The rows that `canonize` passes to `close1`. -/
def pivots (n : ℕ) : List (Fin (n + 1)) :=
  (List.range (n + 1)).map fun k => Fin.ofNat (n + 1) (UInt8.ofNat k).toNat

/-- The rows below 256. -/
def lowRows (n : ℕ) : Finset (Fin (n + 1)) := Finset.univ.filter fun i => i.val < 256

theorem mem_lowRows {i : Fin (n + 1)} : i ∈ lowRows n ↔ i.val < 256 := by simp [lowRows]

theorem mem_pivots {i : Fin (n + 1)} : i ∈ pivots n ↔ i ∈ lowRows n := by
  have hval : ∀ k, k < n + 1 → (Fin.ofNat (n + 1) (UInt8.ofNat k).toNat).val = k % 256 := by
    intro k hk
    rw [UInt8.toNat_ofNat', Fin.val_ofNat]
    exact Nat.mod_eq_of_lt ((Nat.mod_le _ _).trans_lt hk)
  unfold pivots
  rw [List.mem_map, mem_lowRows]
  constructor
  · rintro ⟨k, hk, rfl⟩
    rw [hval k (List.mem_range.1 hk)]
    exact Nat.mod_lt _ (by norm_num)
  · intro hi
    refine ⟨i.val, List.mem_range.2 i.isLt, Fin.ext ?_⟩
    rw [hval _ i.isLt, Nat.mod_eq_of_lt hi]

theorem canonize_eq_foldl (D : DBM n) :
    D.canonize = (pivots n).foldl (fun D k => D.close1 k) D := by
  unfold canonize pivots
  rw [List.foldl_map]

theorem value_foldl_close1 {l : List (Fin (n + 1))} {D : DBM n}
    (h : ∀ i, 0 ≤ (l.foldl (fun D k => D.close1 k) D).value i i) :
    (l.foldl (fun D k => D.close1 k) D).value = closeAll l D.value := by
  induction l using List.reverseRecOn with
  | nil => rfl
  | append_singleton l k ih =>
    rw [List.foldl_append, List.foldl_cons, List.foldl_nil] at h ⊢
    -- the diagonal only decreases, so it was not negative before
    have hl : ∀ i, 0 ≤ (l.foldl (fun D k => D.close1 k) D).value i i :=
      fun i => (h i).trans (close1_le _ _ _ _)
    rw [Difference.closeAll_append_singleton, ← ih hl, value_close1 (hl k)]

/-- **Elimination.** Unless the diagonal gets negative, `canonize` eliminates at the
    pivots. -/
theorem value_canonize {D : DBM n} (h : ∀ i, 0 ≤ D.canonize.value i i) :
    D.canonize.value = closeAll (pivots n) D.value := by
  rw [canonize_eq_foldl] at h ⊢
  exact value_foldl_close1 h

theorem closedAt_canonize {D : DBM n} (h : ∀ i, 0 ≤ D.canonize.value i i) {k : Fin (n + 1)}
    (hk : k ∈ lowRows n) : ClosedAt k D.canonize.value := by
  have he := value_canonize h
  rw [he] at h ⊢
  exact Difference.closedAt_closeAll h k (mem_pivots.2 hk)

/-- A matrix that is closed at the pivots is not changed. -/
theorem canonize_eq_self {D : DBM n} (hdiag : ∀ i, 0 ≤ D.value i i)
    (h : ∀ k ∈ lowRows n, ClosedAt k D.value) : D.canonize = D := by
  rw [canonize_eq_foldl]
  have hp : ∀ k ∈ pivots n, ClosedAt k D.value := fun k hk => h k (mem_pivots.1 hk)
  generalize pivots n = l at hp
  induction l with
  | nil => rfl
  | cons k l ih =>
    have hk : D.close1 k = D := by
      have hval := value_close1 (hdiag k)
      rw [(hp k (by simp)).close_eq] at hval
      exact ext_value hval (M_foldl_closeRow _ _ _)
    rw [List.foldl_cons, hk]
    exact ih fun k' hk' => hp k' (by simp [hk'])

/-! ## Solutions -/

/-- `canonize` keeps the valuations. -/
theorem sat_canonize_iff {D : DBM n} {v : Fin (n + 1) → ℚ} :
    Sat D.canonize.value v ↔ Sat D.value v :=
  ⟨fun h => h.mono D.canonize_le, sat_canonize⟩

/-- And those of the low rows and any others. -/
theorem satOn_canonize {S : Finset (Fin (n + 1))} (hS : lowRows n ⊆ S) {D : DBM n}
    {v : Fin (n + 1) → ℚ} (h : SatOn D.value S v) : SatOn D.canonize.value S v := by
  rw [canonize_eq_foldl]
  have hp : ∀ k ∈ pivots n, k ∈ S := fun k hk => hS (mem_pivots.1 hk)
  generalize pivots n = l at hp
  induction l generalizing D with
  | nil => exact h
  | cons k l ih =>
    have hk : k ∈ S := hp k (by simp)
    have hdiag : 0 ≤ D.value k k := by
      rw [Bound.zero_le_iff]; simpa using h k hk k hk
    refine ih ?_ fun k' hk' => hp k' (by simp [hk'])
    rw [value_close1 hdiag]
    exact Difference.satOn_close hk h

theorem satOn_of_canonize {S : Finset (Fin (n + 1))} {D : DBM n} {v : Fin (n + 1) → ℚ}
    (h : SatOn D.canonize.value S v) : SatOn D.value S v :=
  fun i hi j hj => (h i hi j hj).mono (D.canonize_le i j)

theorem isSatisfiable_iff_pair {D : DBM n} :
    D.isSatisfiable.1 = true ↔ ∀ i j, 0 ≤ D.canonize.value i j + D.canonize.value j i :=
  decide_eq_true_iff

/-- The low rows and two more. -/
def lowRowsAnd (i j : Fin (n + 1)) : Finset (Fin (n + 1)) := insert i (insert j (lowRows n))

theorem lowRows_subset (i j : Fin (n + 1)) : lowRows n ⊆ lowRowsAnd i j :=
  fun _ hk => Finset.mem_insert_of_mem (Finset.mem_insert_of_mem hk)

theorem left_mem_lowRowsAnd (i j : Fin (n + 1)) : i ∈ lowRowsAnd i j := by simp [lowRowsAnd]

theorem right_mem_lowRowsAnd (i j : Fin (n + 1)) : j ∈ lowRowsAnd i j := by simp [lowRowsAnd]

/-- Among the low rows and two more, the result is closed but at these two. -/
theorem closedBut_canonize {D : DBM n} (h : D.isSatisfiable.1 = true) (i j : Fin (n + 1)) :
    ClosedBut (⟨i, left_mem_lowRowsAnd i j⟩ : lowRowsAnd i j) ⟨j, right_mem_lowRowsAnd i j⟩
      fun a b => D.canonize.value a b := by
  have hpair := isSatisfiable_iff_pair.1 h
  refine ⟨fun k hki hkj a b => ?_, fun a b => hpair a b⟩
  have hk : k.1 ∈ lowRows n := by
    have hk := k.2
    simp only [lowRowsAnd, Finset.mem_insert] at hk
    rcases hk with hk | hk | hk
    · exact absurd (Subtype.ext hk) hki
    · exact absurd (Subtype.ext hk) hkj
    · exact hk
  exact closedAt_canonize (Difference.diag_nonneg_of_pair hpair) hk a b

/-- **Emptiness.** `isSatisfiable` says that the bounds among the low rows and any two
    more can be met. -/
theorem isSatisfiable_iff_satOn {D : DBM n} :
    D.isSatisfiable.1 = true ↔ ∀ i j, ∃ v, SatOn D.value (lowRowsAnd i j) v := by
  constructor
  · intro h i j
    obtain ⟨v, hv⟩ := (closedBut_canonize h i j).exists_sat
    exact ⟨_, satOn_of_canonize (Difference.satOn_extend.2 hv)⟩
  · intro h
    rw [isSatisfiable_iff_pair]
    intro i j
    obtain ⟨v, hv⟩ := h i j
    exact (satOn_canonize (lowRows_subset i j) hv).pair_nonneg (left_mem_lowRowsAnd i j)
      (right_mem_lowRowsAnd i j)

/-- **Tightness.** An entry of the result is the tightest bound that those among the low
    rows and its own two imply. -/
theorem isLeast_canonize {D : DBM n} (h : D.isSatisfiable.1 = true) {i j : Fin (n + 1)}
    (hij : i ≠ j) :
    IsLeast {b : Bounds | ∀ v, SatOn D.value (lowRowsAnd i j) v → b.Holds (v i - v j)}
      (D.canonize.value i j) := by
  refine ⟨fun v hv => ?_, fun b hb => ?_⟩
  · exact satOn_canonize (lowRows_subset i j) hv i (left_mem_lowRowsAnd i j) j
      (right_mem_lowRowsAnd i j)
  · have hne : (⟨i, left_mem_lowRowsAnd i j⟩ : lowRowsAnd i j) ≠ ⟨j, right_mem_lowRowsAnd i j⟩ :=
      fun e => hij (congrArg Subtype.val e)
    refine (closedBut_canonize h i j).le_of_forall hne fun v hv => ?_
    have hvb := hb _ (satOn_of_canonize (Difference.satOn_extend.2 hv))
    rwa [Subtype.val_injective.extend_apply v 0 ⟨i, left_mem_lowRowsAnd i j⟩,
      Subtype.val_injective.extend_apply v 0 ⟨j, right_mem_lowRowsAnd i j⟩] at hvb

/-- The differences within the two bounds are those of the valuations. -/
theorem exists_satOn_sub_iff {D : DBM n} (h : D.isSatisfiable.1 = true) {i j : Fin (n + 1)}
    (hij : i ≠ j) {r : ℚ} :
    (∃ v, SatOn D.value (lowRowsAnd i j) v ∧ v i - v j = r) ↔
      (D.canonize.value i j).Holds r ∧ (D.canonize.value j i).Holds (-r) := by
  have hi := left_mem_lowRowsAnd i j
  have hj := right_mem_lowRowsAnd i j
  constructor
  · rintro ⟨v, hv, rfl⟩
    have hc := satOn_canonize (lowRows_subset i j) hv
    rw [neg_sub]
    exact ⟨hc i hi j hj, hc j hj i hi⟩
  · rintro ⟨hr, hr'⟩
    have hne : (⟨i, hi⟩ : lowRowsAnd i j) ≠ ⟨j, hj⟩ := fun e => hij (congrArg Subtype.val e)
    obtain ⟨v, hv, he⟩ := (closedBut_canonize h i j).exists_sat_sub hne hr hr'
    refine ⟨_, satOn_of_canonize (Difference.satOn_extend.2 hv), ?_⟩
    rwa [Subtype.val_injective.extend_apply v 0 ⟨i, hi⟩,
      Subtype.val_injective.extend_apply v 0 ⟨j, hj⟩]

/-! ## Exactness -/

/-- `isSatisfiable` decides emptiness, and `canonize` keeps the valuations and gives the
    tightest bounds. -/
structure CanonizeExact (D : DBM n) : Prop where
  isSatisfiable_iff : D.isSatisfiable.1 = true ↔ ∃ u, D.Contains u
  contains_iff : ∀ u : Fin n → ℚ, D.canonize.Contains u ↔ D.Contains u
  tightest : (∃ u, D.Contains u) → ∀ i j, i ≠ j →
    IsLeast {b : Bounds | ∀ u, D.Contains u → b.Holds (valuation u i - valuation u j)}
      (D.canonize.value i j)
  triangle : (∃ u, D.Contains u) → ∀ i j k, i ≠ j →
    D.canonize.value i j ≤ D.canonize.value i k + D.canonize.value k j

/-- The rows from 256 on make no difference: a bound on the difference of two rows is
    implied by those among the low rows and the two, and if there is no valuation, then
    there is none for the low rows and some two. -/
structure LowRowsSuffice (D : DBM n) : Prop where
  bound : (∃ u, D.Contains u) → ∀ i j, i ≠ j → ∀ b : Bounds,
    (∀ u, D.Contains u → b.Holds (valuation u i - valuation u j)) →
    ∀ v, SatOn D.value (lowRowsAnd i j) v → b.Holds (v i - v j)
  empty : (¬ ∃ u, D.Contains u) → ∃ i j, ¬ ∃ v, SatOn D.value (lowRowsAnd i j) v

theorem CanonizeExact.lowRowsSuffice {D : DBM n} (h : D.CanonizeExact) : D.LowRowsSuffice := by
  refine ⟨fun hD i j hij b hb v hv => ?_, fun hD => ?_⟩
  · have hle : D.canonize.value i j ≤ b := (h.tightest hD i j hij).2 hb
    exact ((isLeast_canonize (h.isSatisfiable_iff.2 hD) hij).1 v hv).mono hle
  · by_contra hall
    push Not at hall
    exact hD (h.isSatisfiable_iff.1 (isSatisfiable_iff_satOn.2 hall))

theorem LowRowsSuffice.canonizeExact {D : DBM n} (h : D.LowRowsSuffice) : D.CanonizeExact := by
  have tightest : (∃ u, D.Contains u) → ∀ i j, i ≠ j →
      IsLeast {b : Bounds | ∀ u, D.Contains u → b.Holds (valuation u i - valuation u j)}
        (D.canonize.value i j) := by
    intro hD i j hij
    obtain ⟨u, hu⟩ := hD
    refine ⟨fun u hu => sat_canonize hu i j, fun b hb => ?_⟩
    exact (isLeast_canonize (isSatisfiable_of_sat hu) hij).2 (h.bound ⟨u, hu⟩ i j hij b hb)
  refine ⟨⟨fun hsat => ?_, ?_⟩, fun u => sat_canonize_iff, tightest, fun hD i j k hij => ?_⟩
  · by_contra hD
    obtain ⟨i, j, hnone⟩ := h.empty hD
    exact hnone (isSatisfiable_iff_satOn.1 hsat i j)
  · rintro ⟨u, hu⟩
    exact isSatisfiable_of_sat hu
  · refine (tightest hD i j hij).2 fun u hu => ?_
    rw [← sub_add_sub_cancel (valuation u i) (valuation u k) (valuation u j)]
    exact (sat_canonize hu i k).add (sat_canonize hu k j)

theorem satOn_lowRowsAnd (hn : n ≤ 255) {D : DBM n} {i j : Fin (n + 1)} {v : Fin (n + 1) → ℚ} :
    SatOn D.value (lowRowsAnd i j) v ↔ Sat D.value v := by
  have hmem : ∀ k : Fin (n + 1), k ∈ lowRowsAnd i j :=
    fun k => lowRows_subset i j (mem_lowRows.2 (by omega))
  exact ⟨fun h a b => h a (hmem a) b (hmem b), fun h a _ b _ => h a b⟩

theorem lowRowsSuffice_of_le (hn : n ≤ 255) (D : DBM n) : D.LowRowsSuffice := by
  refine ⟨fun _ i j _ b hb v hv => ?_, fun hD => ⟨0, 0, ?_⟩⟩
  · exact holds_of_contains hb ((satOn_lowRowsAnd hn).1 hv)
  · rintro ⟨v, hv⟩
    exact hD (exists_contains_iff.2 ⟨v, (satOn_lowRowsAnd hn).1 hv⟩)

/-- A chain of two bounds from the reference point to the clock `0`, over the row
    256. -/
def chain (n : ℕ) : DBM n where
  value i j := if i.val = 0 ∧ j.val = 256 ∨ i.val = 256 ∧ j.val = 1 then .fin 0 true else .inf
  M := .fin 0 false

theorem canonize_chain (n : ℕ) : (chain n).canonize = chain n := by
  refine canonize_eq_self (fun i => ?_) fun k hk i j => ?_
  · unfold chain
    dsimp only
    rw [if_neg (by omega)]; exact Bound.le_inf _
  · -- the two bounds meet at the row 256 only
    have hk := mem_lowRows.1 hk
    have hinf : (chain n).value i k = .inf ∨ (chain n).value k j = .inf := by
      unfold chain
      dsimp only
      by_cases hik : i.val = 0 ∧ k.val = 256 ∨ i.val = 256 ∧ k.val = 1
      · exact Or.inr (if_neg (by omega))
      · exact Or.inl (if_neg hik)
    rcases hinf with h | h
    · rw [h, Bound.inf_add]; exact Bound.le_inf _
    · rw [h, Bound.add_inf]; exact Bound.le_inf _

theorem contains_chain (n : ℕ) : (chain n).Contains fun _ => 0 := by
  have h0 : valuation (fun _ : Fin n => (0 : ℚ)) = fun _ => 0 := by
    funext i
    exact Fin.cases rfl (fun _ => rfl) i
  intro i j
  rw [h0, sub_self]
  unfold chain
  dsimp only
  split_ifs
  · exact le_refl (0 : ℚ)
  · trivial

theorem not_canonizeExact_chain (hn : 255 < n) : ¬ (chain n).CanonizeExact := by
  intro h
  have h01 := h.triangle ⟨_, contains_chain n⟩ ⟨0, by omega⟩ ⟨1, by omega⟩ ⟨256, by omega⟩
    (by simp)
  rw [canonize_chain] at h01
  simp [chain] at h01

end DBM

/-- **Exactness.** Emptiness is decided and the bounds are the tightest iff the rows from
    256 on make no difference, and so for all matrices over `n` clocks iff there are at
    most 256 rows. -/
theorem canonizeExact_iff (n : ℕ) :
    (∀ D : DBM n, D.CanonizeExact ↔ D.LowRowsSuffice) ∧
      ((∀ D : DBM n, D.CanonizeExact) ↔ n ≤ 255) := by
  refine ⟨fun D => ⟨fun h => h.lowRowsSuffice, fun h => h.canonizeExact⟩, ?_, ?_⟩
  · intro h
    by_contra hn
    exact DBM.not_canonizeExact_chain (not_le.1 hn) (h (DBM.chain n))
  · intro hn D
    exact (DBM.lowRowsSuffice_of_le hn D).canonizeExact

/-- Over 256 clocks, the bound over the row 256 is not found. -/
theorem canonize_chain_open : (∃ u, (DBM.chain 256).Contains u) ∧
    ¬ (DBM.chain 256).canonize.value 0 1 ≤
      (DBM.chain 256).canonize.value 0 256 + (DBM.chain 256).canonize.value 256 1 := by
  refine ⟨⟨_, DBM.contains_chain 256⟩, ?_⟩
  rw [DBM.canonize_chain]
  simp [DBM.chain]

end MooreFilter

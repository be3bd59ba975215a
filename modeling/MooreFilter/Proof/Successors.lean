/-
  The successors that `constructNexts` makes.

  * `D.IsZone`: the matrix is satisfiable, has no negative clock, and its entries
    are the tightest bounds, but for the entry `(0, 0)`; these are the matrices that
    represent a zone (`IsZone.exists_represents`, `Represents.isZone`);
  * an `Effect` is a guard with a reset; `tr.effect n` is that of a transition and
    `tr.rowEffect n` the one that the rows of the matrices give it, which is
    `tr.testedEffect n` (`rowEffect_eq`): the clock `255` is always `0`, and a lower
    bound by the least `int` is tested as its negation, which overflows;
  * `Effect.Exact` says that an entry is there iff there is a delay, and that its zone
    and its bounds are those of the effect;
  * `exact_successor`: the entries are exact for the effects on the rows;
  * `nextsExact_iff`: so they are exact iff the two differences make none.
-/
import MooreFilter.Proof.Duration
import MooreFilter.Proof.Membership

namespace MooreFilter

open Difference (Sat SatOn resetIndex resetIndex_ref)

variable {n : ℕ}

/-! ## Zones -/

namespace DBM
variable {D : DBM n}

/-- Satisfiable, without negative clocks, and canonical but for the entry `(0, 0)`. -/
structure IsZone (D : DBM n) : Prop where
  satisfiable : ∃ u, D.Contains u
  nonneg : ∀ u, D.Contains u → ∀ x, 0 ≤ u x
  canonical : ∀ i j, ¬ (i = 0 ∧ j = 0) →
    IsLeast {b : Bounds | ∀ u, D.Contains u → b.Holds (valuation u i - valuation u j)} (D.value i j)

theorem Represents.sat_iff {Z : Zone n} (h : D.Represents Z) {v : Fin (n + 1) → ℚ} :
    Sat D.value v ↔ Sat Z.bound v :=
  h.agrees.sat_iff

theorem IsZone.exists_represents (h : D.IsZone) : ∃ Z, D.Represents Z := by
  obtain ⟨u₀, hu₀⟩ := h.satisfiable
  set E : Fin (n + 1) → Fin (n + 1) → Bounds :=
    fun i j => if i = 0 ∧ j = 0 then 0 else D.value i j with hE
  have hne : ∀ {i j}, ¬ (i = 0 ∧ j = 0) → E i j = D.value i j := fun hij => if_neg hij
  -- the valuations meet the entries, and the entries imply no more
  have hholds : ∀ u, D.Contains u → ∀ i j, (E i j).Holds (valuation u i - valuation u j) := by
    intro u hu i j
    by_cases hij : i = 0 ∧ j = 0
    · rw [hij.1, hij.2, sub_self, ← Bound.zero_le_iff]; exact le_rfl
    · rw [hne hij]; exact hu i j
  have hleast : ∀ i j b, (∀ u, D.Contains u → b.Holds (valuation u i - valuation u j)) →
      E i j ≤ b := by
    intro i j b hb
    by_cases hij : i = 0 ∧ j = 0
    · have := hb u₀ hu₀
      rw [hij.1, hij.2, sub_self, ← Bound.zero_le_iff] at this
      rw [hij.1, hij.2]; exact this
    · rw [hne hij]; exact (h.canonical i j hij).2 hb
  refine ⟨⟨E, ⟨fun i => le_antisymm ?_ ?_, fun k i j => ?_⟩, fun j => ?_⟩,
    fun i j hij => (hne hij).symm, hu₀.diag_nonneg 0⟩
  · exact hleast i i 0 fun u _ => by rw [sub_self, ← Bound.zero_le_iff]
  · have := hholds u₀ hu₀ i i
    rwa [sub_self, ← Bound.zero_le_iff] at this
  · refine hleast i j _ fun u hu => ?_
    rw [← sub_add_sub_cancel (valuation u i) (valuation u k) (valuation u j)]
    exact (hholds u hu i k).add (hholds u hu k j)
  · refine hleast 0 j 0 fun u hu => ?_
    have hj : 0 ≤ valuation u j := Fin.cases le_rfl (fun x => h.nonneg u hu x) j
    change valuation u 0 - valuation u j ≤ 0
    rw [valuation_zero]; linarith

theorem Represents.isZone {Z : Zone n} (h : D.Represents Z) : D.IsZone := by
  have hsat : ∀ u, D.Contains u ↔ Sat Z.bound (valuation u) := fun u => h.sat_iff
  refine ⟨?_, fun u hu x => ?_, fun i j hij => ⟨fun u hu => hu i j, fun b hb => ?_⟩⟩
  · obtain ⟨v, hv⟩ := Z.closed.exists_sat
    exact exists_contains_iff.2 ⟨v, h.sat_iff.2 hv⟩
  · exact Z.le_of_sat ((hsat u).1 hu) x.succ
  · rw [h.eq i j hij]
    by_cases hne : i = j
    · obtain ⟨v, hv⟩ := Z.closed.exists_sat
      have := holds_of_contains hb (h.sat_iff.2 hv)
      rw [hne, sub_self, ← Bound.zero_le_iff] at this
      rw [hne, Z.closed.diag]; exact this
    · exact Z.closed.le_of_forall hne fun v hv => holds_of_contains hb (h.sat_iff.2 hv)

end DBM

/-! ## Effects -/

/-- A guard, and a reset. -/
@[ext] structure Effect (n : ℕ) where
  guard : (Fin n → ℚ) → Prop
  reset : (Fin n → ℚ) → Fin n → ℚ

namespace Effect
variable (a : Effect n) (D : DBM n)

/-- The positive delays from the matrix into the guard. -/
def delays : Set ℚ := {t | 0 < t ∧ ∃ u, D.Contains u ∧ a.guard (later t u)}

/-- The valuations after a positive delay into the guard, and the reset. -/
def successors : Set (Fin n → ℚ) :=
  {u' | ∃ u t, D.Contains u ∧ 0 < t ∧ a.guard (later t u) ∧ u' = a.reset (later t u)}

/-- There is an entry iff there is a delay, and it has the target, the valuations and the
    delays of the effect. -/
structure Exact (p : Ptr) (e? : Option (Entry n)) : Prop where
  isSome_iff : e?.isSome = true ↔ (a.delays D).Nonempty
  target : ∀ e ∈ e?, e.conf.1 = p
  isZone : ∀ e ∈ e?, e.conf.2.IsZone
  zone : ∀ e ∈ e?, {u | e.conf.2.Contains u} = a.successors D
  bounds : ∀ e ∈ e?, {t | e.Active t} = a.delays D

end Effect

namespace TATransition
variable (tr : TATransition)

/-- The guard and the resets of the transition. -/
def effect (n : ℕ) : Effect n where
  guard u := ∀ g ∈ tr.guard, g.SatisfiedBy u
  reset u := fun x => if ∃ y ∈ tr.resetVars, y.toNat = x.val then 0 else u x

/-- The same as the matrices test it, where the clock `255` is always `0`. -/
def testedEffect (n : ℕ) : Effect n where
  guard u := ∀ g ∈ tr.guard, g.x = 255 ∧ g.tested 0 = true ∨
    g.x ≠ 255 ∧ ∃ h : g.x.toNat < n, g.tested (u ⟨g.x.toNat, h⟩) = true
  reset u := fun x => if ∃ y ∈ tr.resetVars, y ≠ 255 ∧ y.toNat = x.val then 0 else u x

/-- The guard and the resets on the rows of the matrices. -/
def rowEffect (n : ℕ) : Effect n where
  guard u := ∀ g ∈ tr.guard, g.HoldsAt (valuation u)
  reset u := clocks (resetRows tr.resetVars (valuation u))

/-- The clocks that the transition names are below `n`. -/
def InRange (n : ℕ) : Prop := ∀ x, tr.Names x → x.toNat < n

end TATransition

/-! ## The rows -/

theorem row_eq_succ {x : ClockVariables} (hx : HasRow n x) :
    row n x = (⟨x.toNat, hx.1⟩ : Fin n).succ :=
  Fin.ext hx.val_row

theorem row_mem_lowRows (x : ClockVariables) : row n x ∈ DBM.lowRows n := by
  rw [DBM.mem_lowRows, row, Fin.val_ofNat]
  exact (Nat.mod_le _ _).trans_lt (x + 1).toNat_lt

theorem resetRows_apply (xs : List ClockVariables) (v : Fin (n + 1) → ℚ) (i : Fin (n + 1)) :
    resetRows xs v i = if ∃ y ∈ xs, row n y = i then v 0 else v i := by
  induction xs generalizing v with
  | nil => simp [resetRows]
  | cons x xs ih =>
    have h0 : v (resetIndex 0 (row n x) 0) = v 0 := by rw [resetIndex_ref]
    change resetRows xs (fun i => v (resetIndex 0 (row n x) i)) i = _
    rw [ih, h0]
    simp only [List.mem_cons, exists_eq_or_imp]
    by_cases hxs : ∃ y ∈ xs, row n y = i
    · rw [if_pos hxs, if_pos (Or.inr hxs)]
    · rw [if_neg hxs]
      by_cases hx : row n x = i
      · rw [if_pos (Or.inl hx), ← hx]
        exact congrArg v (if_pos rfl)
      · rw [if_neg (not_or.2 ⟨hx, hxs⟩)]
        exact congrArg v (if_neg (Ne.symm hx))

/-- On the rows, the reset of the clock `255` does nothing. -/
theorem clocks_resetRows {xs : List ClockVariables} (hxs : ∀ y ∈ xs, y.toNat < n)
    (u : Fin n → ℚ) (x : Fin n) : clocks (resetRows xs (valuation u)) x =
      if ∃ y ∈ xs, y ≠ 255 ∧ y.toNat = x.val then 0 else u x := by
  unfold clocks
  rw [resetRows_apply, resetRows_apply, ite_self, valuation_zero, sub_zero, valuation_succ]
  refine if_congr (exists_congr fun y => and_congr_right fun hy => ?_) rfl rfl
  by_cases hy255 : y = 255
  · rw [hy255, row_ref]
    exact iff_of_false (Fin.succ_ne_zero x).symm fun e => e.1 rfl
  · rw [row_eq_succ ⟨hxs y hy, hy255⟩, Fin.succ_inj, Fin.ext_iff]
    exact (and_iff_right hy255).symm

/-- Only the distances from the reference point matter. -/
theorem clocks_resetRows_clocks (xs : List ClockVariables) (w : Fin (n + 1) → ℚ) :
    clocks (resetRows xs (valuation (clocks w))) = clocks (resetRows xs w) := by
  funext x
  unfold clocks
  have h0 : ∀ v : Fin (n + 1) → ℚ, resetRows xs v 0 = v 0 := by
    intro v
    rw [resetRows_apply, ite_self]
  rw [h0, h0, resetRows_apply, resetRows_apply, valuation_zero, sub_zero]
  split_ifs
  · exact (sub_self _).symm
  · rfl

theorem clocks_delay (t : ℚ) (v : Fin (n + 1) → ℚ) : clocks (delay t v) = later t (clocks v) := by
  funext x
  unfold clocks delay later
  rw [Function.update_self, Function.update_of_ne (Fin.succ_ne_zero x)]
  ring

namespace TATransition
variable {tr : TATransition}

theorem rowEffect_guard_clocks {w : Fin (n + 1) → ℚ} :
    (tr.rowEffect n).guard (clocks w) ↔ ∀ g ∈ tr.guard, g.HoldsAt w := by
  refine forall_congr' fun g => forall_congr' fun _ => ?_
  unfold Constraint.HoldsAt
  rw [valuation_clocks, valuation_zero, sub_zero]

theorem rowEffect_reset_clocks (w : Fin (n + 1) → ℚ) :
    (tr.rowEffect n).reset (clocks w) = clocks (resetRows tr.resetVars w) :=
  clocks_resetRows_clocks tr.resetVars w

/-- On the rows, the clock `255` is the reference point. -/
theorem rowEffect_eq (h : tr.InRange n) : tr.rowEffect n = tr.testedEffect n := by
  have hrow : ∀ x, tr.Names x → x ≠ 255 → HasRow n x := fun x hx h255 => ⟨h x hx, h255⟩
  refine Effect.ext (funext fun u => propext ?_) (funext fun u => funext fun x => ?_)
  · refine forall_congr' fun g => forall_congr' fun hg => ?_
    have hname : tr.Names g.x := Or.inl ⟨g, hg, rfl⟩
    unfold Constraint.HoldsAt
    rw [valuation_zero, sub_zero]
    by_cases hx : g.x = 255
    · rw [hx, row_ref, valuation_zero]
      simp
    · rw [row_eq_succ (hrow _ hname hx), valuation_succ]
      simp [hx, h _ hname]
  · exact clocks_resetRows (fun y hy => h y (Or.inr hy)) u x

/-- If the transition fits, the tests are those of its guard. -/
theorem testedEffect_eq (h : tr.Fits n) : tr.testedEffect n = tr.effect n := by
  refine Effect.ext (funext fun u => propext ?_) (funext fun u => funext fun x => ?_)
  · refine forall_congr' fun g => forall_congr' fun hg => ?_
    have hx : g.x ≠ 255 := (h.hasRow g.x (Or.inl ⟨g, hg, rfl⟩)).2
    rw [Constraint.tested_eq_satisfy (h.no_overflow g hg)]
    simp [hx, Constraint.SatisfiedBy]
  · refine if_congr (exists_congr fun y => and_congr_right fun hy => ?_) rfl rfl
    exact and_iff_right (h.hasRow y (Or.inr hy)).2

/-- The low rows suffice for the delays into a guard. -/
theorem rowEffect_delays (tr : TATransition) (Z : Zone n) (M : Bounds) :
    (tr.rowEffect n).delays ⟨Z.bound, M⟩ =
        DBM.delaysOn (DBM.lowRows n) ⟨Z.bound, M⟩ (constraintsToDBM n tr.guard) ∧
      (tr.rowEffect n).delays ⟨Z.bound, M⟩ =
        DBM.delays ⟨Z.bound, M⟩ (constraintsToDBM n tr.guard) := by
  have h₁ : (tr.rowEffect n).delays ⟨Z.bound, M⟩ ⊆
      DBM.delays ⟨Z.bound, M⟩ (constraintsToDBM n tr.guard) := by
    rintro t ⟨ht, u, hu, hg⟩
    refine ⟨ht, u, hu, DBM.sat_constraintsToDBM (fun j => ?_) hg⟩
    refine Fin.cases le_rfl (fun x => ?_) j
    have hx : 0 ≤ u x := Z.le_of_sat hu x.succ
    exact add_nonneg hx ht.le
  have h₂ : DBM.delaysOn (DBM.lowRows n) ⟨Z.bound, M⟩ (constraintsToDBM n tr.guard) ⊆
      (tr.rowEffect n).delays ⟨Z.bound, M⟩ := by
    rintro t ⟨ht, u, hu, hz⟩
    -- the values of the other clocks can be chosen in the zone
    obtain ⟨w, hw, he⟩ := Z.closed.extend_all hu
    have hlow : ∀ i ∈ DBM.lowRows n,
        valuation (later t (clocks w)) i = valuation (later t u) i := by
      intro i
      refine Fin.cases (fun _ => rfl) (fun x hx => ?_) i
      rw [valuation_succ, valuation_succ, later, clocks, he _ hx, he 0 DBM.zero_mem_lowRows,
        valuation_zero, sub_zero]
      rfl
    refine ⟨ht, clocks w, DBM.contains_clocks.2 hw, fun g hg => ?_⟩
    obtain ⟨x, y, c, htighten, -, hc⟩ := DBM.exists_tightenBy_eq n g
    rw [← hc, hlow _ (row_mem_lowRows x), hlow _ (row_mem_lowRows y)]
    exact (hz _ (row_mem_lowRows x) _ (row_mem_lowRows y)).mono
      (DBM.constraintsToDBM_le hg htighten)
  have h₃ := DBM.delays_subset_delaysOn (DBM.lowRows n) ⟨Z.bound, M⟩ (constraintsToDBM n tr.guard)
  exact ⟨(h₁.trans h₃).antisymm h₂, h₁.antisymm (h₃.trans h₂)⟩

end TATransition

/-! ## The entries -/

theorem Effect.delays_congr {a : Effect n} {D D' : DBM n} (h : ∀ u, D.Contains u ↔ D'.Contains u) :
    a.delays D = a.delays D' := by
  unfold delays
  simp only [h]

/-- The bounds on the delay are exact. -/
theorem Zone.holds_duration_iff {Z : Zone n} {tr : TATransition} {M : Bounds}
    (h : ((tr.rowEffect n).delays ⟨Z.bound, M⟩).Nonempty) {t : ℚ} :
    ((Z.duration tr.guard).1.Holds (-t) ∧ (Z.duration tr.guard).2.Holds t) ↔
      t ∈ (tr.rowEffect n).delays ⟨Z.bound, M⟩ := by
  have hM : (tr.rowEffect n).delays ⟨Z.bound, M⟩ = (tr.rowEffect n).delays ⟨Z.bound, 0⟩ :=
    Effect.delays_congr fun u => Iff.rfl
  rw [hM] at h ⊢
  obtain ⟨hlow, hall⟩ := TATransition.rowEffect_delays tr Z 0
  rw [hall] at h
  rw [hlow]
  exact DBM.inBounds_iff h

/-- A delay into the guard fires the transition. -/
theorem fires_of_rowEffect {tr : TATransition} {u : Fin n → ℚ} {t : ℚ} (ht : 0 < t)
    (hg : (tr.rowEffect n).guard (later t u)) :
    Fires tr t (valuation u) (resetRows tr.resetVars (delay t (valuation u))) := by
  refine ⟨ht, ?_, rfl⟩
  rw [← TATransition.rowEffect_guard_clocks, clocks_delay, clocks_valuation]
  exact hg

/-- **Entries** are exact for the effects on the rows. -/
theorem exact_successor {D : DBM n} (hD : D.IsZone) (tr : TATransition) :
    (tr.rowEffect n).Exact D (lock tr) (successor D tr) := by
  obtain ⟨Z, hZ⟩ := hD.exists_represents
  have hdelays : (tr.rowEffect n).delays D = (tr.rowEffect n).delays ⟨Z.bound, D.M⟩ :=
    Effect.delays_congr fun u => hZ.sat_iff
  rcases successor_cases hZ tr with ⟨D', Z', hsucc, hD', -, he⟩ | ⟨hnone, he⟩
  · -- the successor has a valuation, so there is a delay
    have hne : ((tr.rowEffect n).delays D).Nonempty := by
      obtain ⟨v', hv'⟩ := Z'.closed.exists_sat
      obtain ⟨v, hv, t, ht, hg, -⟩ := (hsucc.sat_iff v').1 hv'
      refine ⟨t, ht, clocks v, DBM.contains_clocks.2 (hZ.sat_iff.2 hv), ?_⟩
      rw [← clocks_delay, TATransition.rowEffect_guard_clocks]; exact hg
    rw [he]
    refine ⟨iff_of_true rfl hne, ?_, ?_, ?_, ?_⟩ <;> rintro _ ⟨⟩
    · rfl
    · exact hD'.isZone
    · refine Set.ext fun u' => ⟨fun hu' => ?_, ?_⟩
      · obtain ⟨v, hv, t, ht, hg, he⟩ := (hsucc.sat_iff _).1 (hD'.sat_iff.1 hu')
        refine ⟨clocks v, t, DBM.contains_clocks.2 (hZ.sat_iff.2 hv), ht, ?_, ?_⟩
        · rw [← clocks_delay, TATransition.rowEffect_guard_clocks]; exact hg
        · rw [← clocks_delay, TATransition.rowEffect_reset_clocks, ← he, clocks_valuation]
      · rintro ⟨u, t, hu, ht, hg, rfl⟩
        rw [← clocks_valuation u, ← clocks_delay, TATransition.rowEffect_reset_clocks]
        refine DBM.contains_clocks.2 (hD'.sat_iff.2 ((hsucc.sat_iff _).2 ?_))
        exact ⟨_, hZ.sat_iff.1 hu, t, fires_of_rowEffect ht hg⟩
    · rw [hdelays] at hne ⊢
      exact Set.ext fun t => Zone.holds_duration_iff hne
  · rw [he]
    refine ⟨iff_of_false Bool.false_ne_true ?_, ?_, ?_, ?_, ?_⟩ <;> try (rintro _ ⟨⟩)
    rintro ⟨t, ht, u, hu, hg⟩
    obtain ⟨⟨Z', hZ'⟩, -⟩ := Zone.exists_succ (hZ.sat_iff.1 hu) (fires_of_rowEffect ht hg)
    exact hnone Z' hZ'

/-- An entry is exact for any effect with the same delays and the same successors. -/
theorem exact_successor_iff {D : DBM n} (hD : D.IsZone) (tr : TATransition) (a : Effect n) :
    a.Exact D (lock tr) (successor D tr) ↔
      a.delays D = (tr.rowEffect n).delays D ∧ a.successors D = (tr.rowEffect n).successors D := by
  have hrow := exact_successor hD tr
  constructor
  · intro ha
    cases he : successor D tr with
    | none =>
      rw [he] at ha hrow
      -- without a delay there is no successor
      have hempty : ∀ b : Effect n, b.Exact D (lock tr) none →
          b.delays D = ∅ ∧ b.successors D = ∅ := by
        intro b hb
        have hno : ¬ (b.delays D).Nonempty := fun hne => Bool.false_ne_true (hb.isSome_iff.2 hne)
        refine ⟨Set.not_nonempty_iff_eq_empty.1 hno, Set.eq_empty_of_forall_notMem ?_⟩
        rintro u' ⟨u, t, hu, ht, hg, -⟩
        exact hno ⟨t, ht, u, hu, hg⟩
      obtain ⟨h₁, h₂⟩ := hempty a ha
      obtain ⟨h₃, h₄⟩ := hempty _ hrow
      exact ⟨h₁.trans h₃.symm, h₂.trans h₄.symm⟩
    | some e =>
      rw [he] at ha hrow
      exact ⟨(ha.bounds e rfl).symm.trans (hrow.bounds e rfl),
        (ha.zone e rfl).symm.trans (hrow.zone e rfl)⟩
  · rintro ⟨h₁, h₂⟩
    refine ⟨?_, hrow.target, hrow.isZone, ?_, ?_⟩
    · rw [h₁]; exact hrow.isSome_iff
    · rw [h₂]; exact hrow.zone
    · rw [h₁]; exact hrow.bounds

/-! ## `constructNexts` -/

section
variable (A : AutomatonWithCounter TATransition) (s : List (Conf n))

/-- The entries of a letter are those of the transitions on it. -/
theorem getD_lookup_constructNexts (c : UInt8) : ((constructNexts A s).lookup c).getD [] =
    s.flatMap fun p => (A.next p.1 c).filterMap (successor p.2) := by
  cases h : (constructNexts A s).lookup c with
  | none =>
    symm
    rw [Option.getD_none, List.flatMap_eq_nil_iff]
    intro p hp
    rw [next_eq_nil_of_constructNexts h p hp, List.filterMap_nil]
  | some es =>
    rw [lookup_constructNexts] at h
    split_ifs at h
    exact (Option.some.inj h).symm

/-- The entries of each letter are those of the transitions on it from the configurations,
    and each is exact if the configuration is a zone and the clocks are in range. -/
structure NextsExact : Prop where
  entries : ∀ c, ((constructNexts A s).lookup c).getD [] =
    s.flatMap fun p => (A.next p.1 c).filterMap (successor p.2)
  exact : ∀ p ∈ s, p.2.IsZone → ∀ c, ∀ tr ∈ A.next p.1 c, tr.InRange n →
    (tr.effect n).Exact p.2 (lock tr) (successor p.2 tr)

/-- Wherever a transition in range is taken from a zone, it makes no difference to the delays
    and to the valuations after it to read the clock `255` as `0`, not to reset it, and to
    negate the lower bounds as an `int`. -/
def TestsHarmless : Prop :=
  ∀ p ∈ s, p.2.IsZone → ∀ c, ∀ tr ∈ A.next p.1 c, tr.InRange n →
    (tr.effect n).delays p.2 = (tr.testedEffect n).delays p.2 ∧
      (tr.effect n).successors p.2 = (tr.testedEffect n).successors p.2

variable {A s}

theorem nextsExact_iff_harmless : NextsExact A s ↔ TestsHarmless A s := by
  have hiff : ∀ p ∈ s, p.2.IsZone → ∀ c, ∀ tr ∈ A.next p.1 c, tr.InRange n →
      ((tr.effect n).Exact p.2 (lock tr) (successor p.2 tr) ↔
        (tr.effect n).delays p.2 = (tr.testedEffect n).delays p.2 ∧
          (tr.effect n).successors p.2 = (tr.testedEffect n).successors p.2) := by
    intro p _ hzone c tr _ hrange
    rw [exact_successor_iff hzone, TATransition.rowEffect_eq hrange]
  constructor
  · intro hE p hp hzone c tr htr hrange
    exact (hiff p hp hzone c tr htr hrange).1 (hE.exact p hp hzone c tr htr hrange)
  · intro hH
    refine ⟨getD_lookup_constructNexts A s, fun p hp hzone c tr htr hrange => ?_⟩
    exact (hiff p hp hzone c tr htr hrange).2 (hH p hp hzone c tr htr hrange)

theorem testsHarmless_of_fits
    (h : ∀ p ∈ s, ∀ c, ∀ tr ∈ A.next p.1 c, tr.InRange n → tr.Fits n) : TestsHarmless A s := by
  intro p hp _ c tr htr hrange
  rw [TATransition.testedEffect_eq (h p hp c tr htr hrange)]
  exact ⟨rfl, rfl⟩

end

/-! ## Harmful tests -/

/-- The loop on `a` with one constraint, with a counter. -/
def guardLoop (g : Constraint) : AutomatonWithCounter TATransition :=
  { (FiniteAutomaton.loop 97 [(⟨0, [], [g]⟩ : TATransition)] (by simp [lock])).toAutomaton with
    counter := fun _ => 0 }

theorem guardLoop_next (g : Constraint) (s : Ptr) (c : UInt8) : (guardLoop g).next s c =
    if c = 97 then [(⟨0, [], [g]⟩ : TATransition)] else [] :=
  NDState.next_loop 97 _ c

theorem guardLoop_inRange {g : Constraint} (hg : g.x.toNat < n) :
    (⟨0, [], [g]⟩ : TATransition).InRange n := by
  rintro x (⟨g', hg', rfl⟩ | hx)
  · rw [List.mem_singleton.1 hg']; exact hg
  · exact absurd hx List.not_mem_nil

/-- Its state, with the zone where all clocks are `0`. -/
def zeroConf (n : ℕ) : Conf n := (0, DBM.zero n)

theorem zeroConf_isZone : (zeroConf n).2.IsZone :=
  (DBM.represents_zero (.fin 0 false)).isZone

theorem zeroConf_contains {u : Fin n → ℚ} : (zeroConf n).2.Contains u ↔ u = fun _ => 0 := by
  have hsat : (zeroConf n).2.Contains u ↔ ∀ i, valuation u i = valuation u 0 :=
    (DBM.represents_zero (.fin 0 false)).sat_iff.trans Zone.sat_zero
  rw [hsat, funext_iff]
  refine ⟨fun h x => h x.succ, fun h i => Fin.cases rfl (fun x => h x) i⟩

/-- A delay after which the constraint is satisfied. -/
theorem guardLoop_mem_delays {g : Constraint} (hg : g.x.toNat < n) {t : ℚ} (ht : 0 < t)
    (hsat : g.satisfy t = true) :
    t ∈ ((⟨0, [], [g]⟩ : TATransition).effect n).delays (zeroConf n).2 := by
  refine ⟨ht, fun _ => 0, zeroConf_contains.2 rfl, fun g' hg' => ?_⟩
  rw [List.mem_singleton.1 hg']
  refine ⟨hg, ?_⟩
  rw [later, zero_add]; exact hsat

/-- If its test fails, the constraint is not exact. -/
theorem not_nextsExact_guardLoop {g : Constraint} (hg : g.x.toNat < n) {t : ℚ} (ht : 0 < t)
    (hsat : g.satisfy t = true) (htest : ∀ u, u = 0 ∨ g.x ≠ 255 ∧ u = t → g.tested u = false) :
    ¬ NextsExact (guardLoop g) [zeroConf n] := by
  intro h
  obtain ⟨hdelays, -⟩ := nextsExact_iff_harmless.1 h _ (List.mem_singleton_self _) zeroConf_isZone
    97 ⟨0, [], [g]⟩ (by rw [guardLoop_next]; simp) (guardLoop_inRange hg)
  have hmem := guardLoop_mem_delays hg ht hsat
  rw [hdelays] at hmem
  obtain ⟨-, u, hu, hguard⟩ := hmem
  rw [zeroConf_contains.1 hu] at hguard
  rcases hguard g (List.mem_singleton_self g) with ⟨-, hzero⟩ | ⟨hx, hlt, hlater⟩
  · rw [htest 0 (Or.inl rfl)] at hzero
    exact Bool.false_ne_true hzero
  · rw [later, zero_add, htest t (Or.inr ⟨hx, rfl⟩)] at hlater
    exact Bool.false_ne_true hlater

theorem not_nextsExact_late (hn : 255 < n) :
    ¬ NextsExact (guardLoop ⟨255, .gt, 1⟩) [zeroConf n] := by
  refine not_nextsExact_guardLoop hn (t := 2) two_pos (by decide +kernel) ?_
  rintro u (rfl | ⟨h, -⟩)
  · decide +kernel
  · exact absurd rfl h

theorem not_nextsExact_overflow (hn : 0 < n) :
    ¬ NextsExact (guardLoop ⟨0, .ge, Int32.minValue⟩) [zeroConf n] := by
  refine not_nextsExact_guardLoop hn (t := 1) one_pos (by decide +kernel) ?_
  rintro u (rfl | ⟨-, rfl⟩) <;> decide +kernel

/-- **Exactness.** The entries are exact iff the tests make no difference.  They are exact for
    all automata with `n` clocks iff there is no clock, and for those without a lower bound
    that overflows iff `n` is at most `255`. -/
theorem nextsExact_iff (n : ℕ) :
    (∀ (A : AutomatonWithCounter TATransition) (s : List (Conf n)),
      NextsExact A s ↔ TestsHarmless A s) ∧
    ((∀ (A : AutomatonWithCounter TATransition) (s : List (Conf n)), NextsExact A s) ↔ n = 0) ∧
    ((∀ (A : AutomatonWithCounter TATransition) (s : List (Conf n)),
      (∀ p ∈ s, ∀ c, ∀ tr ∈ A.next p.1 c, ∀ g ∈ tr.guard, ¬ g.Overflows) → NextsExact A s) ↔
        n ≤ 255) := by
  refine ⟨fun A s => nextsExact_iff_harmless, ⟨fun hall => ?_, ?_⟩, fun hall => ?_,
    fun hn A s hover => ?_⟩
  · by_contra hn
    exact not_nextsExact_overflow (Nat.pos_of_ne_zero hn) (hall _ _)
  · rintro rfl A s
    -- a transition in range names no clock
    refine nextsExact_iff_harmless.2 (testsHarmless_of_fits fun p _ c tr _ hrange => ?_)
    exact ⟨fun x hx => absurd (hrange x hx) (Nat.not_lt_zero _),
      fun g hg => absurd (hrange g.x (Or.inl ⟨g, hg, rfl⟩)) (Nat.not_lt_zero _)⟩
  · by_contra hn
    refine not_nextsExact_late (not_le.1 hn) (hall _ _ fun p _ c tr htr g hg => ?_)
    rw [guardLoop_next] at htr
    split_ifs at htr
    · rw [List.mem_singleton.1 htr] at hg
      rw [List.mem_singleton.1 hg]; decide
    · exact absurd htr List.not_mem_nil
  · refine nextsExact_iff_harmless.2 (testsHarmless_of_fits fun p hp c tr htr hrange => ?_)
    refine ⟨fun x hx => ⟨hrange x hx, ?_⟩, hover p hp c tr htr⟩
    rintro rfl
    have := hrange 255 hx
    rw [show (255 : ClockVariables).toNat = 255 from rfl] at this
    omega

/-- For 256 clocks, a transition that a delay of `2` enables has no entry. -/
theorem guardLoop_no_entry : (zeroConf 256).2.IsZone ∧
    (⟨0, [], [⟨255, .gt, 1⟩]⟩ : TATransition).InRange 256 ∧
    (2 : ℚ) ∈ ((⟨0, [], [⟨255, .gt, 1⟩]⟩ : TATransition).effect 256).delays (zeroConf 256).2 ∧
    ((constructNexts (guardLoop ⟨255, .gt, 1⟩) [zeroConf 256]).lookup 97).getD [] = [] := by
  have hzone := zeroConf_isZone (n := 256)
  have hrange : (⟨0, [], [⟨255, .gt, 1⟩]⟩ : TATransition).InRange 256 :=
    guardLoop_inRange (by decide)
  refine ⟨hzone, hrange, guardLoop_mem_delays (by decide) two_pos (by decide +kernel), ?_⟩
  have hE := exact_successor hzone (⟨0, [], [⟨255, .gt, 1⟩]⟩ : TATransition)
  have hnone : successor (zeroConf 256).2 (⟨0, [], [⟨255, .gt, 1⟩]⟩ : TATransition) = none := by
    rw [← Option.not_isSome_iff_eq_none, hE.isSome_iff, TATransition.rowEffect_eq hrange]
    rintro ⟨t, -, u, -, hg⟩
    rcases hg _ (List.mem_singleton_self _) with ⟨-, h⟩ | ⟨h, -⟩
    · exact absurd h (by decide +kernel)
    · exact h rfl
  rw [getD_lookup_constructNexts, List.flatMap_singleton, guardLoop_next, if_pos rfl]
  exact List.filterMap_cons_none hnone

end MooreFilter

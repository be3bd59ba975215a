/-
  Finiteness of the zone graph.

  The zones are not abstracted, so their bounds may grow without limit.

  * `isInt_of_reaches`: the bounds are by integers;
  * `BoundedRuns A n`: along every path, the time between the last resets of two
    clocks is not bounded or at most a fixed number, which does not depend on the
    path;
  * `finite_zoneGraph_iff`: the zone graph is finite iff the runs are so bounded;
  * `finite_confTuples_iff_boundedRuns`: hence the configurations of the code are
    finitely many iff the runs of the timed automaton are so bounded.
-/
import MooreFilter.Lib.Spread
import MooreFilter.Proof.Timed
import MooreFilter.Proof.TimedRuns
import Mathlib.Algebra.Order.Archimedean.Basic
import Mathlib.Data.Rat.Floor
import Mathlib.Data.Set.Finite.Lattice

namespace MooreFilter

open Difference (Sat Within BoundsLe)

variable {n : ℕ}

/-! ## Bounds by integers -/

/-- The distance of a bound from `0`, and `0` for none. -/
def Bounds.magnitude : Bounds → ℚ
  | .fin c _ => |c|
  | .inf => 0

/-- The entries are integers or infinite. -/
def DBM.IsInt (D : DBM n) : Prop := ∀ i j, (D.value i j).IsInt

namespace DBM.IsInt
variable {D : DBM n}

theorem close1 (h : D.IsInt) (x : Fin (n + 1)) : (D.close1 x).IsInt := by
  unfold DBM.close1
  generalize List.finRange (n + 1) = l
  induction l generalizing D with
  | nil => exact h
  | cons i l ih =>
    refine ih fun k j => ?_
    rcases eq_or_ne k i with rfl | hk
    · rw [value_closeRow_self]; exact (h k j).min ((h x j).add (h k x))
    · rw [value_closeRow_of_ne D hk]; exact h k j

theorem canonize (h : D.IsInt) : D.canonize.IsInt := by
  unfold DBM.canonize
  generalize List.range (n + 1) = l
  induction l generalizing D with
  | nil => exact h
  | cons k l ih => exact ih (h.close1 _)

theorem set (h : D.IsInt) (x y : Fin (n + 1)) {b : Bounds} (hb : b.IsInt) :
    (D.set x y b).IsInt := by
  intro i j
  unfold DBM.set
  dsimp only
  split_ifs
  exacts [hb, h i j]

theorem tighten (h : D.IsInt) (x y : ClockVariables) {c : Bounds} (hc : c.IsInt) :
    (D.tighten x y c).IsInt :=
  ((h.set _ _ ((h _ _).min hc)).close1 _).close1 _

theorem tightenBy (h : D.IsInt) (g : Constraint) : (D.tightenBy g).IsInt := by
  unfold DBM.tightenBy
  cases g.odr with
  | lt => exact h.tighten _ _ (Bound.isInt_fin _ _)
  | le => exact h.tighten _ _ (Bound.isInt_fin _ _)
  | gt => exact h.tighten _ _ (Bound.isInt_fin _ _)
  | ge => exact h.tighten _ _ (Bound.isInt_fin _ _)

theorem elapse (h : D.IsInt) : D.elapse.IsInt := by
  intro i j
  unfold DBM.elapse
  dsimp only
  split_ifs
  exacts [(Bound.isInt_inf (K := ℚ)).strict, (h i j).strict, Bound.isInt_inf, h i j]

theorem reset (h : D.IsInt) (x : ClockVariables) : (D.reset x).IsInt := by
  have h0 : (Bound.fin (0 : ℚ) true).IsInt := Bound.isInt_zero
  have hset := (h.set 0 (row n x) h0).set (row n x) 0 h0
  intro i j
  unfold DBM.reset
  dsimp only
  split_ifs
  exacts [hset _ _, hset _ _, hset _ _, hset _ _]

theorem successor (h : D.IsInt) {tr : TATransition} {e : Entry n}
    (he : MooreFilter.successor D tr = some e) : e.conf.2.IsInt := by
  have hguard : ∀ (guard : List Constraint) {D : DBM n}, D.IsInt →
      (guard.foldl DBM.tightenBy D).IsInt := by
    intro guard
    induction guard with
    | nil => exact id
    | cons g guard ih => exact fun h => ih (h.tightenBy g)
  have hreset : ∀ (xs : List ClockVariables) {D : DBM n}, D.IsInt →
      (xs.foldl DBM.reset D).IsInt := by
    intro xs
    induction xs with
    | nil => exact id
    | cons x xs ih => exact fun h => ih (h.reset x)
  unfold MooreFilter.successor at he
  dsimp only at he
  split_ifs at he
  obtain rfl := Option.some.inj he
  exact hreset _ (hguard _ h.elapse).canonize

end DBM.IsInt

section
variable {A : AutomatonWithCounter TATransition} {M : Bounds}

theorem isInt_of_reaches {q : Conf n} (h : Reaches A n M q) : q.2.IsInt := by
  induction h with
  | initial hq =>
    intro i j
    rw [(mem_initConfs.1 hq).2]; exact Bound.isInt_zero
  | next _ hes he ih =>
    obtain ⟨p', hp', tr, -, he⟩ := (mem_constructNexts hes _).1 he
    obtain rfl := List.mem_singleton.1 hp'
    exact ih.successor he

/-- The bounds of the nodes of the zone graph are by integers. -/
theorem isInt_of_mem_zoneGraph {z : ZConf n} (hz : z ∈ zoneGraph A.toAutomaton n)
    (i j : Fin (n + 1)) : (z.2.bound i j).IsInt := by
  obtain ⟨q, hq, hqz⟩ := exists_reaches (M := .inf) hz
  by_cases hij : i = 0 ∧ j = 0
  · rw [hij.1, hij.2, z.2.closed.diag]; exact Bound.isInt_zero
  · rw [← hqz.zone.eq i j hij]; exact isInt_of_reaches hq i j

end

/-! ## Bounded runs -/

/-- The time between the last resets of two clocks, or since one, at the end of a
    path is not bounded or at most a fixed number, and at most this in some run. -/
def BoundedRuns (A : Automaton (NDState TATransition)) (n : ℕ) : Prop :=
  ∃ k : ℚ, ∀ π s, Path A π s → (valuationsAfter n π).Nonempty → Within k (valuationsAfter n π)

/-- The zone graph is finite iff the runs are bounded. -/
theorem finite_zoneGraph_iff {A : AutomatonWithCounter TATransition} {S : Set Ptr} (hS : S.Finite)
    (hA : ∀ z ∈ zoneGraph A.toAutomaton n, z.1 ∈ S) :
    (zoneGraph A.toAutomaton n).Finite ↔ BoundedRuns A.toAutomaton n := by
  constructor
  · intro hfin
    -- all finite bounds of the zones are up to `k`
    obtain ⟨k, hk⟩ : ∃ k : ℚ, ∀ z ∈ zoneGraph A.toAutomaton n, BoundsLe k z.2.bound := by
      have hbdd : (⋃ z ∈ zoneGraph A.toAutomaton n,
          {c : ℚ | ∃ i j d s, z.2.bound i j = .fin d s ∧ |d| = c}).Finite := by
        refine hfin.biUnion fun z _ => ?_
        refine (Set.finite_range fun x : Fin (n + 1) × Fin (n + 1) =>
          (z.2.bound x.1 x.2).magnitude).subset ?_
        rintro c ⟨i, j, d, s, hb, rfl⟩
        exact ⟨(i, j), by dsimp only; rw [hb]; rfl⟩
      obtain ⟨k, hk⟩ := hbdd.bddAbove
      exact ⟨k, fun z hz i j d s hb => hk (Set.mem_biUnion hz ⟨i, j, d, s, hb, rfl⟩)⟩
    refine ⟨k + 1, fun π s hπ hrun => ?_⟩
    obtain ⟨Z, hZ, hsat⟩ := hπ.exists_zone hrun
    have hV : valuationsAfter n π = {v | Sat Z.bound v} := by
      ext v
      exact (hsat v).symm
    rw [hV]
    exact Z.closed.within (hk _ hZ)
  · rintro ⟨k, hk⟩
    have hinj : Function.Injective fun z : ZConf n => (z.1, z.2.bound) := by
      rintro ⟨p, Z⟩ ⟨q, Z'⟩ h
      obtain ⟨hp, hZ⟩ := Prod.mk.inj h
      exact Prod.ext hp (Zone.ext_bound hZ)
    refine Set.Finite.of_finite_image (f := fun z : ZConf n => (z.1, z.2.bound)) ?_ hinj.injOn
    refine (hS.prod (Difference.finite_setOf_isInt k)).subset ?_
    rintro _ ⟨z, hz, rfl⟩
    obtain ⟨π, hπ, hsat⟩ := exists_path hz
    have hV : valuationsAfter n π = {v | Sat z.2.bound v} := by
      ext v
      exact (hsat v).symm
    obtain ⟨v, hv⟩ := z.2.closed.exists_sat
    have hwithin := hk π z.1 hπ ⟨v, (hsat v).1 hv⟩
    rw [hV] at hwithin
    exact ⟨hA z hz, z.2.closed.boundsLe hwithin, isInt_of_mem_zoneGraph hz⟩

/-! ## The timed automaton -/

section
variable {A : FiniteAutomaton TATransition} {N : ℕ} {B : AutomatonWithCounter TATransition}
  {src : Ptr → Ptr × ℕ}

/-- Transitions with other targets lead to the same valuations. -/
theorem valuationsAfter_append_congr {π π' : List TATransition}
    (h : valuationsAfter n π = valuationsAfter n π') (tr : TATransition) (p : Ptr) :
    valuationsAfter n (π ++ [tr]) = valuationsAfter n (π' ++ [assign tr p]) := by
  ext v'
  rw [mem_valuationsAfter_append, mem_valuationsAfter_append, h]
  refine exists_congr fun v => and_congr_right fun _ => exists_congr fun t => ?_
  exact ⟨fun ⟨h₁, h₂, h₃⟩ => ⟨h₁, h₂, h₃⟩, fun ⟨h₁, h₂, h₃⟩ => ⟨h₁, h₂, h₃⟩⟩

/-- The paths of the automaton with counter are those of the automaton. -/
theorem CounterProduct.exists_path (h : CounterProduct A.toAutomaton N B src)
    {π : List TATransition} {p : Ptr} (hπ : Path B.toAutomaton π p) :
    p ∈ B.states ∧ ∃ π', Path A.toAutomaton π' (src p).1 ∧
      valuationsAfter n π' = valuationsAfter n π := by
  induction hπ with
  | @nil p hp =>
    exact ⟨h.initial_mem p hp, [], .nil (h.src_of_mem_initial hp).1, rfl⟩
  | @snoc π p c tr _ htr ih =>
    obtain ⟨hp, π', hπ', hV⟩ := ih
    obtain ⟨t, ht, hB, hsrc, he⟩ := h.exists_of_mem_next hp htr
    refine ⟨hB, π' ++ [t], ?_, ?_⟩
    · rw [hsrc]; exact hπ'.snoc ht
    · rw [he]; exact valuationsAfter_append_congr hV t _

theorem CounterProduct.exists_path_of_path (h : CounterProduct A.toAutomaton N B src)
    {π : List TATransition} {s : Ptr} (hπ : Path A.toAutomaton π s) :
    ∃ π' p, Path B.toAutomaton π' p ∧ p ∈ B.states ∧ (src p).1 = s ∧
      valuationsAfter n π = valuationsAfter n π' := by
  induction hπ with
  | @nil s hs =>
    obtain ⟨p, hp, he⟩ := h.exists_mem_initial hs
    exact ⟨[], p, .nil hp, h.initial_mem p hp, by rw [he], rfl⟩
  | @snoc π s c tr _ htr ih =>
    obtain ⟨π', p, hπ', hp, rfl, hV⟩ := ih
    obtain ⟨q, hq, hsrc, hmem⟩ := h.exists_mem_next hp htr
    refine ⟨π' ++ [assign tr q], q, ?_, hq, by rw [hsrc], valuationsAfter_append_congr hV tr q⟩
    have := hπ'.snoc hmem
    rwa [lock_assign] at this

/-- The counter does not change the runs. -/
theorem CounterProduct.boundedRuns_iff (h : CounterProduct A.toAutomaton N B src) :
    BoundedRuns B.toAutomaton n ↔ BoundedRuns A.toAutomaton n := by
  constructor
  · rintro ⟨k, hk⟩
    refine ⟨k, fun π s hπ hrun => ?_⟩
    obtain ⟨π', p, hπ', -, -, hV⟩ := h.exists_path_of_path (n := n) hπ
    rw [hV] at hrun ⊢
    exact hk π' p hπ' hrun
  · rintro ⟨k, hk⟩
    refine ⟨k, fun π p hπ hrun => ?_⟩
    obtain ⟨-, π', hπ', hV⟩ := h.exists_path (n := n) hπ
    rw [← hV] at hrun ⊢
    exact hk π' _ hπ' hrun

theorem CounterProduct.finite_iff_boundedRuns (hN : 0 < N)
    (h : CounterProduct A.toAutomaton N B src) (M : Bounds) :
    (confTuples B n M).Finite ↔ BoundedRuns A.toAutomaton n := by
  rw [finite_confTuples_iff, ← h.boundedRuns_iff]
  exact finite_zoneGraph_iff (List.finite_toSet B.states)
    fun z hz => (h.wellFormed hN).mem_states hz

end

/-- **The zone graph is finite iff the runs are bounded.** The configurations that
    iterating `constructNexts` makes for a timed automaton are finitely many iff the
    time between the last resets of two clocks is bounded, where it is.  The maximum
    `M` makes no difference. -/
theorem finite_confTuples_iff_boundedRuns (TA : TimedAutomaton) (addr : Ptr ↪ ℕ) (N : ℕ)
    (hN : 0 < N) (fuel : ℕ) (B : AutomatonWithCounter TATransition)
    (hB : toAutomatonWithCounter addr N TA.toAutomaton fuel = some B) (M : Bounds) :
    (confTuples B TA.clockSize M).Finite ↔ BoundedRuns TA.toAutomaton TA.clockSize := by
  obtain ⟨src, hP⟩ := counterProduct_of_run hN hB
  exact hP.finite_iff_boundedRuns hN _

/-- The configurations of the loop without timing are finitely many iff its runs are
    bounded. -/
theorem finite_confTuples_iff_boundedRuns_freeLoop : ∃ B,
    toAutomatonWithCounter (Function.Embedding.refl ℕ) 1 freeLoop.toAutomaton 5 = some B ∧
      ((confTuples B 1 (.fin 0 true)).Finite ↔ BoundedRuns freeLoop.toAutomaton 1) := by
  obtain ⟨B, hB, -⟩ := toTimedMooreMachine_freeLoop
  exact ⟨B, hB, finite_confTuples_iff_boundedRuns ⟨freeLoop, [0]⟩ (Function.Embedding.refl ℕ) 1
    (by decide) 5 B hB (.fin 0 true)⟩

/-- The transition at the value `1` of the first clock, which it resets. -/
def driftTransition : TATransition := ⟨0, [0], [⟨0, .le, 1⟩, ⟨0, .ge, 1⟩, ⟨1, .ge, 0⟩]⟩

/-- The loop on `a` at each unit of time, with a second clock that is not reset. -/
def driftLoop : TimedAutomaton :=
  ⟨FiniteAutomaton.loop 97 [driftTransition] (by decide), [1, 0]⟩

theorem fires_driftTransition {t : ℚ} {v v' : Fin 3 → ℚ} (hv : v 1 = v 0) :
    Fires driftTransition t v v' → v' 1 = v' 0 ∧ v' 2 - v' 0 = v 2 - v 0 + 1 := by
  rintro ⟨-, hg, rfl⟩
  have hle : v 1 - (v 0 - t) ≤ 1 := by
    have := (Constraint.holdsAt_iff (by decide)).1 (hg ⟨0, .le, 1⟩ (by simp [driftTransition]))
    exact_mod_cast of_decide_eq_true this
  have hge : v 1 - (v 0 - t) ≥ 1 := by
    have := (Constraint.holdsAt_iff (by decide)).1 (hg ⟨0, .ge, 1⟩ (by simp [driftTransition]))
    exact_mod_cast of_decide_eq_true this
  refine ⟨rfl, ?_⟩
  change v 2 - (v 0 - t) = _
  linarith

/-- After `m` events the second clock is at `m`. -/
theorem valuationsAfter_driftTransition (m : ℕ) :
    (∀ v ∈ valuationsAfter 2 (List.replicate m driftTransition), v 1 = v 0 ∧ v 2 - v 0 = m) ∧
      (valuationsAfter 2 (List.replicate m driftTransition)).Nonempty := by
  induction m with
  | zero =>
    refine ⟨fun v hv => ⟨hv 1, ?_⟩, fun _ => 0, fun _ => rfl⟩
    rw [show v 2 = v 0 from hv 2]; simp
  | succ m ih =>
    obtain ⟨hall, v, hv⟩ := ih
    rw [List.replicate_succ']
    constructor
    · intro v' hv'
      obtain ⟨v, hv, t, hfires⟩ := mem_valuationsAfter_append.1 hv'
      obtain ⟨h₁, h₂⟩ := hall v hv
      obtain ⟨h₁', h₂'⟩ := fires_driftTransition h₁ hfires
      exact ⟨h₁', by rw [h₂', h₂]; push_cast; rfl⟩
    · obtain ⟨h₁, h₂⟩ := hall v hv
      refine ⟨_, mem_valuationsAfter_append.2 ⟨v, hv, 1, one_pos, fun g hg => ?_, rfl⟩⟩
      have h0 : delay 1 v 1 - delay 1 v 0 = 1 := by
        change v 1 - (v 0 - 1) = 1
        linarith
      have h2 : 0 ≤ delay 1 v 2 - delay 1 v 0 := by
        change 0 ≤ v 2 - (v 0 - 1)
        have := m.cast_nonneg (α := ℚ)
        linarith
      simp only [driftTransition, List.mem_cons, List.not_mem_nil, or_false] at hg
      rcases hg with rfl | rfl | rfl <;>
        refine (Constraint.holdsAt_iff (by decide)).2 (decide_eq_true ?_)
      · change delay 1 v 1 - delay 1 v 0 ≤ ((1 : ℤ) : ℚ)
        rw [h0]; norm_num
      · change delay 1 v 1 - delay 1 v 0 ≥ ((1 : ℤ) : ℚ)
        rw [h0]; norm_num
      · change delay 1 v 2 - delay 1 v 0 ≥ ((0 : ℤ) : ℚ)
        exact_mod_cast h2

theorem path_driftLoop (m : ℕ) :
    Path driftLoop.toAutomaton (List.replicate m driftTransition) 0 := by
  induction m with
  | zero => exact .nil (List.mem_singleton_self 0)
  | succ m ih =>
    rw [List.replicate_succ']
    refine ih.snoc (c := 97) ?_
    change driftTransition ∈ (NDState.loop 97 [driftTransition]).next 97
    rw [NDState.next_loop, if_pos rfl]
    exact List.mem_singleton_self _

/-- Its configurations are not finitely many: the second clock is further and
    further from the first. -/
theorem not_finite_confTuples_driftLoop : driftLoop.maxBound = some (.fin 1 true) ∧ ∃ fuel B,
    toAutomatonWithCounter (Function.Embedding.refl ℕ) 1 driftLoop.toAutomaton fuel = some B ∧
      ¬ (confTuples B driftLoop.clockSize (.fin 1 true)).Finite := by
  obtain ⟨fuel, B, hB⟩ := toAutomatonWithCounter_terminates (N := 1)
    (A := driftLoop.toFiniteAutomaton) one_pos (Function.Embedding.refl ℕ)
  obtain ⟨src, hP⟩ := counterProduct_of_run one_pos hB
  refine ⟨by decide, fuel, B, hB, fun hfin => ?_⟩
  obtain ⟨k, hk⟩ := (hP.finite_iff_boundedRuns (n := 2) one_pos _).1 hfin
  obtain ⟨m, hm⟩ := exists_nat_gt k
  obtain ⟨hall, v, hv⟩ := valuationsAfter_driftTransition m
  have hbdd : BddAbove {d | ∃ v ∈ valuationsAfter 2 (List.replicate m driftTransition),
      v 2 - v 0 = d} := by
    refine ⟨m, ?_⟩
    rintro _ ⟨v, hv, rfl⟩; exact (hall v hv).2.le
  have hle := (hk _ 0 (path_driftLoop m) ⟨v, hv⟩ 2 0).1 hbdd v hv
  rw [(hall v hv).2] at hle
  exact absurd hle (not_le.2 hm)

end MooreFilter

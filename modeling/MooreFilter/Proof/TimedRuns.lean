/-
  Runs of a timed automaton.

  A valuation gives a number to each row of the matrices: row `0` is the reference
  point, and the value of a clock is its distance from it.  A delay moves the
  reference point away from the clocks, and a reset brings a clock to it, so that
  the difference of two rows is the time between their last resets.

  * `Fires tr t v v'`: after the delay `t`, the transition leads from `v` to `v'`;
  * `resetSystem xs E` is the system after the resets, with the valuations after them
    (`sat_resetSystem`);
  * `Zone.Succ.sat_iff`, `Zone.exists_succ`: the successor of a zone has the
    valuations that a transition leads to from those of the zone;
  * `Path A π s`: the transitions `π` lead to the state `s`, and
    `valuationsAfter n π` are the valuations at the end of its runs;
  * `Path.exists_zone`, `exists_path`: the nodes of the zone graph are the ends of
    paths, with these valuations.
-/
import MooreFilter.Proof.ZoneGraph

namespace MooreFilter

open Difference (Sat Canonical resetIndex resetIndex_ref)

variable {n : ℕ}

/-! ## Events -/

/-- The valuation after a delay. -/
def delay (t : ℚ) (v : Fin (n + 1) → ℚ) : Fin (n + 1) → ℚ := Function.update v 0 (v 0 - t)

/-- The valuation after the resets. -/
def resetRows (xs : List ClockVariables) (v : Fin (n + 1) → ℚ) : Fin (n + 1) → ℚ :=
  xs.foldl (fun v x i => v (resetIndex 0 (row n x) i)) v

/-- After the delay, the transition leads from the one valuation to the other. -/
structure Fires (tr : TATransition) (t : ℚ) (v v' : Fin (n + 1) → ℚ) : Prop where
  pos : 0 < t
  guard : ∀ g ∈ tr.guard, g.HoldsAt (delay t v)
  eq : v' = resetRows tr.resetVars (delay t v)

theorem update_delay (t : ℚ) (v : Fin (n + 1) → ℚ) :
    Function.update (delay t v) 0 (delay t v 0 + t) = v := by
  simp [delay]

theorem delay_update (t : ℚ) (w : Fin (n + 1) → ℚ) :
    delay t (Function.update w 0 (w 0 + t)) = w := by
  simp [delay]

/-! ## Resets -/

section
variable {E : Fin (n + 1) → Fin (n + 1) → Bounds}

/-- The system after the resets. -/
def resetSystem (xs : List ClockVariables) (E : Fin (n + 1) → Fin (n + 1) → Bounds) :
    Fin (n + 1) → Fin (n + 1) → Bounds :=
  xs.foldl (fun E x i j => E (resetIndex 0 (row n x) i) (resetIndex 0 (row n x) j)) E

theorem canonical_resetSystem (hE : Canonical E) (xs : List ClockVariables) :
    Canonical (resetSystem xs E) := by
  induction xs generalizing E with
  | nil => exact hE
  | cons x xs ih => exact ih (hE.comap _)

theorem sat_resetSystem (hE : Canonical E) (h0 : E 0 0 = 0) {xs : List ClockVariables}
    {u : Fin (n + 1) → ℚ} :
    Sat (resetSystem xs E) u ↔ ∃ w, Sat E w ∧ u = resetRows xs w := by
  induction xs generalizing E with
  | nil =>
    refine ⟨fun hu => ⟨u, hu, rfl⟩, ?_⟩
    rintro ⟨w, hw, rfl⟩; exact hw
  | cons x xs ih =>
    have h0' : E (resetIndex 0 (row n x) 0) (resetIndex 0 (row n x) 0) = 0 := by
      rw [resetIndex_ref, h0]
    refine (ih (hE.comap _) h0').trans ?_
    constructor
    · rintro ⟨w, hw, rfl⟩
      obtain ⟨w₁, hw₁, he⟩ := (hE.sat_comap_iff h0 (row n x) w).1 hw
      obtain rfl : w = fun i => w₁ (resetIndex 0 (row n x) i) := funext he
      exact ⟨w₁, hw₁, rfl⟩
    · rintro ⟨w, hw, rfl⟩
      exact ⟨_, (hE.sat_comap_iff h0 (row n x) _).2 ⟨w, hw, fun _ => rfl⟩, rfl⟩

/-- The resets of the matrix. -/
theorem DBM.Agrees.foldl_reset {D : DBM n} (h : D.Agrees E) (xs : List ClockVariables) :
    (xs.foldl DBM.reset D).Agrees (resetSystem xs E) := by
  induction xs generalizing D E with
  | nil => exact h
  | cons x xs ih => exact ih (h.reset x)

theorem Zone.bound_foldl_reset (xs : List ClockVariables) (Z : Zone n) :
    (xs.foldl Zone.reset Z).bound = resetSystem xs Z.bound := by
  induction xs generalizing Z with
  | nil => rfl
  | cons x xs ih => exact ih (Z.reset x)

end

/-! ## Successors -/

namespace Zone
variable {Z Z' : Zone n} {tr : TATransition}

theorem sat_elapse_iff_delay {w : Fin (n + 1) → ℚ} :
    Sat Z.elapse.bound w ↔ ∃ v, Sat Z.bound v ∧ ∃ t, 0 < t ∧ delay t v = w := by
  constructor
  · intro hw
    obtain ⟨t, ht, hv⟩ := (Z.closed.sat_elapse_iff w).1 hw
    exact ⟨_, hv, t, ht, delay_update t w⟩
  · rintro ⟨v, hv, t, ht, rfl⟩
    exact (Z.closed.sat_elapse_iff _).2 ⟨t, ht, by rw [update_delay]; exact hv⟩

theorem sat_foldl_reset {xs : List ClockVariables} {u : Fin (n + 1) → ℚ} :
    Sat (xs.foldl Zone.reset Z).bound u ↔ ∃ w, Sat Z.bound w ∧ u = resetRows xs w := by
  rw [bound_foldl_reset, sat_resetSystem Z.closed.canonical (Z.closed.diag 0)]

/-- **Successors** have the valuations that the transition leads to. -/
theorem Succ.sat_iff (h : Succ tr Z Z') (v' : Fin (n + 1) → ℚ) :
    Sat Z'.bound v' ↔ ∃ v, Sat Z.bound v ∧ ∃ t, Fires tr t v v' := by
  obtain ⟨Z₁, h₁, rfl⟩ := h
  rw [sat_foldl_reset]
  constructor
  · rintro ⟨w, hw, rfl⟩
    obtain ⟨hel, hg⟩ := (h₁ w).1 hw
    obtain ⟨v, hv, t, ht, rfl⟩ := sat_elapse_iff_delay.1 hel
    exact ⟨v, hv, t, ht, hg, rfl⟩
  · rintro ⟨v, hv, t, ht, hg, rfl⟩
    exact ⟨delay t v, (h₁ _).2 ⟨sat_elapse_iff_delay.2 ⟨v, hv, t, ht, rfl⟩, hg⟩, rfl⟩

/-- A transition that fires from a valuation of the zone has a successor, and its
    delay is within the bounds. -/
theorem exists_succ {v v' : Fin (n + 1) → ℚ} {t : ℚ} (hv : Sat Z.bound v) (h : Fires tr t v v') :
    (∃ Z', Succ tr Z Z') ∧ (Z.duration tr.guard).1.Holds (-t) ∧
      (Z.duration tr.guard).2.Holds t := by
  refine ⟨?_, Z.holds_duration h.pos (by rw [update_delay]; exact hv) h.guard⟩
  rcases (Z.represents_mk 0).elapse.foldl_tightenBy tr.guard with ⟨Z₁, -, hZ₁⟩ | ⟨-, hnone⟩
  · exact ⟨_, Z₁, hZ₁, rfl⟩
  · exact absurd h.guard (hnone _ (sat_elapse_iff_delay.2 ⟨v, hv, t, h.pos, rfl⟩))

end Zone

/-! ## Paths -/

/-- The transitions lead from an initial state to the state. -/
inductive Path (A : Automaton (NDState TATransition)) : List TATransition → Ptr → Prop
  | nil {s} : s ∈ A.initialStates → Path A [] s
  | snoc {π s c tr} : Path A π s → tr ∈ A.next s c → Path A (π ++ [tr]) (lock tr)

theorem Path.mem_states {A : FiniteAutomaton TATransition} {π : List TATransition} {s : Ptr}
    (h : Path A.toAutomaton π s) : s ∈ A.states := by
  induction h with
  | nil hs => exact A.initial_mem _ hs
  | snoc _ htr ih => exact A.target_mem _ ih _ _ htr

/-- The valuations at the end of the runs along the transitions. -/
def valuationsAfter (n : ℕ) (π : List TATransition) : Set (Fin (n + 1) → ℚ) :=
  π.foldl (fun V tr => {v' | ∃ v ∈ V, ∃ t, Fires tr t v v'}) {v | ∀ i, v i = v 0}

theorem mem_valuationsAfter_append {π : List TATransition} {tr : TATransition}
    {v' : Fin (n + 1) → ℚ} :
    v' ∈ valuationsAfter n (π ++ [tr]) ↔ ∃ v ∈ valuationsAfter n π, ∃ t, Fires tr t v v' := by
  unfold valuationsAfter
  rw [List.foldl_append]; rfl

theorem Zone.sat_zero {v : Fin (n + 1) → ℚ} : Sat (Zone.zero n).bound v ↔ ∀ i, v i = v 0 := by
  have hle : ∀ i j, (0 : Bounds).Holds (v i - v j) ↔ v i ≤ v j := fun i j => sub_nonpos
  constructor
  · intro hv i
    exact le_antisymm ((hle i 0).1 (hv i 0)) ((hle 0 i).1 (hv 0 i))
  · intro hv i j
    refine (hle i j).2 ?_
    rw [hv i, hv j]

section
variable {A : Automaton (NDState TATransition)}

/-- The end of a path with a run is a node of the zone graph. -/
theorem Path.exists_zone {π : List TATransition} {s : Ptr} (h : Path A π s)
    (hrun : (valuationsAfter n π).Nonempty) :
    ∃ Z : Zone n, (s, Z) ∈ zoneGraph A n ∧ ∀ v, Sat Z.bound v ↔ v ∈ valuationsAfter n π := by
  induction h with
  | nil hs => exact ⟨Zone.zero n, ⟨[], hs, rfl⟩, fun v => Zone.sat_zero⟩
  | @snoc π s c tr _ htr ih =>
    obtain ⟨v', hv'⟩ := hrun
    obtain ⟨v, hv, t, hfires⟩ := mem_valuationsAfter_append.1 hv'
    obtain ⟨Z, ⟨x, hx⟩, hZ⟩ := ih ⟨v, hv⟩
    obtain ⟨⟨Z', hsucc⟩, hd⟩ := Zone.exists_succ ((hZ v).2 hv) hfires
    refine ⟨Z', ⟨x ++ [(c, t)], ?_⟩, fun w => ?_⟩
    · rw [NFA.eval_append_singleton]
      exact NFA.mem_stepSet.2 ⟨_, hx, tr, htr, rfl, hsucc, hd⟩
    · rw [hsucc.sat_iff, mem_valuationsAfter_append]
      exact exists_congr fun v => and_congr_left fun _ => hZ v

/-- And each node is. -/
theorem exists_path {z : ZConf n} (hz : z ∈ zoneGraph A n) :
    ∃ π, Path A π z.1 ∧ ∀ v, Sat z.2.bound v ↔ v ∈ valuationsAfter n π := by
  obtain ⟨x, hx⟩ := hz
  induction x using List.reverseRecOn generalizing z with
  | nil =>
    obtain ⟨hs, hZ⟩ := hx
    exact ⟨[], .nil hs, fun v => by rw [hZ]; exact Zone.sat_zero⟩
  | append_singleton x c ih =>
    rw [NFA.eval_append_singleton] at hx
    obtain ⟨z₁, hz₁, tr, htr, hlock, hsucc, -⟩ := NFA.mem_stepSet.1 hx
    obtain ⟨π, hπ, hv⟩ := ih hz₁
    refine ⟨π ++ [tr], hlock ▸ hπ.snoc htr, fun v => ?_⟩
    rw [hsucc.sat_iff, mem_valuationsAfter_append]
    exact exists_congr fun v => and_congr_left fun _ => hv v

end

end MooreFilter

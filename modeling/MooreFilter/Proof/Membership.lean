/-
  Membership of timed words.

  * `timestamps w` are the cumulative delays of a word, on which `isMember` works;
    `configsAfter w` are its configurations after the word;
  * `fst_ne_of_mem_configsAfter`: no word with a mask character is accepted;
  * `ValuesOf u v`: the clocks have the values `u` in the valuation `v`, and
    `ValuesOf.delay`, `ValuesOf.reset` are the two kinds of steps.  This leaves out
    the clock `255`, whose row is that of the reference point;
  * `TATransition.Fits`: the matrices read the transition as it stands, since its clocks
    have rows of their own and no bound overflows; `ReachedFit` asks it of the
    transitions at the ends of runs;
  * `exists_zone_of_mem_configsAfter`: then the configurations are in the nodes of the
    zone graph.
-/
import MooreFilter.Proof.TimedRuns

namespace MooreFilter

open Difference (Sat resetIndex)

variable {n : ℕ}

/-! ## Timestamps -/

/-- The timestamps of the events, from a time on. -/
def timestampsFrom : ℚ → List (UInt8 × ℚ) → List (UInt8 × ℚ)
  | _, [] => []
  | t, (c, d) :: w => (c, t + d) :: timestampsFrom (t + d) w

/-- The word with its cumulative delays as timestamps. -/
def timestamps (w : List (UInt8 × ℚ)) : List (UInt8 × ℚ) := timestampsFrom 0 w

namespace TimedAutomaton
variable (A : TimedAutomaton)

/-- The configurations of `isMember` after a word of letters and delays. -/
def configsAfter (w : List (UInt8 × ℚ)) : List Config :=
  w.foldl (fun CStates c => A.isMemberStep c.1 c.2 CStates)
    (A.initialStates.map fun s => (s, fun _ => 0))

theorem isMemberLoop_timestampsFrom (w : List (UInt8 × ℚ)) (t : ℚ) (CStates : List Config) :
    A.isMemberLoop (some t) (timestampsFrom t w) CStates =
      w.foldl (fun CStates c => A.isMemberStep c.1 c.2 CStates) CStates := by
  induction w generalizing t CStates with
  | nil => rfl
  | cons c w ih =>
    rw [timestampsFrom, isMemberLoop, ih, List.foldl_cons, add_sub_cancel_left]

theorem isMember_timestamps (w : List (UInt8 × ℚ)) :
    A.isMember (timestamps w) = (A.configsAfter w).any fun p => A.isMatch p.1 := by
  unfold isMember timestamps configsAfter
  cases w with
  | nil => rfl
  | cons c w =>
    rw [timestampsFrom, isMemberLoop, isMemberLoop_timestampsFrom, List.foldl_cons, zero_add]

variable {A}

theorem mem_isMemberStep {c : UInt8} {d : ℚ} {CStates : List Config} {q : Config} :
    q ∈ A.isMemberStep c d CStates ↔ ∃ p ∈ CStates, ∃ tr ∈ A.next p.1 c,
      (∀ g ∈ tr.guard, g.satisfy (p.2 g.x + d) = true) ∧
        q = (lock tr, resetAll tr.resetVars fun x => p.2 x + d) := by
  unfold isMemberStep
  simp only [List.mem_flatMap, List.mem_filterMap]
  refine exists_congr fun p => and_congr_right fun _ => exists_congr fun tr =>
    and_congr_right fun _ => ?_
  rw [← List.all_eq_true]
  constructor
  · intro h
    split_ifs at h with hg
    exact ⟨hg, (Option.some.inj h).symm⟩
  · rintro ⟨hg, rfl⟩
    rw [if_pos hg]; rfl

theorem mem_configsAfter_append {w : List (UInt8 × ℚ)} {c : UInt8 × ℚ} {q : Config} :
    q ∈ A.configsAfter (w ++ [c]) ↔ ∃ p ∈ A.configsAfter w, ∃ tr ∈ A.next p.1 c.1,
      (∀ g ∈ tr.guard, g.satisfy (p.2 g.x + c.2) = true) ∧
        q = (lock tr, resetAll tr.resetVars fun x => p.2 x + c.2) := by
  rw [← mem_isMemberStep]
  unfold configsAfter
  rw [List.foldl_append]; rfl

theorem mem_states_of_mem_configsAfter {w : List (UInt8 × ℚ)} {q : Config}
    (hq : q ∈ A.configsAfter w) : q.1 ∈ A.states := by
  induction w using List.reverseRecOn generalizing q with
  | nil =>
    obtain ⟨s, hs, rfl⟩ := List.mem_map.1 hq
    exact A.initial_mem s hs
  | append_singleton w c ih =>
    obtain ⟨p, hp, tr, htr, -, rfl⟩ := mem_configsAfter_append.1 hq
    exact A.target_mem _ (ih hp) c.1 tr htr

/-- No event with a mask character is read. -/
theorem fst_ne_of_mem_configsAfter (hA : A.NoMaskLabel) {w : List (UInt8 × ℚ)} {q : Config}
    (hq : q ∈ A.configsAfter w) : ∀ c ∈ w, c.1 ≠ '_'.toUInt8 := by
  induction w using List.reverseRecOn generalizing q with
  | nil => simp
  | append_singleton w c ih =>
    obtain ⟨p, hp, tr, htr, -, -⟩ := mem_configsAfter_append.1 hq
    intro c' hc'
    rcases List.mem_append.1 hc' with hc' | hc'
    · exact ih hp c' hc'
    · rintro hmask
      rw [← List.mem_singleton.1 hc', hmask, hA p.1 (mem_states_of_mem_configsAfter hp)] at htr
      exact absurd htr (by simp)

end TimedAutomaton

/-! ## Rows -/

/-- The transition names the clock. -/
def TATransition.Names (tr : TATransition) (x : ClockVariables) : Prop :=
  (∃ g ∈ tr.guard, g.x = x) ∨ x ∈ tr.resetVars

/-- A guard or a reset of the automaton names the clock. -/
def TimedAutomaton.Names (A : TimedAutomaton) (x : ClockVariables) : Prop :=
  ∃ s ∈ A.states, ∃ c, ∃ tr ∈ A.next s c, tr.Names x

/-- The clocks that have rows of their own. -/
def HasRow (n : ℕ) (x : ClockVariables) : Prop := x.toNat < n ∧ x ≠ 255

theorem HasRow.val_row {x : ClockVariables} (h : HasRow n x) : (row n x).val = x.toNat + 1 := by
  obtain ⟨hn, hx⟩ := h
  have hx : x.toNat ≠ 255 := fun e => hx (UInt8.toNat_inj.1 e)
  have hlt := x.toNat_lt
  have hsucc : (x + 1).toNat = x.toNat + 1 := by
    rw [UInt8.toNat_add]
    exact Nat.mod_eq_of_lt (by simp; omega)
  unfold row
  rw [Fin.val_ofNat, hsucc]
  exact Nat.mod_eq_of_lt (by omega)

theorem HasRow.row_ne_zero {x : ClockVariables} (h : HasRow n x) : row n x ≠ 0 := by
  intro e
  have := h.val_row
  rw [e] at this
  exact absurd this (by simp)

theorem HasRow.row_eq_iff {x y : ClockVariables} (hx : HasRow n x) (hy : HasRow n y) :
    row n y = row n x ↔ y = x := by
  refine ⟨fun e => ?_, fun e => e ▸ rfl⟩
  have h := congrArg Fin.val e
  rw [hx.val_row, hy.val_row] at h
  exact UInt8.toNat_inj.1 (by omega)

/-- The clocks of the transition have rows of their own, and its bounds are negated
    without overflow. -/
structure TATransition.Fits (tr : TATransition) (n : ℕ) : Prop where
  hasRow : ∀ x, tr.Names x → HasRow n x
  no_overflow : ∀ g ∈ tr.guard, ¬ g.Overflows

namespace TimedAutomaton
variable {A : TimedAutomaton}

/-- The clocks are below their number, and there is a constant for the maximum; the
    source indexes outside its vectors otherwise. -/
structure Buildable (A : TimedAutomaton) : Prop where
  maxConstraints_ne_nil : A.maxConstraints ≠ []
  lt_clockSize : ∀ x, A.Names x → x.toNat < A.clockSize

/-- The transitions from the ends of the runs fit. -/
def ReachedFit (A : TimedAutomaton) (n : ℕ) : Prop :=
  ∀ π s, Path A.toAutomaton π s → (valuationsAfter n π).Nonempty →
    ∀ c, ∀ tr ∈ A.next s c, tr.Fits n

theorem ReachedFit.fits (h : A.ReachedFit n) {z : ZConf n} (hz : z ∈ zoneGraph A.toAutomaton n)
    {c : UInt8} {tr : TATransition} (htr : tr ∈ A.next z.1 c) : tr.Fits n := by
  obtain ⟨π, hπ, hsat⟩ := exists_path hz
  obtain ⟨v, hv⟩ := z.2.closed.exists_sat
  exact h π z.1 hπ ⟨v, (hsat v).1 hv⟩ c tr htr

theorem Buildable.reachedFit (h : A.Buildable) (h255 : ¬ A.Names 255)
    (hover : ∀ s ∈ A.states, ∀ c, ∀ tr ∈ A.next s c, ∀ g ∈ tr.guard, ¬ g.Overflows) :
    A.ReachedFit A.clockSize := by
  intro π s hπ _ c tr htr
  refine ⟨fun x hx => ?_, hover s hπ.mem_states c tr htr⟩
  have hnames : A.Names x := ⟨s, hπ.mem_states, c, tr, htr, hx⟩
  exact ⟨h.lt_clockSize x hnames, fun e => h255 (e ▸ hnames)⟩

end TimedAutomaton

/-- The clocks have the values `u` in the valuation `v`. -/
def ValuesOf (u : ClockVariables → ℚ) (v : Fin (n + 1) → ℚ) : Prop :=
  ∀ x, HasRow n x → v (row n x) - v 0 = u x

namespace ValuesOf
variable {u : ClockVariables → ℚ} {v : Fin (n + 1) → ℚ}

theorem delay (h : ValuesOf u v) (t : ℚ) :
    ValuesOf (fun x => u x + t) (MooreFilter.delay t v) := by
  intro x hx
  have hv := h x hx
  unfold MooreFilter.delay
  rw [Function.update_of_ne hx.row_ne_zero, Function.update_self]
  linarith

theorem reset (h : ValuesOf u v) {x : ClockVariables} (hx : HasRow n x) :
    ValuesOf (Function.update u x 0) fun i => v (resetIndex 0 (row n x) i) := by
  have h0 : resetIndex 0 (row n x) 0 = 0 := if_neg hx.row_ne_zero.symm
  intro y hy
  dsimp only
  by_cases hyx : y = x
  · rw [hyx, h0, Function.update_self, show resetIndex 0 (row n x) (row n x) = 0 from if_pos rfl,
      sub_self]
  · rw [h0, Function.update_of_ne hyx, ← h y hy,
      show resetIndex 0 (row n x) (row n y) = row n y from if_neg ((hx.row_eq_iff hy).not.2 hyx)]

theorem resetAll (h : ValuesOf u v) {xs : List ClockVariables} (hxs : ∀ x ∈ xs, HasRow n x) :
    ValuesOf (TimedAutomaton.resetAll xs u) (resetRows xs v) := by
  induction xs generalizing u v with
  | nil => exact h
  | cons x xs ih =>
    exact ih (h.reset (hxs x (by simp))) fun y hy => hxs y (List.mem_cons_of_mem x hy)

/-- A transition of `isMember` fires. -/
theorem fires (h : ValuesOf u v) {tr : TATransition} (htr : tr.Fits n) {t : ℚ} (ht : 0 < t)
    (hg : ∀ g ∈ tr.guard, g.satisfy (u g.x + t) = true) :
    ∃ v', Fires tr t v v' ∧
      ValuesOf (TimedAutomaton.resetAll tr.resetVars fun x => u x + t) v' := by
  have hd := h.delay t
  refine ⟨_, ⟨ht, fun g hmem => ?_, rfl⟩, hd.resetAll fun x hx => htr.hasRow x (Or.inr hx)⟩
  rw [Constraint.holdsAt_iff (htr.no_overflow g hmem),
    hd g.x (htr.hasRow g.x (Or.inl ⟨g, hmem, rfl⟩))]
  exact hg g hmem

end ValuesOf

/-- **The configurations of `isMember`** are in the nodes of the zone graph. -/
theorem TimedAutomaton.exists_zone_of_mem_configsAfter {A : TimedAutomaton}
    (hA : A.ReachedFit n) {w : List (UInt8 × ℚ)} (hw : ∀ c ∈ w, 0 < c.2) {q : Config}
    (hq : q ∈ A.configsAfter w) :
    ∃ Z : Zone n, (q.1, Z) ∈ (zoneNFA A.toAutomaton n).eval w ∧
      ∃ v, Sat Z.bound v ∧ ValuesOf q.2 v := by
  induction w using List.reverseRecOn generalizing q with
  | nil =>
    obtain ⟨s, hs, rfl⟩ := List.mem_map.1 hq
    exact ⟨Zone.zero n, ⟨hs, rfl⟩, fun _ => 0, Zone.sat_zero.2 fun _ => rfl,
      fun x _ => sub_self 0⟩
  | append_singleton w c ih =>
    obtain ⟨p, hp, tr, htr, hg, rfl⟩ := mem_configsAfter_append.1 hq
    obtain ⟨Z, hZ, v, hv, hvalues⟩ := ih (fun c hc => hw c (List.mem_append_left _ hc)) hp
    obtain ⟨v', hfires, hvalues'⟩ := hvalues.fires (hA.fits ⟨w, hZ⟩ htr) (hw c (by simp)) hg
    obtain ⟨⟨Z', hsucc⟩, hd⟩ := Zone.exists_succ hv hfires
    refine ⟨Z', ?_, v', (hsucc.sat_iff v').2 ⟨v, hv, _, hfires⟩, hvalues'⟩
    rw [NFA.eval_append_singleton]
    exact NFA.mem_stepSet.2 ⟨_, hZ, tr, htr, rfl, hsucc, hd⟩

/-- Accepted words are accepted by the zone graph. -/
theorem TimedAutomaton.mem_accepts_of_isMember {A : TimedAutomaton}
    (hA : A.ReachedFit n) {w : List (UInt8 × ℚ)} (hw : ∀ c ∈ w, 0 < c.2)
    (h : A.isMember (timestamps w) = true) : w ∈ (zoneNFA A.toAutomaton n).accepts := by
  rw [isMember_timestamps, List.any_eq_true] at h
  obtain ⟨q, hq, hmatch⟩ := h
  obtain ⟨Z, hZ, -⟩ := exists_zone_of_mem_configsAfter hA hw hq
  exact ⟨(q.1, Z), hmatch, hZ⟩

end MooreFilter

/-
  The zone graph.

  `ZConf n` is a state with a zone; `p.Denotes M z` connects it to the
  configurations of the code, whose matrix represents the zone.

  * `Zone.Succ` is the successor of a zone by a transition: a positive delay, the
    guard and the resets; `Zone.duration` are the bounds on the delay;
  * `successor_cases`: `successor` computes the two, or there is no successor;
  * `Denotes.toTuple_iff`, `Denotes.beq_iff`: equal tuples and equal matrices, but for
    the entry `(0, 0)`, are equal zones, and so are equal classes (`Denotes.classOf_iff`);
  * `Zone.Succ.exists_delay`, `Zone.holds_duration`: the bounds hold for the delays
    from the zone into the guard, of which there is one;
  * `Reaches` are the configurations that iterating `constructNexts` makes,
    `finite_confTuples_iff`: they are finitely many iff the zone graph is finite;
  * `zoneNFA` is the zone graph as an NFA over events, `confsAfter` the sets of
    configurations after words, and `confsAfter_spec` that the two agree.
-/
import MooreFilter.Lib.Masking
import MooreFilter.Proof.Dbm
import MooreFilter.Proof.Sweep
import Mathlib.Data.Set.Finite.Basic

namespace MooreFilter

open Difference (Sat)
open Masking (suffixEval suffixEval_nil suffixEval_append_singleton)

variable {n : ℕ}

/-! ## Successors of zones -/

namespace Zone
variable {Z Z' Z'' : Zone n} {tr : TATransition}

/-- The valuations after a positive delay from the zone that satisfy the guard. -/
def Guarded (Z : Zone n) (guard : List Constraint) (w : Fin (n + 1) → ℚ) : Prop :=
  Sat Z.elapse.bound w ∧ ∀ g ∈ guard, g.HoldsAt w

/-- The zone `Z'` is the successor of `Z` by the transition. -/
def Succ (tr : TATransition) (Z Z' : Zone n) : Prop :=
  ∃ Z₁ : Zone n, (∀ w, Sat Z₁.bound w ↔ Z.Guarded tr.guard w) ∧
    Z' = tr.resetVars.foldl Zone.reset Z₁

theorem Succ.unique (h : Succ tr Z Z') (h' : Succ tr Z Z'') : Z' = Z'' := by
  obtain ⟨Z₁, h₁, rfl⟩ := h
  obtain ⟨Z₂, h₂, rfl⟩ := h'
  rw [Zone.ext_sat fun w => (h₁ w).trans (h₂ w).symm]

/-- The bounds on the delay: on `-t` and on `t`. -/
def duration (Z : Zone n) (guard : List Constraint) : Bounds × Bounds :=
  (DBM.mk Z.bound 0).findDuration (constraintsToDBM n guard)

theorem represents_mk (Z : Zone n) (M : Bounds) : (DBM.mk Z.bound M).Represents Z :=
  ⟨fun _ _ _ => rfl, le_of_eq (Z.closed.diag 0).symm⟩

/-- The delays are positive. -/
theorem duration_lower_le (Z : Zone n) (guard : List Constraint) :
    (Z.duration guard).1 ≤ .fin 0 false :=
  DBM.findDuration_lower_le _ _

/-- After a delay, the reference point is not beyond a clock. -/
theorem le_of_sat (Z : Zone n) {w : Fin (n + 1) → ℚ} (hw : Sat Z.bound w) (j : Fin (n + 1)) :
    w 0 ≤ w j := by
  have h : (0 : Bounds).Holds (w 0 - w j) := (hw 0 j).mono (Z.nonneg j)
  have h : w 0 - w j ≤ 0 := h
  linarith

/-- **Delays.** The bounds hold for a delay from the zone into the guard. -/
theorem holds_duration (Z : Zone n) {guard : List Constraint} {w : Fin (n + 1) → ℚ} {t : ℚ}
    (ht : 0 < t) (hw : Sat Z.bound (Function.update w 0 (w 0 + t)))
    (hg : ∀ g ∈ guard, g.HoldsAt w) :
    (Z.duration guard).1.Holds (-t) ∧ (Z.duration guard).2.Holds t := by
  have hel : Sat Z.elapse.bound w := (Z.closed.sat_elapse_iff w).2 ⟨t, ht, hw⟩
  exact DBM.holds_findDuration (Z.represents_mk 0) ht hw
    (DBM.sat_constraintsToDBM (Z.elapse.le_of_sat hel) hg)

/-- A successor has a valuation, and so there is a delay within the bounds. -/
theorem Succ.exists_delay (h : Succ tr Z Z') :
    ∃ t, 0 < t ∧ (Z.duration tr.guard).1.Holds (-t) ∧ (Z.duration tr.guard).2.Holds t := by
  obtain ⟨Z₁, h₁, -⟩ := h
  obtain ⟨w, hw⟩ := Z₁.closed.exists_sat
  obtain ⟨hel, hg⟩ := (h₁ w).1 hw
  obtain ⟨t, ht, hw⟩ := (Z.closed.sat_elapse_iff w).1 hel
  exact ⟨t, ht, Z.holds_duration ht hw hg⟩

end Zone

/-! ## The successors that the code computes -/

theorem DBM.Represents.foldl_reset {D : DBM n} {Z : Zone n} (h : D.Represents Z)
    (xs : List ClockVariables) : (xs.foldl DBM.reset D).Represents (xs.foldl Zone.reset Z) := by
  induction xs generalizing D Z with
  | nil => exact h
  | cons x xs ih => exact ih (h.reset x)

theorem DBM.M_foldl_reset (D : DBM n) (xs : List ClockVariables) :
    (xs.foldl DBM.reset D).M = D.M := by
  induction xs generalizing D with
  | nil => rfl
  | cons x xs ih => exact ih _

/-- **Successors.** The code computes the successor, or there is none. -/
theorem successor_cases {D : DBM n} {Z : Zone n} (h : D.Represents Z) (tr : TATransition) :
    (∃ D' Z', Zone.Succ tr Z Z' ∧ D'.Represents Z' ∧ D'.M = D.M ∧ successor D tr =
        some ⟨(lock tr, D'), (Z.duration tr.guard).1, (Z.duration tr.guard).2⟩) ∨
      (∀ Z', ¬ Zone.Succ tr Z Z') ∧ successor D tr = none := by
  have hM : (tr.guard.foldl DBM.tightenBy D.elapse).canonize.M = D.M := by
    rw [DBM.M_canonize, DBM.M_foldl_tightenBy]; rfl
  unfold successor
  rcases h.elapse.foldl_tightenBy tr.guard with ⟨Z₁, h₁, hZ₁⟩ | ⟨hU, hnone⟩
  · left
    refine ⟨_, _, ⟨Z₁, hZ₁, rfl⟩, h₁.canonize.foldl_reset tr.resetVars,
      (DBM.M_foldl_reset _ _).trans hM, ?_⟩
    dsimp only
    rw [if_pos h₁.isSatisfiable, DBM.findDuration_congr h (Z.represents_mk 0)]
    rfl
  · right
    refine ⟨?_, ?_⟩
    · rintro Z' ⟨Z₁, hZ₁, -⟩
      obtain ⟨w, hw⟩ := Z₁.closed.exists_sat
      exact hnone w ((hZ₁ w).1 hw).1 ((hZ₁ w).1 hw).2
    · dsimp only
      rw [if_neg (by rw [hU.isSatisfiable]; exact Bool.false_ne_true)]

/-! ## Configurations -/

/-- A state with a zone. -/
abbrev ZConf (n : ℕ) := Ptr × Zone n

/-- The configuration denotes the state with the zone; `M` is that of the
    construction. -/
structure Conf.Denotes (M : Bounds) (p : Conf n) (z : ZConf n) : Prop where
  state : p.1 = z.1
  zone : p.2.Represents z.2
  M_eq : p.2.M = M

theorem DBM.data_tail_eq_iff {f g : Fin (n + 1) → Fin (n + 1) → Bounds} :
    (DBM.data f).tail = (DBM.data g).tail ↔ ∀ i j, ¬ (i = 0 ∧ j = 0) → f i j = g i j := by
  have hdata : ∀ f : Fin (n + 1) → Fin (n + 1) → Bounds, DBM.data f =
      (List.finRange (n + 1) ×ˢ List.finRange (n + 1)).map fun x => f x.2 x.1 := by
    intro f
    change _ = List.map _ ((List.finRange (n + 1)).flatMap fun j =>
      (List.finRange (n + 1)).map (Prod.mk j))
    rw [List.map_flatMap]
    simp only [List.map_map]
    rfl
  have hcons : (List.finRange (n + 1) ×ˢ List.finRange (n + 1)) =
      (0, 0) :: (List.finRange (n + 1) ×ˢ List.finRange (n + 1)).tail := by
    rw [List.finRange_succ]; rfl
  have hnd : (List.finRange (n + 1) ×ˢ List.finRange (n + 1)).Nodup :=
    (List.nodup_finRange _).product (List.nodup_finRange _)
  rw [hdata, hdata, ← List.map_tail, ← List.map_tail, List.map_inj_left]
  constructor
  · intro h i j hij
    have hmem : (j, i) ∈ List.finRange (n + 1) ×ˢ List.finRange (n + 1) := by simp
    rw [hcons] at hmem
    rcases List.mem_cons.1 hmem with he | hmem
    · exact absurd ⟨(Prod.mk.inj he).2, (Prod.mk.inj he).1⟩ hij
    · exact h (j, i) hmem
  · intro h x hx
    refine h x.2 x.1 fun hx0 => ?_
    rw [hcons] at hnd
    have : x = (0, 0) := Prod.ext hx0.2 hx0.1
    exact (List.nodup_cons.1 hnd).1 (this ▸ hx)

namespace Conf.Denotes
variable {M : Bounds} {p q : Conf n} {z z' : ZConf n}

theorem value_eq_iff (h : p.Denotes M z) (h' : q.Denotes M z') :
    (∀ i j, ¬ (i = 0 ∧ j = 0) → p.2.value i j = q.2.value i j) ↔ z.2 = z'.2 := by
  constructor
  · intro he
    refine Zone.ext_bound (funext fun i => funext fun j => ?_)
    by_cases hij : i = 0 ∧ j = 0
    · rw [hij.1, hij.2, z.2.closed.diag, z'.2.closed.diag]
    · rw [← h.zone.eq i j hij, he i j hij, h'.zone.eq i j hij]
  · intro he i j hij
    rw [h.zone.eq i j hij, he, h'.zone.eq i j hij]

/-- Equal tuples are equal zones. -/
theorem toTuple_iff (h : p.Denotes M z) (h' : q.Denotes M z') :
    p.2.toTuple = q.2.toTuple ↔ z.2 = z'.2 := by
  rw [← h.value_eq_iff h', ← DBM.data_tail_eq_iff]
  unfold DBM.toTuple
  rw [Prod.mk.injEq, h.M_eq, h'.M_eq, and_iff_left rfl]

/-- Equal matrices, but for the entry `(0, 0)`, are equal zones. -/
theorem beq_iff (h : p.Denotes M z) (h' : q.Denotes M z') : p.2.beq q.2 = true ↔ z.2 = z'.2 := by
  rw [← h.value_eq_iff h']
  exact decide_eq_true_iff

theorem tuple_iff (h : p.Denotes M z) (h' : q.Denotes M z') :
    (p.1, p.2.toTuple) = (q.1, q.2.toTuple) ↔ z = z' := by
  rw [Prod.ext_iff (x := z), ← h.toTuple_iff h', ← h.state, ← h'.state, Prod.mk.injEq]

theorem classOf_iff (h : p.Denotes M z) (h' : q.Denotes M z') : classOf p = classOf q ↔ z = z' := by
  rw [← sameConf_iff, Prod.ext_iff (x := z), ← h.beq_iff h', ← h.state, ← h'.state]
  unfold sameConf
  rw [Bool.and_eq_true, beq_iff_eq]

theorem unique (h : p.Denotes M z) (h' : p.Denotes M z') : z = z' := (h.tuple_iff h').1 rfl

end Conf.Denotes

/-! ## The graph -/

/-- The zone graph as an NFA: an event leads to the successors whose bounds its
    delay is within. -/
def zoneNFA (A : Automaton (NDState TATransition)) (n : ℕ) : NFA (UInt8 × ℚ) (ZConf n) where
  step z c := {z' | ∃ tr ∈ A.next z.1 c.1, z'.1 = lock tr ∧ Zone.Succ tr z.2 z'.2 ∧
    (z.2.duration tr.guard).1.Holds (-c.2) ∧ (z.2.duration tr.guard).2.Holds c.2}
  start := {z | z.1 ∈ A.initialStates ∧ z.2 = Zone.zero n}
  accept := {z | A.isMatch z.1 = true}

/-- The nodes of the zone graph. -/
def zoneGraph (A : Automaton (NDState TATransition)) (n : ℕ) : Set (ZConf n) :=
  {z | ∃ x, z ∈ (zoneNFA A n).eval x}

section
variable {A : AutomatonWithCounter TATransition} {M : Bounds}

theorem start_subset_zoneGraph : (zoneNFA A.toAutomaton n).start ⊆ zoneGraph A.toAutomaton n :=
  fun _ hz => ⟨[], hz⟩

theorem step_subset_zoneGraph {z : ZConf n} (hz : z ∈ zoneGraph A.toAutomaton n)
    (c : UInt8 × ℚ) : (zoneNFA A.toAutomaton n).step z c ⊆ zoneGraph A.toAutomaton n := by
  obtain ⟨x, hx⟩ := hz
  intro z' hz'
  refine ⟨x ++ [c], ?_⟩
  rw [NFA.eval_append_singleton]
  exact NFA.mem_stepSet.2 ⟨z, hx, hz'⟩

theorem mem_initConfs {q : Conf n} : q ∈ initConfs A n M ↔
    q.1 ∈ A.initialStates ∧ q.2 = { DBM.zero n with M := M } := by
  unfold initConfs
  rw [List.mem_map]
  constructor
  · rintro ⟨s, hs, rfl⟩; exact ⟨hs, rfl⟩
  · rintro ⟨hs, hD⟩; exact ⟨q.1, hs, by rw [← hD]⟩

theorem exists_denotes_of_mem_initConfs {q : Conf n} (hq : q ∈ initConfs A n M) :
    ∃ z ∈ (zoneNFA A.toAutomaton n).start, q.Denotes M z := by
  obtain ⟨hs, hD⟩ := mem_initConfs.1 hq
  refine ⟨(q.1, Zone.zero n), ⟨hs, rfl⟩, rfl, ?_, ?_⟩
  · rw [hD]; exact DBM.represents_zero M
  · rw [hD]

theorem exists_mem_initConfs {z : ZConf n} (hz : z ∈ (zoneNFA A.toAutomaton n).start) :
    ∃ q ∈ initConfs A n M, q.Denotes M z := by
  obtain ⟨hs, hz⟩ := hz
  refine ⟨(z.1, { DBM.zero n with M := M }), mem_initConfs.2 ⟨hs, rfl⟩, rfl, ?_, rfl⟩
  rw [hz]; exact DBM.represents_zero M

/-! ## The entries of `constructNexts` -/

/-- The entries of a letter are those of the transitions on it, if there are any. -/
theorem lookup_constructNexts (A : AutomatonWithCounter TATransition) (s : List (Conf n))
    (c : UInt8) : (constructNexts A s).lookup c =
      if ∃ p ∈ s, c ∈ (A.heap.cell p.1).nextMap then
        some (s.flatMap fun p => (A.next p.1 c).filterMap (successor p.2))
      else none := by
  have hnext : ∀ p : Conf n, (((A.heap.cell p.1).nextMap.lookup c).map fun l =>
      l.filterMap (successor p.2)).getD [] = (A.next p.1 c).filterMap (successor p.2) := by
    intro p
    unfold Automaton.next NDState.next
    cases (A.heap.cell p.1).nextMap.lookup c <;> rfl
  rw [constructNexts, AssocList.lookup_collect_flatMap s (fun p => (A.heap.cell p.1).nextMap)
    (fun p l => l.filterMap (successor p.2))]
  split_ifs
  · exact congrArg some (List.flatMap_congr fun p _ => hnext p)
  · rfl

theorem mem_constructNexts {s : List (Conf n)} {c : UInt8} {es : List (Entry n)}
    (h : (constructNexts A s).lookup c = some es) (e : Entry n) :
    e ∈ es ↔ ∃ p ∈ s, ∃ tr ∈ A.next p.1 c, successor p.2 tr = some e := by
  rw [lookup_constructNexts] at h
  split_ifs at h
  obtain rfl := Option.some.inj h
  simp only [List.mem_flatMap, List.mem_filterMap]

theorem next_eq_nil_of_constructNexts {s : List (Conf n)} {c : UInt8}
    (h : (constructNexts A s).lookup c = none) : ∀ p ∈ s, A.next p.1 c = [] := by
  rw [lookup_constructNexts] at h
  split_ifs at h with hex
  intro p hp
  have hnot : c ∉ (A.heap.cell p.1).nextMap := fun ha => hex ⟨p, hp, ha⟩
  rw [Automaton.next, NDState.next, AList.lookup_eq_none.2 hnot]; rfl

variable {p : Conf n} {z : ZConf n}

/-- An entry denotes a successor, reached by the delays within its bounds. -/
theorem Conf.Denotes.of_successor (h : p.Denotes M z) {c : UInt8} {tr : TATransition}
    (htr : tr ∈ A.next p.1 c) {e : Entry n} (he : successor p.2 tr = some e) :
    ∃ z', e.conf.Denotes M z' ∧ e.lowerBound ≤ .fin 0 false ∧ (∃ d, 0 < d ∧ e.Active d) ∧
      ∀ d, e.Active d → z' ∈ (zoneNFA A.toAutomaton n).step z (c, d) := by
  rcases successor_cases h.zone tr with ⟨D', Z', hsucc, hD', hM, he'⟩ | ⟨-, he'⟩
  · obtain rfl := Option.some.inj (he'.symm.trans he)
    refine ⟨(lock tr, Z'), ⟨rfl, hD', hM.trans h.M_eq⟩, Zone.duration_lower_le _ _,
      hsucc.exists_delay, fun d hd => ⟨tr, ?_, rfl, hsucc, hd⟩⟩
    rw [← h.state]; exact htr
  · rw [he'] at he; exact absurd he (by simp)

/-- A successor has an entry. -/
theorem Conf.Denotes.exists_successor (h : p.Denotes M z) {z' : ZConf n} {c : UInt8 × ℚ}
    (hz' : z' ∈ (zoneNFA A.toAutomaton n).step z c) :
    ∃ tr ∈ A.next p.1 c.1, ∃ e, successor p.2 tr = some e ∧ e.Active c.2 ∧ e.conf.Denotes M z' := by
  obtain ⟨tr, htr, hlock, hsucc, hd⟩ := hz'
  rw [← h.state] at htr
  rcases successor_cases h.zone tr with ⟨D', Z', hsucc', hD', hM, he'⟩ | ⟨hnone, -⟩
  · refine ⟨tr, htr, _, he', hd, hlock.symm, ?_, hM.trans h.M_eq⟩
    rw [hsucc.unique hsucc']; exact hD'
  · exact absurd hsucc (hnone _)

/-- The entries fit the sweep, unless they have an initial configuration. -/
theorem Conf.Denotes.fits (h : p.Denotes M z) {c : UInt8} {tr : TATransition}
    (htr : tr ∈ A.next p.1 c) {e : Entry n} (he : successor p.2 tr = some e)
    (hinit : (initConfs A n M).any (sameConf e.conf) = false) : e.Fits (initConfs A n M) := by
  obtain ⟨z', -, hlow, ⟨d, -, hd⟩, -⟩ := h.of_successor htr he
  have hact := (e.active_iff d).1 hd
  exact ⟨hlow, hact.1.trans_le hact.2, hinit⟩

/-! ## Reachable configurations -/

/-- The configurations that iterating `constructNexts` makes of the initial
    ones. -/
inductive Reaches (A : AutomatonWithCounter TATransition) (n : ℕ) (M : Bounds) : Conf n → Prop
  | initial {q} : q ∈ initConfs A n M → Reaches A n M q
  | next {p c es e} : Reaches A n M p → (constructNexts A [p]).lookup c = some es → e ∈ es →
      Reaches A n M e.conf

/-- The reachable configurations, with the tuples of their matrices. -/
def confTuples (A : AutomatonWithCounter TATransition) (n : ℕ) (M : Bounds) :
    Set (Ptr × DBM.Tuple) :=
  {k | ∃ q, Reaches A n M q ∧ (q.1, q.2.toTuple) = k}

theorem Reaches.exists_denotes {q : Conf n} (h : Reaches A n M q) :
    ∃ z ∈ zoneGraph A.toAutomaton n, q.Denotes M z := by
  induction h with
  | initial hq =>
    obtain ⟨z, hz, hqz⟩ := exists_denotes_of_mem_initConfs hq
    exact ⟨z, start_subset_zoneGraph hz, hqz⟩
  | @next p c es e _ hes he ih =>
    obtain ⟨z, hz, hpz⟩ := ih
    obtain ⟨p', hp', tr, htr, he⟩ := (mem_constructNexts hes e).1 he
    obtain rfl := List.mem_singleton.1 hp'
    obtain ⟨z', hz', -, ⟨d, -, hd⟩, hstep⟩ := hpz.of_successor htr he
    exact ⟨z', step_subset_zoneGraph hz (c, d) (hstep d hd), hz'⟩

/-- An event from a configuration is an entry of `constructNexts`. -/
theorem Conf.Denotes.exists_entry (h : p.Denotes M z) {z' : ZConf n} {c : UInt8 × ℚ}
    (hz' : z' ∈ (zoneNFA A.toAutomaton n).step z c) :
    ∃ es, (constructNexts A [p]).lookup c.1 = some es ∧
      ∃ e ∈ es, e.Active c.2 ∧ e.conf.Denotes M z' := by
  obtain ⟨tr, htr, e, he, hact, hez⟩ := h.exists_successor hz'
  cases hes : (constructNexts A [p]).lookup c.1 with
  | none =>
    rw [next_eq_nil_of_constructNexts hes p (by simp)] at htr
    exact absurd htr (by simp)
  | some es => exact ⟨es, rfl, e, (mem_constructNexts hes e).2 ⟨p, by simp, tr, htr, he⟩, hact, hez⟩

theorem exists_reaches (hz : z ∈ zoneGraph A.toAutomaton n) :
    ∃ q, Reaches A n M q ∧ q.Denotes M z := by
  obtain ⟨x, hx⟩ := hz
  induction x using List.reverseRecOn generalizing z with
  | nil =>
    obtain ⟨q, hq, hqz⟩ := exists_mem_initConfs hx
    exact ⟨q, .initial hq, hqz⟩
  | append_singleton x c ih =>
    rw [NFA.eval_append_singleton] at hx
    obtain ⟨z₁, hz₁, hstep⟩ := NFA.mem_stepSet.1 hx
    obtain ⟨p, hp, hpz⟩ := ih hz₁
    obtain ⟨es, hes, e, he, -, hez⟩ := hpz.exists_entry hstep
    exact ⟨e.conf, .next hp hes he, hez⟩

/-- The configuration of a node. -/
def ZConf.toConf (M : Bounds) (z : ZConf n) : Conf n := (z.1, ⟨z.2.bound, M⟩)

theorem ZConf.denotes_toConf (M : Bounds) (z : ZConf n) : (z.toConf M).Denotes M z :=
  ⟨rfl, z.2.represents_mk M, rfl⟩

/-- The tuple of a node. -/
def ZConf.tuple (M : Bounds) (z : ZConf n) : Ptr × DBM.Tuple := (z.1, (z.toConf M).2.toTuple)

theorem Conf.Denotes.tuple_eq (h : p.Denotes M z) : (p.1, p.2.toTuple) = z.tuple M :=
  (h.tuple_iff (z.denotes_toConf M)).2 rfl

theorem ZConf.tuple_injective (M : Bounds) : Function.Injective (ZConf.tuple (n := n) M) :=
  fun z z' h => ((z.denotes_toConf M).tuple_iff (z'.denotes_toConf M)).1 h

/-- The reachable tuples are those of the nodes of the zone graph. -/
theorem confTuples_eq : confTuples A n M = ZConf.tuple M '' zoneGraph A.toAutomaton n := by
  ext k
  constructor
  · rintro ⟨q, hq, rfl⟩
    obtain ⟨z, hz, hqz⟩ := hq.exists_denotes
    exact ⟨z, hz, hqz.tuple_eq.symm⟩
  · rintro ⟨z, hz, rfl⟩
    obtain ⟨q, hq, hqz⟩ := exists_reaches (M := M) hz
    exact ⟨q, hq, hqz.tuple_eq⟩

theorem finite_confTuples_iff :
    (confTuples A n M).Finite ↔ (zoneGraph A.toAutomaton n).Finite := by
  rw [confTuples_eq]
  exact Set.finite_image_iff (ZConf.tuple_injective M).injOn

/-! ## The sets after words -/

variable (A M n) in
/-- The next set of configurations: the initial ones, and those that
    `constructNexts` makes of a configuration, with the delay within the bounds. -/
def nextConfs (R : Set (Conf n)) (c : UInt8 × ℚ) : Set (Conf n) :=
  {q | q ∈ initConfs A n M} ∪ {q | ∃ p ∈ R, ∃ es, (constructNexts A [p]).lookup c.1 = some es ∧
    ∃ e ∈ es, e.Active c.2 ∧ e.conf = q}

variable (A M n) in
/-- The set of configurations after a word. -/
def confsAfter (x : List (UInt8 × ℚ)) : Set (Conf n) :=
  x.foldl (nextConfs n A M) {q | q ∈ initConfs A n M}

/-- **The sets after words** are those of the zone graph. -/
theorem confsAfter_spec (x : List (UInt8 × ℚ)) :
    (∀ q ∈ confsAfter n A M x, ∃ z ∈ suffixEval (zoneNFA A.toAutomaton n) x, q.Denotes M z) ∧
      ∀ z ∈ suffixEval (zoneNFA A.toAutomaton n) x, ∃ q ∈ confsAfter n A M x, q.Denotes M z := by
  induction x using List.reverseRecOn with
  | nil =>
    rw [suffixEval_nil]
    exact ⟨fun q hq => exists_denotes_of_mem_initConfs hq, fun z hz => exists_mem_initConfs hz⟩
  | append_singleton x c ih =>
    rw [suffixEval_append_singleton]
    have hx : confsAfter n A M (x ++ [c]) = nextConfs n A M (confsAfter n A M x) c := by
      unfold confsAfter; rw [List.foldl_append]; rfl
    rw [hx]
    constructor
    · rintro q (hq | ⟨p, hp, es, hes, e, he, hact, rfl⟩)
      · obtain ⟨z, hz, hq⟩ := exists_denotes_of_mem_initConfs hq
        exact ⟨z, Or.inl hz, hq⟩
      · obtain ⟨z, hz, hpz⟩ := ih.1 p hp
        obtain ⟨p', hp', tr, htr, he⟩ := (mem_constructNexts hes e).1 he
        obtain rfl := List.mem_singleton.1 hp'
        obtain ⟨z', hz', -, -, hstep⟩ := hpz.of_successor htr he
        exact ⟨z', Or.inr (NFA.mem_stepSet.2 ⟨z, hz, hstep c.2 hact⟩), hz'⟩
    · rintro z' (hz' | hz')
      · obtain ⟨q, hq, hqz⟩ := exists_mem_initConfs hz'
        exact ⟨q, Or.inl hq, hqz⟩
      · obtain ⟨z, hz, hstep⟩ := NFA.mem_stepSet.1 hz'
        obtain ⟨p, hp, hpz⟩ := ih.2 z hz
        obtain ⟨es, hes, e, he, hact, hez⟩ := hpz.exists_entry hstep
        exact ⟨e.conf, Or.inr ⟨p, hp, es, hes, e, he, hact, rfl⟩, hez⟩

end

end MooreFilter

/-
  The identity of zones.

  A zone is compared in three ways: by its tuple, which is in the keys of the states,
  by `operator==` in the sweep, and by the valuations it stands for.

  * `successor_congr`: the entry `(0, 0)` has no effect on the successors and on the
    bounds of the delays;
  * `reaches_of_mem_toOldStates`: the configurations of the states that
    `toTimedMooreMachine` makes are reachable by `constructNexts`;
  * `zone_identity`: for reachable configurations the three ways agree.
-/
import MooreFilter.Proof.Canonize
import MooreFilter.Proof.TimedSubset
import Mathlib.Tactic.TFAE

namespace MooreFilter

open Difference (Sat)

variable {n : ℕ} {A : AutomatonWithCounter TATransition} {M : Bounds}

/-! ## The entry `(0, 0)` -/

/-- `elapse` overwrites the entry `(0, 0)`. -/
theorem DBM.elapse_congr {D D' : DBM n}
    (h : ∀ i j, ¬ (i = 0 ∧ j = 0) → D.value i j = D'.value i j) (hM : D.M = D'.M) :
    D.elapse = D'.elapse := by
  refine DBM.ext_value (funext fun i => funext fun j => ?_) hM
  unfold DBM.elapse
  dsimp only
  rcases eq_or_ne j 0 with rfl | hj
  · rw [if_pos rfl, if_pos rfl]
  · rw [if_neg hj, if_neg hj, h i j fun e => hj e.2]

/-- Matrices of the same zone have the same successors. -/
theorem successor_congr {D D' : DBM n} {Z : Zone n} (h : D.Represents Z) (h' : D'.Represents Z)
    (hM : D.M = D'.M) (tr : TATransition) : successor D tr = successor D' tr := by
  have helapse : D.elapse = D'.elapse :=
    DBM.elapse_congr (fun i j hij => (h.eq i j hij).trans (h'.eq i j hij).symm) hM
  have hduration := DBM.findDuration_congr h h' (constraintsToDBM n tr.guard)
  unfold successor
  dsimp only
  rw [helapse, hduration]

theorem constructNexts_congr {p q : Conf n} (hstate : p.1 = q.1)
    (h : ∀ tr, successor p.2 tr = successor q.2 tr) (l l' : List (Conf n)) :
    constructNexts A (l ++ p :: l') = constructNexts A (l ++ q :: l') := by
  unfold constructNexts
  simp only [List.flatMap_append, List.flatMap_cons, hstate, funext h]

/-! ## Reachable configurations -/

/-- The successors of reachable configurations are reachable. -/
theorem Reaches.of_successor {p : Conf n} (hp : Reaches A n M p) {c : UInt8} {tr : TATransition}
    (htr : tr ∈ A.next p.1 c) {e : Entry n} (he : successor p.2 tr = some e) :
    Reaches A n M e.conf := by
  cases hes : (constructNexts A [p]).lookup c with
  | none =>
    rw [next_eq_nil_of_constructNexts hes p (by simp)] at htr
    exact absurd htr (by simp)
  | some es => exact .next hp hes ((mem_constructNexts hes e).2 ⟨p, by simp, tr, htr, he⟩)

/-- The states of the construction hold reachable configurations. -/
theorem reaches_of_mem_toOldStates {addr : Ptr ↪ ℕ} {order : Ptr → UInt8 → ℕ} {N : ℕ}
    {b : DRTABuilder n} {curr rest : List Ptr}
    (hr : Worklist.Reached (addTimedTransitions addr order N A M) (drtaStart addr N A M) b curr
      rest) : ∀ p ∈ b.states, ∀ q ∈ b.toOldStates p, Reaches A n M q := by
  induction hr with
  | start =>
    obtain ⟨p₀, b₀, he, -, hst, -, hold, -, -⟩ := drtaStart_spec addr N A n M
    rw [he]
    intro p hp q hq
    obtain rfl : p = p₀ := by rw [hst] at hp; exact List.mem_singleton.1 hp
    rw [hold] at hq
    exact .initial hq
  | refill _ ih => exact ih
  | @process b curr p₀ rest b' curr' hr hp ih =>
    have hlinking := linking_of_reached hr
    obtain ⟨L, hL, -⟩ := Option.map_eq_some_iff.1 hp
    obtain ⟨b₁, new, he, -, hg, hocc⟩ :=
      hlinking.addTimedTransitions (noReturn_of_linearlizeNexts hL)
    rw [he] at hp
    obtain ⟨rfl, -⟩ := Prod.mk.inj (Option.some.inj hp)
    intro p hp q hq
    rw [hg.states] at hp
    rcases List.mem_append.1 hp with hp | hp
    · rw [hg.old_eq p hp] at hq; exact ih p hp q hq
    · obtain ⟨c, es, hes, hq⟩ := hocc p hp q hq
      rcases hq with hq | ⟨e, he, rfl⟩
      · exact .initial hq
      · obtain ⟨p, hp, tr, htr, he⟩ := (mem_constructNexts hes e).1 he
        exact (ih p₀ (hlinking.2.1 p₀ (by simp)) p hp).of_successor htr he

/-! ## Identity -/

/-- Equal valuations are equal zones. -/
theorem Conf.Denotes.contains_iff {p q : Conf n} {z z' : ZConf n} (h : p.Denotes M z)
    (h' : q.Denotes M z') : (∀ u, p.2.Contains u ↔ q.2.Contains u) ↔ z.2 = z'.2 := by
  constructor
  · intro hpq
    refine Zone.ext_sat fun v => ?_
    rw [← h.zone.agrees.sat_iff, ← h'.zone.agrees.sat_iff, ← DBM.contains_clocks,
      ← DBM.contains_clocks]
    exact hpq _
  · intro he u
    unfold DBM.Contains
    rw [h.zone.agrees.sat_iff, h'.zone.agrees.sat_iff, he]

/-- **Zone identity.** For reachable configurations, equal tuples, equality by `operator==`
and the same valuations are the same, and then the zones have the same successors with the same
bounds on the delays. -/
theorem zone_identity (A : AutomatonWithCounter TATransition) (n : ℕ) (M : Bounds) (p q : Conf n)
    (hp : Reaches A n M p) (hq : Reaches A n M q) :
    [p.2.toTuple = q.2.toTuple, p.2.beq q.2 = true,
      ∀ u, p.2.Contains u ↔ q.2.Contains u].TFAE ∧
    (p.2.beq q.2 = true →
      (∀ z, p.2.findDuration z = q.2.findDuration z) ∧
      (∀ tr, successor p.2 tr = successor q.2 tr) ∧
      ∀ s l l',
        constructNexts A (l ++ (s, p.2) :: l') = constructNexts A (l ++ (s, q.2) :: l')) := by
  obtain ⟨z, -, hpz⟩ := hp.exists_denotes
  obtain ⟨z', -, hqz⟩ := hq.exists_denotes
  refine ⟨?_, fun hbeq => ?_⟩
  · tfae_have 1 ↔ 2 := (hpz.toTuple_iff hqz).trans (hpz.beq_iff hqz).symm
    tfae_have 2 ↔ 3 := (hpz.beq_iff hqz).trans (hpz.contains_iff hqz).symm
    tfae_finish
  · have hzone : q.2.Represents z.2 := (hpz.beq_iff hqz).1 hbeq ▸ hqz.zone
    have hsucc := successor_congr hpz.zone hzone (hpz.M_eq.trans hqz.M_eq.symm)
    exact ⟨DBM.findDuration_congr hpz.zone hzone, hsucc,
      fun s l l' => constructNexts_congr (p := (s, p.2)) (q := (s, q.2)) rfl hsucc l l'⟩

/-- The loop on `a` that resets its clock, with a counter. -/
def resettingLoop : AutomatonWithCounter TATransition :=
  { (FiniteAutomaton.loop 97 [(⟨0, [0], []⟩ : TATransition)] (by decide)).toAutomaton with
    counter := fun _ => 0 }

/-- After the loop the entry `(0, 0)` is infinite, and the zone the same. -/
theorem zone_identity_resettingLoop : ∃ q : Conf 1, Reaches resettingLoop 1 (.fin 1 true) q ∧
    q.2.value 0 0 = .inf ∧ { DBM.zero 1 with M := .fin 1 true }.toTuple = q.2.toTuple ∧
      ∀ u, { DBM.zero 1 with M := .fin 1 true }.Contains u ↔ q.2.Contains u := by
  set p : Conf 1 := (0, { DBM.zero 1 with M := .fin 1 true }) with hp
  have hpr : Reaches resettingLoop 1 (.fin 1 true) p := .initial (mem_initConfs.2 ⟨by decide, rfl⟩)
  have htr : (⟨0, [0], []⟩ : TATransition) ∈ resettingLoop.next p.1 97 := by decide +kernel
  have h : (successor p.2 ⟨0, [0], []⟩).map (fun e => (p.2.beq e.conf.2, e.conf.2.value 0 0)) =
      some (true, .inf) := by decide +kernel
  obtain ⟨e, he, hbeq⟩ := Option.map_eq_some_iff.1 h
  obtain ⟨hbeq, hinf⟩ := Prod.mk.inj hbeq
  have hqr := hpr.of_successor htr he
  have htfae := (zone_identity resettingLoop 1 (.fin 1 true) p e.conf hpr hqr).1
  exact ⟨e.conf, hqr, hinf, (htfae.out 1 0).1 hbeq, (htfae.out 1 2).1 hbeq⟩

end MooreFilter

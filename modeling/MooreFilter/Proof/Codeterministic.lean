/-
  Timed automata for which the construction ends.

  * `subperm_of_linearlize`: a part holds initial configurations and those of entries,
    each as often as they occur;
  * `Codeterministic A`: on a letter, at most one transition leads to a state, and none
    to an initial one.  Then the configurations of a state have different states of the
    automaton (`distinct_of_reached`), so that no list has repetitions;
  * `codeterministic_ends_iff`: for these the construction ends iff the runs are bounded;
  * `Ranked A`: the transitions lead to states of a higher rank; then there are finitely
    many nodes in the zone graph (`finite_zoneGraph_of_ranked`);
  * `main_timed_ends`: on graphs like this (`BoostGraph.Layered`) the timed program ends,
    with the timed matches in its output.
-/
import MooreFilter.Proof.Program
import MooreFilter.Proof.StateCount
import MooreFilter.Proof.TimedStates
import Mathlib.Data.List.Perm.Subperm

namespace MooreFilter

open Stamps (condense)

variable {n : ℕ}

/-! ## What the parts hold -/

section
variable {init : List (Conf n)} {es : List (Entry n)} {s : Sweep n}

/-- The configurations that are taken off the deque are added to the current ones. -/
theorem addAll_perm (b : Cut) (vec : List (Conf n × Cut)) (cur : List (Conf n)) :
    ((Sweep.addAll init b vec cur).2 ++ (Sweep.addAll init b vec cur).1.map Prod.fst).Perm
      (cur ++ vec.map Prod.fst) := by
  induction vec generalizing cur with
  | nil => exact List.Perm.refl _
  | cons x vec ih =>
    unfold Sweep.addAll
    split_ifs
    · exact List.Perm.refl _
    · have h := ih (cur ++ [x.1])
      rwa [List.append_assoc] at h
    · exact List.Perm.refl _

theorem removeAll_sublist (b : Cut) (vec : List (Conf n × Cut)) (cur : List (Conf n)) :
    (Sweep.removeAll init b vec cur).2.Sublist cur := by
  induction vec generalizing cur with
  | nil => exact List.Sublist.refl _
  | cons x vec ih =>
    unfold Sweep.removeAll
    split_ifs
    · exact List.Sublist.refl _
    · exact (ih _).trans List.eraseP_sublist
    · exact List.Sublist.refl _

/-- No configuration occurs more often than in the initial ones and the entries. -/
theorem Sweep.Reached.subperm (hr : Sweep.Reached init (Sweep.start init es) s) :
    (s.currentStates ++ s.lowerVec.map Prod.fst).Subperm (init ++ es.map Entry.conf) ∧
      ∀ part ∈ s.nextLineared, part.1.Subperm (init ++ es.map Entry.conf) := by
  induction hr with
  | start =>
    refine ⟨?_, fun part hpart => absurd hpart List.not_mem_nil⟩
    refine (List.Perm.append_left init ?_).subperm
    change ((sortLower es).map Prod.fst).Perm (es.map Entry.conf)
    rw [sortLower, List.map_map]
    exact (List.perm_insertionSort _ es).map Entry.conf
  | emit b _ ih =>
    refine ⟨ih.1, fun part hpart => ?_⟩
    rcases List.mem_append.1 hpart with hpart | hpart
    · exact ih.2 part hpart
    · rw [List.mem_singleton.1 hpart]
      exact (List.sublist_append_left _ _).subperm.trans ih.1
  | lower _ h ih =>
    unfold Sweep.useLowerFront at h
    split at h
    · exact absurd h (by simp)
    · obtain rfl := Option.some.inj h
      exact ⟨(addAll_perm _ _ _).subperm.trans ih.1, ih.2⟩
  | upper _ h ih =>
    unfold Sweep.useUpperFront at h
    split at h
    · exact absurd h (by simp)
    · obtain rfl := Option.some.inj h
      refine ⟨?_, ih.2⟩
      exact ((removeAll_sublist _ _ _).append_right _).subperm.trans ih.1

theorem subperm_of_linearlize {parts : List (Part n)} (h : linearlize init es = some parts) :
    ∀ part ∈ parts, part.1.Subperm (init ++ es.map Entry.conf) := by
  obtain ⟨s, hr, -, rfl⟩ := Sweep.reached_of_linearlize h
  have hinit : init.Subperm (init ++ es.map Entry.conf) := (List.sublist_append_left _ _).subperm
  have hlast : ∀ b : Cut, ∀ part ∈ s.nextLineared ++ [(init, b)],
      part.1.Subperm (init ++ es.map Entry.conf) := by
    intro b part hpart
    rcases List.mem_append.1 hpart with hpart | hpart
    · exact hr.subperm.2 part hpart
    · rw [List.mem_singleton.1 hpart]; exact hinit
  unfold closeParts
  dsimp only
  split
  · exact hlast _
  · split_ifs
    · exact hr.subperm.2
    · exact hlast _

end

/-! ## Distinct states -/

/-- On each letter at most one transition leads to a state, and none to an initial one. -/
structure Codeterministic (A : Automaton (NDState TATransition)) : Prop where
  initial_nodup : A.initialStates.Nodup
  initial : ∀ s ∈ A.states, ∀ c, ∀ tr ∈ A.next s c, lock tr ∉ A.initialStates
  target_nodup : ∀ s ∈ A.states, ∀ c, ((A.next s c).map lock).Nodup
  source : ∀ s ∈ A.states, ∀ s' ∈ A.states, ∀ c, ∀ tr ∈ A.next s c, ∀ tr' ∈ A.next s' c,
    lock tr = lock tr' → s = s'

/-- The configurations have different states. -/
def Distinct (l : List (Conf n)) : Prop := (l.map Prod.fst).Nodup

theorem Distinct.of_subperm {l l' : List (Conf n)} (h : l.Subperm l') (hl' : Distinct l') :
    Distinct l := by
  obtain ⟨l₁, hperm, hsub⟩ := h
  exact (hperm.map Prod.fst).nodup_iff.1 ((hsub.map Prod.fst).nodup hl')

theorem Distinct.nodup_tuples {l : List (Conf n)} (h : Distinct l) : (tuples l).Nodup := by
  refine List.Nodup.of_map Prod.fst ?_
  unfold tuples
  rw [List.map_map]
  exact h

theorem state_of_successor {D : DBM n} {tr : TATransition} {e : Entry n}
    (h : successor D tr = some e) : e.conf.1 = lock tr := by
  unfold successor at h
  dsimp only at h
  split_ifs at h
  obtain rfl := Option.some.inj h
  rfl

section
variable {A : AutomatonWithCounter TATransition} {M : Bounds} {l : List (Conf n)}

theorem distinct_initConfs (h : A.initialStates.Nodup) : Distinct (initConfs A n M) := by
  unfold Distinct initConfs
  rw [List.map_map]
  exact (List.map_id _).symm ▸ h

/-- The initial configurations and the successors of configurations with different states
    have different states. -/
theorem Codeterministic.distinct_entries (hA : Codeterministic A.toAutomaton) (hl : Distinct l)
    (hmem : ∀ q ∈ l, q.1 ∈ A.states) {c : UInt8} {es : List (Entry n)}
    (hes : (constructNexts A l).lookup c = some es) :
    Distinct (initConfs A n M ++ es.map Entry.conf) := by
  have htarget : ∀ e ∈ es, ∃ q ∈ l, ∃ tr ∈ A.next q.1 c, e.conf.1 = lock tr := by
    intro e he
    obtain ⟨q, hq, tr, htr, hsucc⟩ := (mem_constructNexts hes e).1 he
    exact ⟨q, hq, tr, htr, state_of_successor hsucc⟩
  have hstates : (es.map fun e => e.conf.1).Nodup := by
    rw [lookup_constructNexts] at hes
    split_ifs at hes
    obtain rfl := Option.some.inj hes
    rw [List.map_flatMap, List.nodup_flatMap]
    -- the successors of one configuration, and of two
    have hsub : ∀ q : Conf n, (((A.next q.1 c).filterMap (successor q.2)).map
        fun e => e.conf.1).Sublist ((A.next q.1 c).map lock) := by
      intro q
      induction A.next q.1 c with
      | nil => exact List.Sublist.refl _
      | cons tr trs ih =>
        rw [List.filterMap_cons]
        cases hsucc : successor q.2 tr with
        | none => exact ih.trans (List.sublist_cons_self _ _)
        | some e =>
          rw [List.map_cons, List.map_cons, state_of_successor hsucc]
          exact ih.cons_cons _
    refine ⟨fun q hq => (hsub q).nodup (hA.target_nodup q.1 (hmem q hq) c), ?_⟩
    refine (List.pairwise_map.1 hl).imp_of_mem fun {q q'} hq hq' hne => ?_
    intro s hs hs'
    obtain ⟨tr, htr, rfl⟩ := List.mem_map.1 ((hsub q).subset hs)
    obtain ⟨tr', htr', he⟩ := List.mem_map.1 ((hsub q').subset hs')
    exact hne (hA.source q.1 (hmem q hq) q'.1 (hmem q' hq') c tr htr tr' htr' he.symm)
  unfold Distinct
  rw [List.map_append, List.map_map]
  refine (distinct_initConfs hA.initial_nodup).append hstates fun s hs hs' => ?_
  obtain ⟨q₀, hq₀, rfl⟩ := List.mem_map.1 hs
  obtain ⟨e, he, hes'⟩ := List.mem_map.1 hs'
  obtain ⟨q, hq, tr, htr, hlock⟩ := htarget e he
  refine hA.initial q.1 (hmem q hq) c tr htr ?_
  rw [← hlock, show e.conf.1 = q₀.1 from hes']
  exact (mem_initConfs.1 hq₀).1

/-- So have those of a part. -/
theorem Codeterministic.distinct_part (hA : Codeterministic A.toAutomaton) (hl : Distinct l)
    (hmem : ∀ q ∈ l, q.1 ∈ A.states) {L : List (UInt8 × List (Part n))}
    (hL : linearlizeNexts (initConfs A n M) (constructNexts A l) = some L) {order : UInt8 → ℕ}
    {a : UInt8} {ps : List (Part n)} (hps : (a, ps) ∈ iterate order L) {part : Part n}
    (hpart : part ∈ ps) : Distinct part.1 := by
  obtain ⟨es, hes, hparts⟩ := exists_linearlize_of_mem_iterate hL hps
  exact (hA.distinct_entries (M := M) hl hmem hes).of_subperm
    (subperm_of_linearlize hparts part hpart)

end

section
variable {addr : Ptr ↪ ℕ} {order : Ptr → UInt8 → ℕ} {N : ℕ}
  {A : AutomatonWithCounter TATransition} {M : Bounds} {b : DRTABuilder n} {curr rest : List Ptr}

/-- The configurations of the states made so far have states of the automaton. -/
theorem mem_states_of_reached (hA : A.WellFormed N)
    (hr : Worklist.Reached (addTimedTransitions addr order N A M) (drtaStart addr N A M) b curr
      rest) :
    ∀ p ∈ b.states, ∀ q ∈ b.toOldStates p, q.1 ∈ A.states := by
  intro p hp q hq
  obtain ⟨z, hz, hqz⟩ := (linking_of_reached hr).1.denotes p hp q hq
  rw [hqz.state]; exact hA.mem_states hz

/-- **The configurations of a state have different states of the automaton.** -/
theorem Codeterministic.distinct_of_reached (hA : Codeterministic A.toAutomaton)
    (hW : A.WellFormed N)
    (hr : Worklist.Reached (addTimedTransitions addr order N A M) (drtaStart addr N A M) b curr
      rest) :
    ∀ p ∈ b.states, Distinct (b.toOldStates p) := by
  refine hr.inv (fun b _ => ∀ p ∈ b.states, Distinct (b.toOldStates p)) ?_
    fun b curr p rest b' curr' hr hb he => ?_
  · obtain ⟨q, b, he, -, hst, -, hself, -⟩ := drtaStart_spec addr N A n M
    rw [he]
    intro p hp
    obtain rfl : p = q := List.mem_singleton.1 (hst ▸ hp)
    change Distinct (b.toOldStates p)
    rw [hself]; exact distinct_initConfs hA.initial_nodup
  · obtain ⟨L, hL, he⟩ := Option.map_eq_some_iff.1 he
    have hp := mem_of_reached hr
    let Inv st := Stored addr N A (b, curr) st ∧ ∀ p ∈ st.1.states, Distinct (st.1.toOldStates p)
    have hInv : Inv ((iterate (order p) L).foldl (addParts addr N A p) (b, curr)) := by
      refine foldl_addParts_inv ⟨.refl (interned_of_reached hr), hb⟩
        (fun st a es h => ⟨h.1.setNextDRTA p a es, h.2⟩) fun L₁ a ps₁ part ps₂ L₂ hsplit h => ?_
      refine ⟨h.1.addPart hp, ?_⟩
      obtain ⟨b₁, new, t, he₁, -, hg, -, -, hnew⟩ :=
        addPart_spec h.1.interned (h.1.mem hp) a (midway addr N A p (b, curr) L₁ a ps₁).2 part
      rw [show addPart addr N A p a (midway addr N A p (b, curr) L₁ a ps₁) part = _ from he₁]
      intro q hq
      rw [hg.states] at hq
      rcases List.mem_append.1 hq with hq | hq
      · rw [hg.old_eq q hq]; exact h.2 q hq
      · -- a new state was made for the part
        rcases hnew with ⟨rfl, -, -⟩ | ⟨rfl, -, -, hold⟩
        · exact absurd hq List.not_mem_nil
        · rw [List.mem_singleton.1 hq, hold]
          exact hA.distinct_part (hb p hp) (mem_states_of_reached hW hr p hp) hL
            (hsplit ▸ List.mem_append_right _ List.mem_cons_self)
            (List.mem_append_right _ List.mem_cons_self)
    rw [he] at hInv
    exact hInv.2

/-- No lookup is of a set whose state was made for a list with repetitions. -/
theorem Codeterministic.lookupOk (hA : Codeterministic A.toAutomaton) (hW : A.WellFormed N)
    {part : Part n} (h : LooksUp addr order N A M b part) : LookupOk b part := by
  refine lookupOk_of_nodup hA.initial_nodup (fun b part h => ?_) h
  obtain ⟨hr, hL, hsplit⟩ := h
  have hp := mem_of_reached hr
  refine (hA.distinct_part (hA.distinct_of_reached hW hr _ hp)
    (mem_states_of_reached hW hr _ hp) hL (hsplit ▸ List.mem_append_right _ List.mem_cons_self)
    (List.mem_append_right _ List.mem_cons_self)).nodup_tuples

end

/-! ## The counter product -/

section
variable {A : FiniteAutomaton TATransition} {N : ℕ} {B : AutomatonWithCounter TATransition}
  {src : Ptr → Ptr × ℕ}

/-- A state that no transition leads to is reached with the counter `0`, the others are
    not. -/
theorem CounterReach.zero_iff (hA : Codeterministic A.toAutomaton) {x : Ptr × ℕ}
    (h : CounterReach A.toAutomaton N x) : x.2 = 0 ↔ x.1 ∈ A.initialStates := by
  cases h with
  | initial hs => exact ⟨fun _ => hs, fun _ => rfl⟩
  | next h ht =>
    exact ⟨fun h0 => absurd h0 (nextCount_pos N _).ne',
      fun hs => absurd hs (hA.initial _ h.mem _ _ ht)⟩

/-- The counters before a transition are known by the one after it, if a state is known to
    be initial. -/
theorem eq_of_nextCount_eq {c c' : ℕ} (hc : c ≤ N) (hc' : c' ≤ N) (h0 : c = 0 ↔ c' = 0)
    (h : nextCount N c = nextCount N c') : c = c' := by
  unfold nextCount at h
  split_ifs at h <;> omega

/-- The product with the counter is codeterministic. -/
theorem CounterProduct.codeterministic (hN : 0 < N) (h : CounterProduct A.toAutomaton N B src)
    (hA : Codeterministic A.toAutomaton) : Codeterministic B.toAutomaton where
  initial_nodup := by
    have hnd : (B.initialStates.map src).Nodup :=
      h.initial.nodup_iff.2 (hA.initial_nodup.map fun _ _ he => (Prod.mk.inj he).1)
    exact hnd.of_map
  initial p hp c tr htr hinit := by
    obtain ⟨t, -, -, hsrc, -⟩ := h.exists_of_mem_next hp htr
    have hzero := (h.src_of_mem_initial hinit).2
    rw [hsrc] at hzero
    exact absurd hzero (nextCount_pos N _).ne'
  target_nodup p hp c := by
    have hnd := hA.target_nodup (src p).1 (h.reach p hp).mem c
    have hmap : ((B.next p c).map lock).map (fun q => (src q).1) =
        (A.next (src p).1 c).map lock := by
      rw [List.map_map, ← List.forall₂_eq_eq_eq, List.forall₂_map_left_iff,
        List.forall₂_map_right_iff]
      refine (h.next p hp c).flip.imp fun t' t ht => ?_
      obtain ⟨q, -, hsrc, rfl⟩ := ht
      change (src (lock (assign t q))).1 = lock t
      rw [lock_assign, hsrc]
    exact (hmap ▸ hnd).of_map
  source p hp p' hp' c tr htr tr' htr' he := by
    obtain ⟨t, ht, -, hsrc, -⟩ := h.exists_of_mem_next hp htr
    obtain ⟨t', ht', -, hsrc', -⟩ := h.exists_of_mem_next hp' htr'
    rw [← he, hsrc] at hsrc'
    obtain ⟨hlock, hcount⟩ := Prod.mk.inj hsrc'
    have hr := h.reach p hp
    have hr' := h.reach p' hp'
    have hstate : (src p).1 = (src p').1 :=
      hA.source _ hr.mem _ hr'.mem c t ht t' ht' hlock
    have hzero : (src p).2 = 0 ↔ (src p').2 = 0 := by
      rw [hr.zero_iff hA, hr'.zero_iff hA, hstate]
    exact h.inj hA.initial_nodup hp hp'
      (Prod.ext hstate (eq_of_nextCount_eq (hr.le hN) (hr'.le hN) hzero hcount))

end

/-! ## The end of the construction -/

theorem Codeterministic.lookupsOk {TA : TimedAutomaton} (hTA : Codeterministic TA.toAutomaton)
    {N : ℕ} (hN : 0 < N) (addr : Ptr ↪ ℕ) (order : Ptr → UInt8 → ℕ) :
    LookupsOk addr order N TA := by
  intro fuel B hB M _ b part h
  obtain ⟨src, hP⟩ := counterProduct_of_run hN hB
  exact (hP.codeterministic hN hTA).lookupOk (hP.wellFormed hN) h

/-- **For codeterministic automata** the timed construction ends iff the runs are
    bounded. -/
theorem codeterministic_ends_iff (TA : TimedAutomaton) (hTA : TA.Buildable)
    (hcod : Codeterministic TA.toAutomaton) (N : ℕ) (hN : 0 < N) (addr : Ptr ↪ ℕ)
    (order : Ptr → UInt8 → ℕ) :
    (∃ fuel T, TA.constructFilter addr order N fuel = some T) ↔
      BoundedRuns TA.toAutomaton TA.clockSize :=
  ⟨boundedRuns_of_constructFilter hN,
    fun h => exists_constructFilter_of_boundedRuns hN hTA h (hcod.lookupsOk hN addr order)⟩

/-- The transitions lead to states of a higher rank. -/
def Ranked (A : FiniteAutomaton TATransition) : Prop :=
  ∃ rank : Ptr → ℕ, ∀ s ∈ A.states, ∀ c, ∀ tr ∈ A.next s c, rank s < rank (lock tr)

/-- The nodes of the zone graph that are a number of transitions from the start. -/
def zoneLevel (A : Automaton (NDState TATransition)) (n k : ℕ) : Set (ZConf n) :=
  {z | ∃ x, x.length = k ∧ z ∈ (zoneNFA A n).eval x}

theorem finite_zoneLevel (A : Automaton (NDState TATransition)) (n k : ℕ) :
    (zoneLevel A n k).Finite := by
  induction k with
  | zero =>
    refine ((List.finite_toSet A.initialStates).image fun s => (s, Zone.zero n)).subset ?_
    rintro z ⟨x, hx, hz⟩
    obtain rfl := List.length_eq_zero_iff.1 hx
    exact ⟨z.1, hz.1, Prod.ext rfl hz.2.symm⟩
  | succ k ih =>
    have : Finite UInt8 := Finite.of_injective UInt8.toFin fun _ _ h => UInt8.toFin_inj.1 h
    -- a node, a letter and a transition have at most one successor
    refine (ih.biUnion fun z _ => Set.finite_iUnion fun c : UInt8 =>
      (List.finite_toSet (A.next z.1 c)).biUnion fun tr _ => Set.Subsingleton.finite
        (s := {z' : ZConf n | z'.1 = lock tr ∧ Zone.Succ tr z.2 z'.2}) ?_).subset ?_
    · rintro z₁ ⟨hs₁, h₁⟩ z₂ ⟨hs₂, h₂⟩
      exact Prod.ext (hs₁.trans hs₂.symm) (h₁.unique h₂)
    · rintro z' ⟨x, hx, hz'⟩
      rcases List.eq_nil_or_concat x with rfl | ⟨x, c, rfl⟩
      · exact absurd hx (by simp)
      · rw [List.concat_eq_append] at hx hz'
        rw [NFA.eval_append_singleton] at hz'
        obtain ⟨z, hz, tr, htr, hlock, hsucc, -⟩ := NFA.mem_stepSet.1 hz'
        refine Set.mem_biUnion (x := z) ⟨x, by simpa using hx, hz⟩ (Set.mem_iUnion.2 ⟨c.1, ?_⟩)
        exact Set.mem_biUnion (x := tr) htr ⟨hlock, hsucc⟩

/-- A run has at most as many transitions as there are ranks. -/
theorem finite_zoneGraph_of_ranked {A : FiniteAutomaton TATransition} {N : ℕ}
    {B : AutomatonWithCounter TATransition} {src : Ptr → Ptr × ℕ}
    (h : CounterProduct A.toAutomaton N B src) (hA : Ranked A) :
    (zoneGraph B.toAutomaton n).Finite := by
  obtain ⟨rank, hrank⟩ := hA
  obtain ⟨K, hK⟩ := ((List.finite_toSet A.states).image rank).bddAbove
  have hlevel : ∀ x : List (UInt8 × ℚ), ∀ z ∈ (zoneNFA B.toAutomaton n).eval x,
      z.1 ∈ B.states ∧ x.length ≤ rank (src z.1).1 := by
    intro x
    induction x using List.reverseRecOn with
    | nil => exact fun z hz => ⟨h.initial_mem z.1 hz.1, Nat.zero_le _⟩
    | append_singleton x c ih =>
      intro z' hz'
      rw [NFA.eval_append_singleton] at hz'
      obtain ⟨z, hz, tr, htr, hlock, -⟩ := NFA.mem_stepSet.1 hz'
      obtain ⟨hmem, hle⟩ := ih z hz
      obtain ⟨t, ht, hB, hsrc, -⟩ := h.exists_of_mem_next hmem htr
      have hlt := hrank _ (h.reach z.1 hmem).mem c.1 t ht
      rw [hlock, hsrc, List.length_append, List.length_singleton]
      exact ⟨hB, by dsimp only; omega⟩
  refine ((Set.finite_Iic K).biUnion fun k _ => finite_zoneLevel B.toAutomaton n k).subset ?_
  rintro z ⟨x, hz⟩
  obtain ⟨hmem, hle⟩ := hlevel x z hz
  exact Set.mem_biUnion (x := x.length)
    (hle.trans (hK ⟨_, (h.reach z.1 hmem).mem, rfl⟩)) ⟨x, rfl, hz⟩

theorem boundedRuns_of_ranked {TA : TimedAutomaton} (hTA : Ranked TA.toFiniteAutomaton) :
    BoundedRuns TA.toAutomaton TA.clockSize := by
  -- any product will do
  obtain ⟨fuel, B, hB⟩ := toAutomatonWithCounter_terminates (A := TA.toFiniteAutomaton) one_pos
    (Function.Embedding.refl ℕ)
  obtain ⟨src, hP⟩ := counterProduct_of_run one_pos hB
  exact (hP.finite_iff_boundedRuns one_pos (.fin 0 true)).1
    (finite_confTuples_iff.2 (finite_zoneGraph_of_ranked hP hTA))

/-! ## Graphs -/

/-- No two edges have the same label and target, none leads to an initial vertex, and the
    edges lead to vertices of a higher rank. -/
structure BoostGraph.Layered {ε : Type} (G : BoostGraph ε) (label : ε → UInt8) : Prop where
  nodup : (G.edges.map fun e => (label e.property, e.target)).Nodup
  initial : ∀ e ∈ G.edges, ∀ s ∈ G.vertices[e.target]?, s.isInit = false
  rank : ∃ rank : ℕ → ℕ, ∀ e ∈ G.edges, rank e.source < rank e.target

section
variable {D : DotGraph} {G : BoostTimedAutomaton}

/-- Reading the attributes keeps the edges where they are. -/
theorem BoostGraph.Layered.of_parse (hD : D.Layered DotTransition.label)
    (h : parseBoostTA D = some G) : G.Layered BoostTATransition.c := by
  obtain ⟨hvertices, hedges⟩ := parseBoostTA_eq_some h
  refine ⟨?_, fun b hb => ?_, ?_⟩
  · have hkeys : (G.edges.map fun e => (e.property.c, e.target)) =
        D.edges.map fun e => (e.property.label, e.target) := by
      rw [← List.forall₂_eq_eq_eq, List.forall₂_map_left_iff, List.forall₂_map_right_iff]
      refine hedges.flip.imp fun b e hread => ?_
      obtain ⟨-, htarget, hlabel, -⟩ := readEdge_eq_some.1 hread
      rw [hlabel, htarget]
    rw [hkeys]; exact hD.nodup
  · obtain ⟨e, he, hread⟩ := Related.exists_left hedges b hb
    rw [(readEdge_eq_some.1 hread).2.1, hvertices]
    exact hD.initial e he
  · obtain ⟨rank, hrank⟩ := hD.rank
    refine ⟨rank, fun b hb => ?_⟩
    obtain ⟨e, he, hread⟩ := Related.exists_left hedges b hb
    obtain ⟨hsource, htarget, -⟩ := readEdge_eq_some.1 hread
    rw [hsource, htarget]
    exact hrank e he

theorem codeterministic_convBoostTA (hG : G.Layered BoostTATransition.c) :
    Codeterministic (convBoostTA G).toAutomaton where
  initial_nodup := by
    have h : (nfaLoop G).initialStates.Nodup := nodup_initialStates_convBoostNFA G
    rw [(erased_nfaLoop G).initialStates] at h
    exact h
  initial s _ c tr htr hinit := by
    obtain ⟨e, he, -, -, rfl⟩ := mem_next_convBoostTA.1 htr
    obtain ⟨v, hv, hi⟩ := mem_initialStates_convBoostTA.1 hinit
    rw [hG.initial e he v hv] at hi
    exact absurd hi (by decide)
  target_nodup s _ c := by
    have hkeys : ((G.outEdges s).filter fun e => e.property.c = c).Sublist G.edges :=
      List.filter_sublist.trans List.filter_sublist
    have hnd := (hkeys.map fun e => (e.property.c, e.target)).nodup hG.nodup
    have hmap : (((convBoostTA G).next s c).map lock).map (fun v => (c, v)) =
        ((G.outEdges s).filter fun e => e.property.c = c).map
          fun e => (e.property.c, e.target) := by
      rw [next_convBoostTA, List.map_map, List.map_map]
      refine List.map_congr_left fun e he => Prod.ext ?_ rfl
      exact (of_decide_eq_true (List.mem_filter.1 he).2).symm
    exact (hmap ▸ hnd).of_map
  source s _ s' _ c tr htr tr' htr' he := by
    obtain ⟨e, he₁, rfl, hc, rfl⟩ := mem_next_convBoostTA.1 htr
    obtain ⟨e', he₂, rfl, hc', rfl⟩ := mem_next_convBoostTA.1 htr'
    rw [List.inj_on_of_nodup_map hG.nodup he₁ he₂ (Prod.ext (hc.trans hc'.symm) he)]

theorem ranked_convBoostTA (hG : G.Layered BoostTATransition.c) :
    Ranked (convBoostTA G).toFiniteAutomaton := by
  obtain ⟨rank, hrank⟩ := hG.rank
  refine ⟨rank, fun s _ c tr htr => ?_⟩
  obtain ⟨e, he, rfl, -, rfl⟩ := mem_next_convBoostTA.1 htr
  exact hrank e he

end

/-- **The timed program on layered graphs** ends, after a construction of the same length
    for all inputs, and its output has the timed matches of the graph. -/
theorem main_timed_ends (files : String → Option DotGraph) (N : ℕ) (hN : 0 < N)
    (gae : BitVec N → ℕ → Bool × BitVec N) (hgae : ∀ n ≤ N, Enables gae n) (addr : Ptr ↪ ℕ)
    (order : Ptr → UInt8 → ℕ) (opts : Options) (hopts : opts.Runs true) (D : DotGraph)
    (hfile : files opts.automatonFileName = some D) (G : BoostTimedAutomaton)
    (hD : parseBoostTA D = some G) (hlabel : ∀ e ∈ D.edges, e.property.label ≠ '_'.toUInt8)
    (hdec : ∀ e ∈ D.edges, e.property.Decimal) (hfit : ClocksFit D)
    (hover : ∀ e ∈ G.edges, ∀ g ∈ e.property.guard, ¬ g.Overflows)
    (hlayered : D.Layered DotTransition.label) :
    ∃ fuel, ∀ (letters : List UInt8) (events w : List (UInt8 × ℚ)),
      (w = if opts.abs then abs2rel events else events) → (∀ c ∈ w, 0 < c.2) →
        ∃ out, KeepsMatches G.TimedAccepts w out ∧
          main files gae addr order fuel opts letters events =
            some (.run (.events ((timedLines opts.abs out events).map printLine))) ∧
          ((∀ c ∈ events, ∃ k : ℤ, c.2 = k / 10 ^ 6) →
            (timedLines opts.abs out events).map printLine = timedLines opts.abs out events) := by
  have hG := hlayered.of_parse hD
  obtain ⟨fuel, T, hT⟩ := exists_constructFilter_of_boundedRuns hN (hfit.buildable hD hdec)
    (boundedRuns_of_ranked (ranked_convBoostTA hG))
    ((codeterministic_convBoostTA hG).lookupsOk hN addr order)
  refine ⟨fuel, fun letters events w hw hpos => ?_⟩
  have hr : main files gae addr order fuel opts letters events = _ :=
    (main_eq_some_timed hopts hfile hD).2 ⟨T, hT, rfl⟩
  obtain ⟨out, hout, he, hexact⟩ := keepsMatches_of_main_timed hN hgae hopts hfile hD hlabel hdec
    hfit hover hw hpos hr
  exact ⟨out, hout, hr.trans (congrArg some he), hexact⟩

/-- `gear_filter.dot` -/
def gearFilter : DotGraph where
  vertices := [⟨true, false⟩, ⟨false, false⟩, ⟨false, true⟩]
  edges := [⟨0, 1, ⟨'1'.toUInt8, braces ["0".toList], []⟩⟩,
    ⟨1, 2, ⟨'2'.toUInt8, [], braces ["x0 < 2".toList]⟩⟩]
  source_lt := by simp
  target_lt := by simp

theorem layered_gearFilter : gearFilter.Layered DotTransition.label :=
  ⟨by decide +kernel, by decide +kernel, id, by decide +kernel⟩

theorem parseBoostTA_gearFilter : ∃ G, parseBoostTA gearFilter = some G ∧
    ∀ e ∈ G.edges, ∀ g ∈ e.property.guard, ¬ g.Overflows := by
  obtain ⟨G, hG, hover⟩ := Option.map_eq_some_iff.1 (by decide +kernel :
    (parseBoostTA gearFilter).map (fun G =>
      decide (∀ e ∈ G.edges, ∀ g ∈ e.property.guard, ¬ g.Overflows)) = some true)
  exact ⟨G, hG, of_decide_eq_true hover⟩

theorem clocksFit_gearFilter : ClocksFit gearFilter :=
  ⟨by decide +kernel, by decide +kernel, by decide +kernel⟩

/-- The construction for this graph ends. -/
theorem codeterministic_ends_iff_gearFilter : ∃ G, parseBoostTA gearFilter = some G ∧
    ∃ fuel T, (convBoostTA G).constructFilter (Function.Embedding.refl ℕ) letterOrder 3 fuel =
      some T := by
  obtain ⟨G, hG, -⟩ := parseBoostTA_gearFilter
  have hlayered := layered_gearFilter.of_parse hG
  exact ⟨G, hG, (codeterministic_ends_iff (convBoostTA G)
    (clocksFit_gearFilter.buildable hG (by decide +kernel)) (codeterministic_convBoostTA hlayered) 3
    (by decide) (Function.Embedding.refl ℕ) letterOrder).2
    (boundedRuns_of_ranked (ranked_convBoostTA hlayered))⟩

/-- The program on this graph. -/
theorem main_timed_ends_gearFilter : ∃ G fuel out, parseBoostTA gearFilter = some G ∧
    KeepsMatches G.TimedAccepts [('1'.toUInt8, 3), ('2'.toUInt8, 1)] out ∧
    main (fun _ => some gearFilter) (getAndEnable (N := 1) x86Mask) (Function.Embedding.refl ℕ)
      letterOrder fuel ⟨"gear_filter.dot", false, false, false, false, true⟩ []
      [('1'.toUInt8, 3), ('2'.toUInt8, 1)] = some (.run (.events out)) := by
  obtain ⟨G, hG, hover⟩ := parseBoostTA_gearFilter
  obtain ⟨fuel, h⟩ := main_timed_ends (fun _ => some gearFilter) 1 one_pos (getAndEnable x86Mask)
    enables_x86Mask_one (Function.Embedding.refl ℕ) letterOrder
    ⟨"gear_filter.dot", false, false, false, false, true⟩
    ⟨by decide, rfl, rfl, rfl, fun _ => rfl⟩ gearFilter rfl G hG (by decide +kernel)
    (by decide +kernel) clocksFit_gearFilter hover layered_gearFilter
  obtain ⟨out, hout, hr, hexact⟩ := h [] [('1'.toUInt8, 3), ('2'.toUInt8, 1)] _ rfl
    (by decide +kernel)
  have hsix : ∀ c ∈ [('1'.toUInt8, (3 : ℚ)), ('2'.toUInt8, 1)], sixDecimals c.2 = c.2 := by
    decide +kernel
  rw [hexact fun c hc => sixDecimals_eq_iff.1 (hsix c hc)] at hr
  exact ⟨G, fuel, out, hG, hout, hr⟩

end MooreFilter

/-
  When the timed construction ends, and the states it makes.

  * `Zones.finite_zoneGraph`: a construction that ended has made a state for every node
    of the zone graph, so that there are finitely many;
  * `timed_ends`: it ends only if the runs are bounded, and then does if no lookup is of
    a set whose state was made for a list with repetitions (`LookupsOk`);
  * `timed_states`: two words lead to the same state only if the runs over their
    suffixes end in the same zones with the same counters, and then do under the same
    condition.
-/
import MooreFilter.Lib.Suffixes
import MooreFilter.Proof.Finiteness
import MooreFilter.Proof.TimedLaws

namespace MooreFilter

open Masking (suffixEval countedRuns)

variable {n : ℕ} {addr : Ptr ↪ ℕ} {order : Ptr → UInt8 → ℕ} {N : ℕ} {M : Bounds}

/-! ## The states and the zone graph -/

/-- The delays of a run of the zone graph are positive. -/
theorem pos_of_mem_eval {A : Automaton (NDState TATransition)} {x : List (UInt8 × ℚ)} {z : ZConf n}
    (hz : z ∈ (zoneNFA A n).eval x) : ∀ c ∈ x, 0 < c.2 := by
  induction x using List.reverseRecOn generalizing z with
  | nil => simp
  | append_singleton x c ih =>
    rw [NFA.eval_append_singleton] at hz
    obtain ⟨z', hz', hstep⟩ := NFA.mem_stepSet.1 hz
    obtain ⟨tr, -, -, -, v, v', -, hfires⟩ := mem_step_zoneNFA_iff.1 hstep
    intro d hd
    rcases List.mem_append.1 hd with hd | hd
    · exact ih hz' d hd
    · rw [List.mem_singleton.1 hd]; exact hfires.pos

section
variable {A : AutomatonWithCounter TATransition} {b : DRTABuilder n}

/-- A list holds the nodes of one set. -/
theorem HoldsExactly.unique {l : List (Conf n)} {S S' : Set (ZConf n)} (h : HoldsExactly M l S)
    (h' : HoldsExactly M l S') : S = S' := by
  have hsub : ∀ {S S' : Set (ZConf n)}, HoldsExactly M l S → HoldsExactly M l S' → S ⊆ S' := by
    intro S S' h h' z hz
    obtain ⟨q, hq, hqz⟩ := h.2 z hz
    obtain ⟨z', hz', hqz'⟩ := h'.1 q hq
    rw [hqz.unique hqz']; exact hz'
  exact (hsub h h').antisymm (hsub h' h)

/-- Lists that hold the same nodes have the same tuples. -/
theorem HoldsExactly.tuples_subset {l l' : List (Conf n)} {S : Set (ZConf n)}
    (h : HoldsExactly M l S) (h' : HoldsExactly M l' S) {k : Ptr × DBM.Tuple}
    (hk : k ∈ tuples l) : k ∈ tuples l' := by
  obtain ⟨q, hq, rfl⟩ := List.mem_map.1 hk
  obtain ⟨z, hz, hqz⟩ := h.1 q hq
  obtain ⟨q', hq', hqz'⟩ := h'.2 z hz
  exact List.mem_map.2 ⟨q', hq', (hqz'.tuple_iff hqz).2 rfl⟩

/-- Every node of the zone graph is in a state. -/
theorem Zones.finite_zoneGraph (hst : ∀ z ∈ zoneGraph A.toAutomaton n, z.1 ∈ A.states)
    (h : Zones addr N A M ∅ b) : (zoneGraph A.toAutomaton n).Finite := by
  have hfin : (⋃ p ∈ {p | p ∈ b.states}, ⋃ q ∈ {q | q ∈ b.toOldStates p},
      {z : ZConf n | q.Denotes M z}).Finite :=
    (List.finite_toSet b.states).biUnion fun p _ =>
      (List.finite_toSet (b.toOldStates p)).biUnion fun q _ =>
        Set.Subsingleton.finite fun _ hz _ hz' => hz.unique hz'
  refine hfin.subset ?_
  rintro z ⟨x, hx⟩
  obtain ⟨hmem, hold⟩ := h.holdsExactly_stateAfter hst (x := x) fun c hc =>
    Or.inl (pos_of_mem_eval hx c hc)
  obtain ⟨q, hq, hqz⟩ := hold.2 z ⟨0, Nat.zero_le _, hx⟩
  exact Set.mem_biUnion hmem (Set.mem_biUnion hq hqz)

/-- Words after which the states are the same have the same runs over their suffixes. -/
theorem Zones.suffixEval_eq (hst : ∀ z ∈ zoneGraph A.toAutomaton n, z.1 ∈ A.states)
    (h : Zones addr N A M ∅ b) {u v : List (UInt8 × ℚ)} (hu : ∀ c ∈ u, 0 < c.2)
    (hv : ∀ c ∈ v, 0 < c.2) (he : (b.toMachine N).stateAfter u = (b.toMachine N).stateAfter v) :
    suffixEval (zoneNFA A.toAutomaton n) u = suffixEval (zoneNFA A.toAutomaton n) v := by
  have hold := (h.holdsExactly_stateAfter hst fun c hc => Or.inl (hu c hc)).2
  rw [he] at hold
  exact hold.unique (h.holdsExactly_stateAfter hst fun c hc => Or.inl (hv c hc)).2

/-- Interned states after words with the same runs are the same. -/
theorem Zones.stateAfter_eq (hst : ∀ z ∈ zoneGraph A.toAutomaton n, z.1 ∈ A.states)
    (h : Zones addr N A M ∅ b) (hI : Interns b) {u v : List (UInt8 × ℚ)} (hu : ∀ c ∈ u, 0 < c.2)
    (hv : ∀ c ∈ v, 0 < c.2)
    (he : suffixEval (zoneNFA A.toAutomaton n) u = suffixEval (zoneNFA A.toAutomaton n) v) :
    (b.toMachine N).stateAfter u = (b.toMachine N).stateAfter v := by
  obtain ⟨hmemu, holdu⟩ := h.holdsExactly_stateAfter hst fun c hc => Or.inl (hu c hc)
  obtain ⟨hmemv, holdv⟩ := h.holdsExactly_stateAfter hst fun c hc => Or.inl (hv c hc)
  rw [he] at holdu
  exact hI _ hmemu _ hmemv fun k => ⟨holdu.tuples_subset holdv, holdv.tuples_subset holdu⟩

end

/-- A list has at least as many items as there are values that these tell apart. -/
theorem encard_range_le_length {α β γ : Type*} {l : List α} {g : γ → α} {f : γ → β}
    (hmem : ∀ x, g x ∈ l) (htell : ∀ x y, g x = g y → f x = f y) :
    (Set.range f).encard ≤ l.length := by
  classical
  rcases isEmpty_or_nonempty γ with h | h
  · rw [Set.range_eq_empty, Set.encard_empty]; exact zero_le
  · -- the item of a value is that of one of its arguments
    have hinj : Set.InjOn (fun y => g (Function.invFun f y)) (Set.range f) := by
      intro y hy y' hy' he
      rw [← Function.invFun_eq hy, ← Function.invFun_eq hy']
      exact htell _ _ he
    calc (Set.range f).encard
        ≤ (l.toFinset : Set α).encard :=
          Set.encard_le_encard_of_injOn (fun _ _ => List.mem_toFinset.2 (hmem _)) hinj
      _ ≤ l.length := by
        rw [Set.encard_coe_eq_coe_finsetCard]
        exact Nat.cast_le.2 (List.toFinset_card_le l)

/-! ## The end of the construction -/

/-- No lookup of the construction is of a set whose state was made for a list with
    repetitions. -/
def LookupsOk (addr : Ptr ↪ ℕ) (order : Ptr → UInt8 → ℕ) (N : ℕ) (TA : TimedAutomaton) : Prop :=
  ∀ fuel B, toAutomatonWithCounter addr N TA.toAutomaton fuel = some B →
    ∀ M, TA.maxBound = some M → ∀ (b : DRTABuilder TA.clockSize) part,
      LooksUp addr order N B M b part → LookupOk b part

section
variable {TA : TimedAutomaton}

theorem boundedRuns_of_constructFilter (hN : 0 < N)
    (h : ∃ fuel T, TA.constructFilter addr order N fuel = some T) :
    BoundedRuns TA.toAutomaton TA.clockSize := by
  obtain ⟨fuel, T, hT⟩ := h
  obtain ⟨B, hB, hT⟩ := Option.bind_eq_some_iff.1 hT
  obtain ⟨M, -, hT⟩ := Option.bind_eq_some_iff.1 hT
  obtain ⟨b, hrun, rfl⟩ := Option.map_eq_some_iff.1 hT
  obtain ⟨src, hP⟩ := counterProduct_of_run hN hB
  have hfin := (zones_of_run hrun).finite_zoneGraph fun z hz => (hP.wellFormed hN).mem_states hz
  exact (hP.finite_iff_boundedRuns hN M).1 (finite_confTuples_iff.2 hfin)

theorem exists_constructFilter_of_boundedRuns (hN : 0 < N) (hTA : TA.Buildable)
    (h : BoundedRuns TA.toAutomaton TA.clockSize) (hok : LookupsOk addr order N TA) :
    ∃ fuel T, TA.constructFilter addr order N fuel = some T := by
  obtain ⟨fuel₁, B, hB⟩ := toAutomatonWithCounter_terminates (A := TA.toFiniteAutomaton) hN addr
  obtain ⟨src, hP⟩ := counterProduct_of_run hN hB
  refine exists_constructFilter hB hTA.maxConstraints_ne_nil fun M hM => ?_
  exact exists_toTimedMooreMachine (hok fuel₁ B hB M hM) ((hP.finite_iff_boundedRuns hN M).2 h)
    fun _ _ _ _ hr => hP.noReturn_of_reached hN hr

end

/-- **The timed construction ends** only if the runs of the timed automaton are bounded,
    and it does if in addition the lookups are of sets that states without repetitions
    were made for.  This is for each order of the letters. -/
theorem timed_ends (TA : TimedAutomaton) (hTA : TA.Buildable) (N : ℕ) (hN : 0 < N)
    (addr : Ptr ↪ ℕ) (order : Ptr → UInt8 → ℕ) :
    ((∃ fuel T, TA.constructFilter addr order N fuel = some T) →
      BoundedRuns TA.toAutomaton TA.clockSize) ∧
    (BoundedRuns TA.toAutomaton TA.clockSize → LookupsOk addr order N TA →
      ∃ fuel T, TA.constructFilter addr order N fuel = some T) :=
  ⟨boundedRuns_of_constructFilter hN, exists_constructFilter_of_boundedRuns hN hTA⟩

/-- The construction ends for the free loop, so that its runs are bounded. -/
theorem timed_ends_freeTimedLoop : BoundedRuns freeTimedLoop.toAutomaton 1 := by
  obtain ⟨T, hT⟩ := exists_builds_freeTimedLoop
  exact (timed_ends freeTimedLoop hT.buildable 1 one_pos (Function.Embedding.refl ℕ)
    letterOrder).1 ⟨5, T, hT.constructFilter⟩

/-! ## The states after words -/

/-- The words of events with positive delays. -/
abbrev TimedWord : Type := {x : List (UInt8 × ℚ) // ∀ c ∈ x, 0 < c.2}

/-- The zones of the runs of the timed automaton over the suffixes, with the counters of
    their lengths. -/
def countedZones (TA : TimedAutomaton) (N : ℕ) (x : TimedWord) :
    Set (ZConf TA.clockSize × ℕ) :=
  countedRuns (zoneNFA TA.toAutomaton TA.clockSize) (nextCount N) x.1

/-- A node of the zone graph with counter is known by its state, zone and counter. -/
theorem CounterProduct.suffixEval_zone_eq_iff {A : FiniteAutomaton TATransition}
    {B : AutomatonWithCounter TATransition} {src : Ptr → Ptr × ℕ}
    (hP : CounterProduct A.toAutomaton N B src) (hnd : A.initialStates.Nodup)
    (u v : List (UInt8 × ℚ)) :
    suffixEval (zoneNFA B.toAutomaton n) u = suffixEval (zoneNFA B.toAutomaton n) v ↔
      countedRuns (zoneNFA A.toAutomaton n) (nextCount N) u =
        countedRuns (zoneNFA A.toAutomaton n) (nextCount N) v := by
  refine hP.isZoneProduct.suffixEval_eq_iff (fun z hz z' hz' he => ?_) u v
  obtain ⟨hsrc, hcount⟩ := Prod.mk.inj he
  obtain ⟨hs, hzone⟩ := Prod.mk.inj hsrc
  change B.counter z.1 = B.counter z'.1 at hcount
  rw [hP.counter z.1 hz, hP.counter z'.1 hz'] at hcount
  exact Prod.ext (hP.inj hnd hz hz' (Prod.ext hs hcount)) hzone

/-- **The states of the timed machine**: words that lead to the same state have the same
    runs over their suffixes, so that there are at least as many states as sets of such
    runs; if the lookups are of sets that states without repetitions were made for, words
    with the same runs lead to the same state. -/
theorem timed_states (TA : TimedAutomaton) (hnd : TA.initialStates.Nodup) (N : ℕ) (hN : 0 < N)
    (addr : Ptr ↪ ℕ) (order : Ptr → UInt8 → ℕ) (fuel : ℕ)
    (T : MooreMachine N (UInt8 × ℚ) DRTAState) (hT : TA.Builds addr order N fuel T) :
    (∀ x : TimedWord, T.stateAfter x.1 ∈ T.states) ∧
      (∀ x y : TimedWord, T.stateAfter x.1 = T.stateAfter y.1 →
        countedZones TA N x = countedZones TA N y) ∧
      (Set.range (countedZones TA N)).encard ≤ T.states.length ∧
      (LookupsOk addr order N TA → ∀ x y : TimedWord, countedZones TA N x = countedZones TA N y →
        T.stateAfter x.1 = T.stateAfter y.1) := by
  obtain ⟨B, hB, hT⟩ := Option.bind_eq_some_iff.1 hT.constructFilter
  obtain ⟨M, hM, hT⟩ := Option.bind_eq_some_iff.1 hT
  obtain ⟨b, hrun, rfl⟩ := Option.map_eq_some_iff.1 hT
  obtain ⟨src, hP⟩ := counterProduct_of_run hN hB
  have hst : ∀ z ∈ zoneGraph B.toAutomaton TA.clockSize, z.1 ∈ B.states :=
    fun z hz => (hP.wellFormed hN).mem_states hz
  have hZ := zones_of_run hrun
  have hmem : ∀ x : TimedWord, (b.toMachine N).stateAfter x.1 ∈ b.states := fun x =>
    (hZ.holdsExactly_stateAfter hst fun c hc => Or.inl (x.2 c hc)).1
  have htell : ∀ x y : TimedWord,
      (b.toMachine N).stateAfter x.1 = (b.toMachine N).stateAfter y.1 →
        countedZones TA N x = countedZones TA N y := fun x y he =>
    (hP.suffixEval_zone_eq_iff hnd _ _).1 (hZ.suffixEval_eq hst x.2 y.2 he)
  refine ⟨hmem, htell, encard_range_le_length hmem htell, fun hok x y he => ?_⟩
  have hI : Interns b :=
    (Moment.found (hok fuel B hB M hM) (.item (Worklist.reached_of_run hrun))).interns
  exact hZ.stateAfter_eq hst hI x.2 y.2 ((hP.suffixEval_zone_eq_iff hnd _ _).2 he)

/-- `a`, after one `b` or none. -/
def lateA : TimedWord := ⟨[(97, 2)], List.forall_mem_singleton.2 two_pos⟩

def lateBA : TimedWord :=
  ⟨[(98, 1), (97, 3)], List.forall_mem_cons.2 ⟨one_pos, List.forall_mem_singleton.2 three_pos⟩⟩

/-- The machine for the free loop is in the same state after the two words, and the same
    runs are possible. -/
theorem timed_states_freeTimedLoop : ∃ T,
    freeTimedLoop.Builds (Function.Embedding.refl ℕ) letterOrder 1 5 T ∧
      T.stateAfter lateA.1 ∈ T.states ∧
      countedZones freeTimedLoop 1 lateA = countedZones freeTimedLoop 1 lateBA ∧
      (Set.range (countedZones freeTimedLoop 1)).encard ≤ T.states.length := by
  obtain ⟨T, hT, he⟩ := Option.map_eq_some_iff.1 (by decide +kernel :
    ((freeTimedLoop.constructFilter (Function.Embedding.refl ℕ) letterOrder 1 5).map fun T =>
      decide (T.stateAfter [(97, 2)] = T.stateAfter [(98, 1), (97, 3)])) = some true)
  have hT : freeTimedLoop.Builds (Function.Embedding.refl ℕ) letterOrder 1 5 T :=
    ⟨freeTimedLoop_buildable, hT⟩
  obtain ⟨hmem, htell, hcard, -⟩ := timed_states freeTimedLoop (by decide) 1 one_pos
    (Function.Embedding.refl ℕ) letterOrder 5 T hT
  exact ⟨T, hT, hmem lateA, htell lateA lateBA (of_decide_eq_true he), hcard⟩

end MooreFilter

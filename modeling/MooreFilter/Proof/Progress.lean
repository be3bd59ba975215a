/-
  The needs of the sweep.

  At a configuration that is initial, `useLowerFront` and `useUpperFront` return early
  and leave the front of their deque, and the loop around them does not get on.

  * `Sweep.returnsEarly` says whether the loop over a deque does so: the item that it
    stops at has the bound that it takes off (`returnsEarly_iff_addAll`,
    `returnsEarly_iff_removeAll`);
  * `Sweep.Reached.suffix`: the calls only take items off the deques;
  * `MeetsNeeds` is what the sweep needs of the entries of a letter, with what it then
    does, and `meetsNeeds_of_reached` says that they meet it at every state that
    `toTimedMooreMachine` takes from its worklist.
-/
import MooreFilter.Proof.Partition
import MooreFilter.Proof.Timed

namespace MooreFilter

variable {n : ℕ}

namespace Sweep
variable {init : List (Conf n)} {s₀ s : Sweep n}

/-! ## Early returns -/

/-- Does the loop over the items with the bound return early? -/
def returnsEarly (init : List (Conf n)) (b : Cut) : List (Conf n × Cut) → Bool
  | [] => false
  | (p, c) :: vec => decide (c = b) && (init.any (sameConf p) || returnsEarly init b vec)

theorem returnsEarly_iff (b : Cut) (vec : List (Conf n × Cut)) :
    returnsEarly init b vec = true ↔ ∃ x ∈ (vec.dropWhile (takes init b)).head?, x.2 = b := by
  induction vec with
  | nil => simp [returnsEarly]
  | cons x vec ih =>
    obtain ⟨p, c⟩ := x
    unfold returnsEarly
    by_cases htakes : takes init b (p, c) = true
    · rw [List.dropWhile_cons_of_pos htakes, ← ih]
      obtain ⟨hc, hp⟩ : c = b ∧ init.any (sameConf p) = false := by simpa [takes] using htakes
      rw [decide_eq_true hc, Bool.true_and, hp, Bool.false_or]
    · -- the loop stops at the item
      rw [List.dropWhile_cons_of_neg htakes]
      by_cases hc : c = b
      · have hp : init.any (sameConf p) = true := by simpa [takes, hc] using htakes
        simp [hc, hp]
      · simp [hc]

/-- It does iff the item that is left in front has the bound. -/
theorem returnsEarly_iff_addAll (b : Cut) (vec : List (Conf n × Cut)) (cur : List (Conf n)) :
    returnsEarly init b vec = true ↔ ∃ x ∈ (addAll init b vec cur).1.head?, x.2 = b := by
  rw [addAll_fst, returnsEarly_iff]

theorem returnsEarly_iff_removeAll (b : Cut) (vec : List (Conf n × Cut)) (cur : List (Conf n)) :
    returnsEarly init b vec = true ↔ ∃ x ∈ (removeAll init b vec cur).1.head?, x.2 = b := by
  rw [removeAll_fst, returnsEarly_iff]

theorem returnsEarly_eq_false {b : Cut} {vec : List (Conf n × Cut)}
    (h : ∀ x ∈ vec, init.any (sameConf x.1) = false) : returnsEarly init b vec = false := by
  induction vec with
  | nil => rfl
  | cons x vec ih =>
    unfold returnsEarly
    rw [h x (by simp), ih fun y hy => h y (by simp [hy]), Bool.false_or, Bool.and_false]

/-! ## The deques -/

/-- The calls only take items off the deques. -/
theorem Reached.suffix (hr : Reached init s₀ s) :
    s.lowerVec <:+ s₀.lowerVec ∧ s.upperVec <:+ s₀.upperVec := by
  induction hr with
  | start => exact ⟨List.suffix_rfl, List.suffix_rfl⟩
  | emit b _ ih => exact ih
  | lower _ h ih =>
    obtain ⟨⟨b, hlower⟩, hupper⟩ := useLowerFront_vecs h
    rw [hlower, hupper]
    exact ⟨(List.dropWhile_suffix _).trans ih.1, ih.2⟩
  | upper _ h ih =>
    obtain ⟨hlower, b, hupper⟩ := useUpperFront_vecs h
    rw [hlower, hupper]
    exact ⟨ih.1, (List.dropWhile_suffix _).trans ih.2⟩

/-- Their items are those of the entries. -/
theorem Reached.exists_entry {es : List (Entry n)} (hr : Reached init (Sweep.start init es) s) :
    (∀ x ∈ s.lowerVec, ∃ e ∈ es, x.1 = e.conf) ∧ ∀ x ∈ s.upperVec, ∃ e ∈ es, x.1 = e.conf := by
  refine ⟨fun x hx => ?_, fun x hx => ?_⟩
  · obtain ⟨e, he, rfl⟩ := List.mem_map.1 (hr.suffix.1.subset hx)
    exact ⟨e, (lowerOrder_perm es).mem_iff.1 he, rfl⟩
  · obtain ⟨e, he, rfl⟩ := List.mem_map.1 (hr.suffix.2.subset hx)
    exact ⟨e, (upperOrder_perm es).mem_iff.1 he, rfl⟩

end Sweep

/-! ## The needs -/

/-- The intervals of the entries are not empty and positive, their states are not those of the
    initial configurations, no call in the sweep returns early, and the sweep ends. -/
structure MeetsNeeds (init : List (Conf n)) (es : List (Entry n)) : Prop where
  nonempty : ∀ e ∈ es, ∃ t, e.Active t
  positive : ∀ e ∈ es, ∀ t, e.Active t → 0 < t
  state_ne : ∀ e ∈ es, ∀ q ∈ init, q.1 ≠ e.conf.1
  not_early : ∀ s, Sweep.Reached init (Sweep.start init es) s → ∀ b,
    Sweep.returnsEarly init b s.lowerVec = false ∧ Sweep.returnsEarly init b s.upperVec = false
  ends : ∃ s, Sweep.Reached init (Sweep.start init es) s ∧
    linearlize init es = some (closeParts init s.nextLineared)

/-- Without initial configurations no call returns early. -/
theorem Sweep.Reached.returnsEarly_eq_false {init : List (Conf n)} {es : List (Entry n)}
    (hes : ∀ e ∈ es, init.any (sameConf e.conf) = false) {s : Sweep n}
    (hr : Sweep.Reached init (Sweep.start init es) s) (b : Cut) :
    Sweep.returnsEarly init b s.lowerVec = false ∧
      Sweep.returnsEarly init b s.upperVec = false := by
  obtain ⟨hlower, hupper⟩ := hr.exists_entry
  constructor
  · refine Sweep.returnsEarly_eq_false fun x hx => ?_
    obtain ⟨e, he, hxe⟩ := hlower x hx
    rw [hxe]; exact hes e he
  · refine Sweep.returnsEarly_eq_false fun x hx => ?_
    obtain ⟨e, he, hxe⟩ := hupper x hx
    rw [hxe]; exact hes e he

/-- The conditions on the entries are enough. -/
theorem meetsNeeds_of_proper {init : List (Conf n)} {es : List (Entry n)}
    (hes : ∀ e ∈ es, e.Proper init) (hstate : ∀ e ∈ es, ∀ q ∈ init, q.1 ≠ e.conf.1) :
    MeetsNeeds init es := by
  obtain ⟨parts, hparts, -⟩ := linearlize_spec init fun e he => (hes e he).fits
  obtain ⟨s, hs, -, hclose⟩ := Sweep.reached_of_linearlize hparts
  have hinit : ∀ e ∈ es, init.any (sameConf e.conf) = false := fun e he =>
    any_sameConf_of_state_ne (hstate e he)
  exact {
    nonempty := fun e he => (hes e he).nonempty
    positive := fun e he => (hes e he).pos
    state_ne := hstate
    not_early := fun s hs b => hs.returnsEarly_eq_false hinit b
    ends := ⟨s, hs, by rw [hparts, hclose]⟩ }

/-! ## The construction -/

/-- A successor of a zone has an interval of positive delays, and is not empty. -/
theorem Conf.Denotes.proper {A : AutomatonWithCounter TATransition} {M : Bounds} {p : Conf n}
    {z : ZConf n} (h : p.Denotes M z) {c : UInt8} {tr : TATransition} (htr : tr ∈ A.next p.1 c)
    {e : Entry n} (he : successor p.2 tr = some e) {init : List (Conf n)}
    (hinit : ∀ q ∈ init, q.1 ≠ e.conf.1) : e.Proper init := by
  obtain ⟨z', -, hlower, ⟨d, -, hd⟩, -⟩ := h.of_successor htr he
  refine ⟨⟨d, hd⟩, fun t ht => ?_, ?_⟩
  · have ht : -t < 0 := ht.1.mono hlower
    exact neg_lt_zero.1 ht
  · intro q hq
    exact Bool.eq_false_iff.2 (List.any_eq_false.1 (any_sameConf_of_state_ne hinit) q hq)

/-- **The call meets the needs of `linearlizeNexts`** at every state from the worklist, and the
    body of the loop has a result there. -/
theorem meetsNeeds_of_reached (A : FiniteAutomaton TATransition) (addr : Ptr ↪ ℕ)
    (order : Ptr → UInt8 → ℕ) (N : ℕ) (hN : 0 < N) (fuel : ℕ)
    (B : AutomatonWithCounter TATransition)
    (hB : toAutomatonWithCounter addr N A.toAutomaton fuel = some B) (n : ℕ) (M : Bounds)
    (b : DRTABuilder n) (curr : List Ptr) (p : Ptr) (rest : List Ptr)
    (hr : Worklist.Reached (addTimedTransitions addr order N B M) (drtaStart addr N B M) b curr
      (p :: rest)) :
    (∀ c es, (constructNexts B (b.toOldStates p)).lookup c = some es →
      MeetsNeeds (initConfs B n M) es) ∧
    ∃ st, addTimedTransitions addr order N B M p (b, curr) = some st := by
  obtain ⟨src, hP⟩ := counterProduct_of_run hN hB
  have hlinking := linking_of_reached hr
  have hp : p ∈ b.states := hlinking.2.1 p (by simp)
  have hdenotes := hlinking.1.denotes p hp
  have hstates : ∀ q ∈ b.toOldStates p, q.1 ∈ B.states := by
    intro q hq
    obtain ⟨z, hz, hqz⟩ := hdenotes q hq
    exact hqz.state ▸ (hP.wellFormed hN).mem_states hz
  constructor
  · intro c es hes
    have hstate : ∀ e ∈ es, ∀ q ∈ initConfs B n M, q.1 ≠ e.conf.1 := fun e he q hq =>
      hP.state_ne hstates hes he hq
    refine meetsNeeds_of_proper (fun e he => ?_) hstate
    obtain ⟨q, hq, tr, htr, hsucc⟩ := (mem_constructNexts hes e).1 he
    obtain ⟨z, -, hqz⟩ := hdenotes q hq
    exact hqz.proper htr hsucc (hstate e he)
  · obtain ⟨b', new, hbody, -⟩ := hlinking.addTimedTransitions (hP.noReturn hstates)
    exact ⟨_, hbody⟩

/-- The loop without timing: it has one entry for the first state of its construction. -/
theorem meetsNeeds_of_reached_freeLoop : ∃ B es,
    toAutomatonWithCounter (Function.Embedding.refl ℕ) 1 freeLoop.toAutomaton 5 = some B ∧
      (constructNexts B (initConfs B 1 (.fin 1 true))).lookup 97 = some es ∧ es.length = 1 ∧
        MeetsNeeds (initConfs B 1 (.fin 1 true)) es := by
  have h : ((toAutomatonWithCounter (Function.Embedding.refl ℕ) 1 freeLoop.toAutomaton 5).bind
      fun B => ((constructNexts B (initConfs B 1 (.fin 1 true))).lookup 97).map List.length) =
        some 1 := by decide +kernel
  obtain ⟨B, hB, h⟩ := Option.bind_eq_some_iff.1 h
  obtain ⟨es, hes, hlength⟩ := Option.map_eq_some_iff.1 h
  obtain ⟨p, b, he, -, -, -, hold, -⟩ :=
    drtaStart_spec (Function.Embedding.refl ℕ) 1 B 1 (.fin 1 true)
  have hr : Worklist.Reached
      (addTimedTransitions (Function.Embedding.refl ℕ) letterOrder 1 B (.fin 1 true))
      (drtaStart (Function.Embedding.refl ℕ) 1 B (.fin 1 true)) b [] [p] := by
    have hstart : Worklist.Reached
        (addTimedTransitions (Function.Embedding.refl ℕ) letterOrder 1 B (.fin 1 true))
        (drtaStart (n := 1) (Function.Embedding.refl ℕ) 1 B (.fin 1 true)) _ _ _ := .start
    rw [he] at hstart ⊢
    exact hstart.refill
  have hneeds := (meetsNeeds_of_reached freeLoop (Function.Embedding.refl ℕ) letterOrder 1
    (by decide) 5 B hB 1 (.fin 1 true) b [] p [] hr).1
  rw [hold] at hneeds
  exact ⟨B, es, hB, hes, hlength, hneeds 97 es hes⟩

end MooreFilter

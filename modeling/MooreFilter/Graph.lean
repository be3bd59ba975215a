/-
  Graphs (`timed_automaton_parser.hh`).

  * a `BoostGraph` is an `adjacency_list`: its vertices, and its edges with a
    property each, in the order in which they were added;
  * `parseBoostTA` reads the attributes of the edges; the graph reader hands them
    over as texts, with the label, `init` and `match` already converted;
  * `convBoostTA` makes the automaton: first its states (`addVertex`), then the
    transitions and `maxConstraints` (`addEdge`);
  * `convBoostNFA` is the one for an NFA, which drops the guards and the resets
    (`erased_nfaLoop`).
-/
import MooreFilter.Lib.AssocList
import MooreFilter.Lib.Related
import MooreFilter.Parser

namespace MooreFilter

/-! ## Graphs -/

/-- `BoostTAState` -/
structure BoostTAState where
  isInit : Bool
  isMatch : Bool

/-- `BoostTATransition` -/
structure BoostTATransition where
  c : UInt8
  resetVars : List ClockVariables
  guard : List Constraint

/-- An edge between two vertices, given by their indices. -/
structure Edge (ε : Type) where
  source : ℕ
  target : ℕ
  property : ε

/-- A graph whose edges have properties of the type `ε`. -/
structure BoostGraph (ε : Type) where
  vertices : List BoostTAState
  edges : List (Edge ε)
  source_lt : ∀ e ∈ edges, e.source < vertices.length
  target_lt : ∀ e ∈ edges, e.target < vertices.length

/-- `boost::out_edges` -/
def BoostGraph.outEdges {ε : Type} (G : BoostGraph ε) (v : ℕ) : List (Edge ε) :=
  G.edges.filter fun e => e.source = v

theorem BoostGraph.mem_outEdges {ε : Type} {G : BoostGraph ε} {v : ℕ} {e : Edge ε} :
    e ∈ G.outEdges v ↔ e ∈ G.edges ∧ e.source = v := by
  rw [outEdges, List.mem_filter, decide_eq_true_iff]

abbrev BoostTimedAutomaton := BoostGraph BoostTATransition

/-! ## Reading the attributes -/

/-- The attributes of an edge, as texts. -/
structure DotTransition where
  label : UInt8
  reset : List Char
  guard : List Char

/-- The graph that Boost reads from a file. -/
abbrev DotGraph := BoostGraph DotTransition

/-- The attributes of an edge are converted to those of a transition. -/
def readEdge (e : Edge DotTransition) : Option (Edge BoostTATransition) := do
  let resetVars ← readAttribute readResetVars e.property.reset
  let guard ← readAttribute readGuard e.property.guard
  return ⟨e.source, e.target, ⟨e.property.label, resetVars, guard⟩⟩

theorem readEdge_eq_some {e : Edge DotTransition} {b : Edge BoostTATransition} :
    readEdge e = some b ↔ b.source = e.source ∧ b.target = e.target ∧
      b.property.c = e.property.label ∧
      readAttribute readResetVars e.property.reset = some b.property.resetVars ∧
      readAttribute readGuard e.property.guard = some b.property.guard := by
  obtain ⟨source, target, c, resetVars, guard⟩ := b
  unfold readEdge
  constructor
  · intro h
    obtain ⟨resetVars, hreset, h⟩ := Option.bind_eq_some_iff.1 h
    obtain ⟨guard, hguard, h⟩ := Option.bind_eq_some_iff.1 h
    obtain ⟨rfl, rfl, rfl, rfl, rfl⟩ := by simpa using Option.some.inj h
    exact ⟨rfl, rfl, rfl, hreset, hguard⟩
  · rintro ⟨rfl, rfl, rfl, hreset, hguard⟩
    rw [hreset, hguard]; rfl

/-- `parseBoostTA`: it fails if an attribute does. -/
def parseBoostTA (G : DotGraph) : Option BoostTimedAutomaton :=
  match h : G.edges.mapM readEdge with
  | none => none
  | some edges => some
    { vertices := G.vertices
      edges := edges
      source_lt := fun b hb => by
        obtain ⟨e, he, hread⟩ := Related.exists_left (Related.forall₂_of_mapM h) b hb
        rw [(readEdge_eq_some.1 hread).1]
        exact G.source_lt e he
      target_lt := fun b hb => by
        obtain ⟨e, he, hread⟩ := Related.exists_left (Related.forall₂_of_mapM h) b hb
        rw [(readEdge_eq_some.1 hread).2.1]
        exact G.target_lt e he }

/-! ## The conversion -/

/-- The first loop's body: the state of a vertex. -/
def addVertex (TA : Automaton (NDState TATransition)) (v : BoostTAState) :
    Automaton (NDState TATransition) :=
  let (p, heap) := TA.heap.makeShared { isMatch := v.isMatch, nextMap := ∅ }
  { heap := heap
    states := TA.states ++ [p]
    initialStates := if v.isInit then TA.initialStates ++ [p] else TA.initialStates }

/-- The automaton after the first loop. -/
def convStates (vertices : List BoostTAState) : Automaton (NDState TATransition) :=
  vertices.foldl addVertex
    { heap := { cell := fun _ => default, size := 0 }, states := [], initialStates := [] }

/-- `stateConvMap[v]`, which the first loop also puts at the position `v` of the
    states. -/
def stateConvMap (TA : Automaton (NDState TATransition)) (v : ℕ) : Ptr := TA.states.getD v 0

/-- `maxConstraints` is resized to hold `g.x`, and the entry raised to `g.c`. -/
def raiseMax (maxConstraints : List ℤ) (g : Constraint) : List ℤ :=
  let size := maxConstraints.length
  let m := maxConstraints ++ List.replicate (max size (g.x.toNat + 1) - size) 0
  m.set g.x.toNat (max (m.getD g.x.toNat 0) g.c.toInt)

/-- `s->nextMap[c].emplace_back(transition)` -/
def emplaceBack (TA : Automaton (NDState TATransition)) (s : Ptr) (c : UInt8)
    (transition : TATransition) : Automaton (NDState TATransition) :=
  let cell := TA.heap.cell s
  let cell := { cell with nextMap := AssocList.push cell.nextMap (c, [transition]) }
  { TA with heap := TA.heap.write s cell }

/-- The transition of an edge. -/
def convEdge (TA : Automaton (NDState TATransition)) (e : Edge BoostTATransition) :
    TATransition where
  target := stateConvMap TA e.target
  resetVars := e.property.resetVars
  guard := e.property.guard

/-- The second loop's body: the automaton and `maxConstraints`. -/
def addEdge (st : Automaton (NDState TATransition) × List ℤ) (e : Edge BoostTATransition) :
    Automaton (NDState TATransition) × List ℤ :=
  let (TA, maxConstraints) := st
  let transition := convEdge TA e
  (emplaceBack TA (stateConvMap TA e.source) e.property.c transition,
    transition.guard.foldl raiseMax maxConstraints)

/-- The second loop, over the vertices and their edges. -/
def convLoop (G : BoostTimedAutomaton) : Automaton (NDState TATransition) × List ℤ :=
  (List.range G.vertices.length).foldl (fun st v => (G.outEdges v).foldl addEdge st)
    (convStates G.vertices, [])

/-! ## What the loops build -/

section
variable {TA : Automaton (NDState TATransition)} {n : ℕ}

/-- The states are those of `n` vertices, each at its index. -/
structure StatesFor (n : ℕ) (TA : Automaton (NDState TATransition)) : Prop where
  size : TA.heap.size = n
  states : TA.states = List.range n
  initial : ∀ p ∈ TA.initialStates, p < n

theorem StatesFor.stateConvMap_eq (h : StatesFor n TA) {v : ℕ} (hv : v < n) :
    stateConvMap TA v = v := by
  rw [stateConvMap, h.states, List.getD_eq_getElem?_getD, List.getElem?_range hv]; rfl

theorem statesFor_convStates (vertices : List BoostTAState) :
    StatesFor vertices.length (convStates vertices) ∧
      ∀ p c, (convStates vertices).next p c = [] := by
  unfold convStates
  induction vertices using List.reverseRecOn with
  | nil => exact ⟨⟨rfl, rfl, by simp⟩, fun _ _ => rfl⟩
  | append_singleton vertices v ih =>
    obtain ⟨h, hnext⟩ := ih
    rw [List.foldl_append, List.foldl_cons, List.foldl_nil, List.length_append,
      List.length_singleton]
    set TA := vertices.foldl addVertex _
    refine ⟨⟨congrArg Nat.succ h.size, ?_, ?_⟩, fun p c => ?_⟩
    · change TA.states ++ [TA.heap.size] = _
      rw [h.states, h.size, List.range_succ]
    · have hlt : ∀ p ∈ TA.initialStates, p < vertices.length + 1 := fun p hp =>
        (h.initial p hp).trans (Nat.lt_succ_self _)
      change ∀ p ∈ (if v.isInit then TA.initialStates ++ [TA.heap.size] else TA.initialStates), _
      split_ifs
      · intro p hp
        rcases List.mem_append.1 hp with hp | hp
        · exact hlt p hp
        · rw [List.mem_singleton.1 hp, h.size]; exact Nat.lt_succ_self _
      · exact hlt
    · change (Function.update TA.heap.cell TA.heap.size _ p).next c = []
      rcases eq_or_ne p TA.heap.size with rfl | hp
      · rw [Function.update_self]; rfl
      · rw [Function.update_of_ne hp]; exact hnext p c

theorem next_emplaceBack (TA : Automaton (NDState TATransition)) (s : Ptr) (a : UInt8)
    (t : TATransition) (p : Ptr) (c : UInt8) :
    (emplaceBack TA s a t).next p c =
      if p = s ∧ c = a then TA.next p c ++ [t] else TA.next p c := by
  change ((TA.heap.write s _).cell p).next c = _
  rcases eq_or_ne p s with rfl | hp
  · rw [Heap.cell_write_self, NDState.next, AssocList.lookup_push]
    by_cases hc : c = a
    · rw [if_pos hc, if_pos ⟨rfl, hc⟩, hc]; rfl
    · rw [if_neg hc, if_neg fun h => hc h.2]; rfl
  · rw [Heap.cell_write_of_ne _ _ hp, if_neg fun h => hp h.1]; rfl

/-- The transition of an edge, to the state of its target. -/
def Edge.transition (e : Edge BoostTATransition) : TATransition where
  target := e.target
  resetVars := e.property.resetVars
  guard := e.property.guard

/-- What the second loop builds from the edges `es`. -/
structure EdgesAdded (n : ℕ) (es : List (Edge BoostTATransition))
    (r : Automaton (NDState TATransition) × List ℤ) : Prop where
  statesFor : StatesFor n r.1
  next : ∀ p c, r.1.next p c =
    (es.filter fun e => e.source = p ∧ e.property.c = c).map Edge.transition
  maxConstraints : r.2 = (es.flatMap fun e => e.property.guard).foldl raiseMax []

theorem EdgesAdded.addEdge {es : List (Edge BoostTATransition)}
    {r : Automaton (NDState TATransition) × List ℤ} (h : EdgesAdded n es r)
    {e : Edge BoostTATransition} (hsource : e.source < n) (htarget : e.target < n) :
    EdgesAdded n (es ++ [e]) (addEdge r e) := by
  obtain ⟨hstates, hnext, hmax⟩ := h
  refine ⟨⟨hstates.size, hstates.states, hstates.initial⟩, fun p c => ?_, ?_⟩
  · have hconv : convEdge r.1 e = e.transition := by
      rw [convEdge, hstates.stateConvMap_eq htarget]; rfl
    change (emplaceBack r.1 (stateConvMap r.1 e.source) e.property.c (convEdge r.1 e)).next p c = _
    rw [hconv, hstates.stateConvMap_eq hsource, next_emplaceBack, hnext, List.filter_append,
      List.map_append]
    by_cases hpc : e.source = p ∧ e.property.c = c
    · rw [if_pos ⟨hpc.1.symm, hpc.2.symm⟩]; simp [hpc]
    · rw [if_neg fun h => hpc ⟨h.1.symm, h.2.symm⟩]; simp [hpc]
  · change e.property.guard.foldl raiseMax r.2 = _
    rw [hmax, List.flatMap_append, List.foldl_append, List.flatMap_singleton]

/-- **What the second loop builds.** -/
theorem edgesAdded_convLoop (G : BoostTimedAutomaton) :
    EdgesAdded G.vertices.length ((List.range G.vertices.length).flatMap G.outEdges)
      (convLoop G) := by
  have hmem : ∀ e ∈ (List.range G.vertices.length).flatMap G.outEdges, e ∈ G.edges := by
    intro e he
    obtain ⟨v, -, he⟩ := List.mem_flatMap.1 he
    exact (BoostGraph.mem_outEdges.1 he).1
  unfold convLoop
  rw [← List.foldl_flatMap]
  generalize (List.range G.vertices.length).flatMap G.outEdges = es at hmem
  induction es using List.reverseRecOn with
  | nil =>
    obtain ⟨hstates, hnext⟩ := statesFor_convStates G.vertices
    exact ⟨hstates, hnext, rfl⟩
  | append_singleton es e ih =>
    rw [List.foldl_append]
    have he := hmem e (by simp)
    exact (ih fun e' he' => hmem e' (by simp [he'])).addEdge (G.source_lt e he) (G.target_lt e he)

end

/-- `convBoostTA` -/
def convBoostTA (G : BoostTimedAutomaton) : TimedAutomaton where
  toAutomaton := (convLoop G).1
  states_lt s hs := by
    obtain ⟨hstates, -, -⟩ := edgesAdded_convLoop G
    rw [hstates.states, List.mem_range] at hs
    rwa [hstates.size]
  initial_mem s hs := by
    obtain ⟨hstates, -, -⟩ := edgesAdded_convLoop G
    rw [hstates.states, List.mem_range]
    exact hstates.initial s hs
  target_mem s _ c t ht := by
    obtain ⟨hstates, hnext, -⟩ := edgesAdded_convLoop G
    have ht : t ∈ (convLoop G).1.next s c := ht
    rw [hnext] at ht
    obtain ⟨e, he, rfl⟩ := List.mem_map.1 ht
    obtain ⟨v, -, he⟩ := List.mem_flatMap.1 (List.mem_of_mem_filter he)
    rw [hstates.states, List.mem_range]
    exact G.target_lt e (BoostGraph.mem_outEdges.1 he).1
  maxConstraints := (convLoop G).2

/-! ## The conversion to an NFA -/

/-- The first loop's body: the state of a vertex. -/
def addNFAVertex (A : Automaton (NDState NFATransition)) (v : BoostTAState) :
    Automaton (NDState NFATransition) :=
  let (p, heap) := A.heap.makeShared { isMatch := v.isMatch, nextMap := ∅ }
  { heap := heap
    states := A.states ++ [p]
    initialStates := if v.isInit then A.initialStates ++ [p] else A.initialStates }

/-- The NFA after the first loop. -/
def nfaStates (vertices : List BoostTAState) : Automaton (NDState NFATransition) :=
  vertices.foldl addNFAVertex
    { heap := { cell := fun _ => default, size := 0 }, states := [], initialStates := [] }

/-- `stateConvMap[v]` -/
def nfaConvMap (A : Automaton (NDState NFATransition)) (v : ℕ) : Ptr := A.states.getD v 0

/-- `s->nextMap[c].emplace_back(p)` -/
def emplaceTarget (A : Automaton (NDState NFATransition)) (s : Ptr) (c : UInt8) (p : Ptr) :
    Automaton (NDState NFATransition) :=
  let cell := A.heap.cell s
  let cell := { cell with nextMap := AssocList.push cell.nextMap (c, [p]) }
  { A with heap := A.heap.write s cell }

/-- The second loop's body. -/
def addNFAEdge (A : Automaton (NDState NFATransition)) (e : Edge BoostTATransition) :
    Automaton (NDState NFATransition) :=
  emplaceTarget A (nfaConvMap A e.source) e.property.c (nfaConvMap A e.target)

/-- The second loop, over the vertices and their edges. -/
def nfaLoop (G : BoostTimedAutomaton) : Automaton (NDState NFATransition) :=
  (List.range G.vertices.length).foldl (fun A v => (G.outEdges v).foldl addNFAEdge A)
    (nfaStates G.vertices)

/-- The NFA is the timed automaton without the guards and the resets. -/
structure Erased (TA : Automaton (NDState TATransition)) (A : Automaton (NDState NFATransition)) :
    Prop where
  size : A.heap.size = TA.heap.size
  states : A.states = TA.states
  initialStates : A.initialStates = TA.initialStates
  isMatch : ∀ p, A.isMatch p = TA.isMatch p
  next : ∀ p c, A.next p c = (TA.next p c).map lock

section
variable {TA : Automaton (NDState TATransition)} {A : Automaton (NDState NFATransition)}

theorem Erased.addVertex (h : Erased TA A) (v : BoostTAState) :
    Erased (addVertex TA v) (addNFAVertex A v) := by
  have hcell : ∀ p, (addNFAVertex A v).heap.cell p = (if p = TA.heap.size then
      { isMatch := v.isMatch, nextMap := ∅ } else A.heap.cell p) ∧
      (MooreFilter.addVertex TA v).heap.cell p = if p = TA.heap.size then
        { isMatch := v.isMatch, nextMap := ∅ } else TA.heap.cell p := by
    intro p
    refine ⟨?_, Function.update_apply ..⟩
    rw [← h.size]
    exact Function.update_apply ..
  refine ⟨congrArg Nat.succ h.size, ?_, ?_, fun p => ?_, fun p c => ?_⟩
  · change A.states ++ [A.heap.size] = TA.states ++ [TA.heap.size]
    rw [h.states, h.size]
  · change (if v.isInit then A.initialStates ++ [A.heap.size] else A.initialStates) =
      if v.isInit then TA.initialStates ++ [TA.heap.size] else TA.initialStates
    rw [h.initialStates, h.size]
  · unfold Automaton.isMatch
    rw [(hcell p).1, (hcell p).2]
    split_ifs
    · rfl
    · exact h.isMatch p
  · unfold Automaton.next
    rw [(hcell p).1, (hcell p).2]
    split_ifs
    · rfl
    · exact h.next p c

theorem next_emplaceTarget (A : Automaton (NDState NFATransition)) (s : Ptr) (a : UInt8)
    (t : Ptr) (p : Ptr) (c : UInt8) :
    (emplaceTarget A s a t).next p c =
      if p = s ∧ c = a then A.next p c ++ [t] else A.next p c := by
  change ((A.heap.write s _).cell p).next c = _
  rcases eq_or_ne p s with rfl | hp
  · rw [Heap.cell_write_self, NDState.next, AssocList.lookup_push]
    by_cases hc : c = a
    · rw [if_pos hc, if_pos ⟨rfl, hc⟩, hc]; rfl
    · rw [if_neg hc, if_neg fun h => hc h.2]; rfl
  · rw [Heap.cell_write_of_ne _ _ hp, if_neg fun h => hp h.1]; rfl

theorem Erased.addEdge (h : Erased TA A) (m : List ℤ) (e : Edge BoostTATransition) :
    Erased (addEdge (TA, m) e).1 (addNFAEdge A e) := by
  have hmap : ∀ v, nfaConvMap A v = stateConvMap TA v := fun v => by
    rw [nfaConvMap, h.states]; rfl
  refine ⟨h.size, h.states, h.initialStates, fun p => ?_, fun p c => ?_⟩
  · refine Eq.trans ?_ ((h.isMatch p).trans (Eq.symm ?_)) <;>
      · refine isMatch_write ?_ p
        rfl
  · change (emplaceTarget A _ _ _).next p c = ((emplaceBack TA _ _ _).next p c).map lock
    rw [next_emplaceTarget, next_emplaceBack, hmap, hmap, h.next]
    split_ifs
    · rw [List.map_append]; rfl
    · rfl

/-- **The two conversions agree**, but for the guards and the resets. -/
theorem erased_nfaLoop (G : BoostTimedAutomaton) : Erased (convLoop G).1 (nfaLoop G) := by
  have hstates : Erased (convStates G.vertices) (nfaStates G.vertices) := by
    unfold convStates nfaStates
    induction G.vertices using List.reverseRecOn with
    | nil => exact ⟨rfl, rfl, rfl, fun _ => rfl, fun _ _ => rfl⟩
    | append_singleton vertices v ih =>
      rw [List.foldl_append, List.foldl_append]
      exact ih.addVertex v
  unfold convLoop nfaLoop
  rw [← List.foldl_flatMap, ← List.foldl_flatMap]
  induction (List.range G.vertices.length).flatMap G.outEdges using List.reverseRecOn with
  | nil => exact hstates
  | append_singleton es e ih =>
    rw [List.foldl_append, List.foldl_append]
    exact ih.addEdge _ e

end

/-- `convBoostTA` for an NFA -/
def convBoostNFA (G : BoostTimedAutomaton) : FiniteAutomaton NFATransition where
  toAutomaton := nfaLoop G
  states_lt s hs := by
    have h := erased_nfaLoop G
    rw [h.states] at hs
    rw [h.size]
    exact (convBoostTA G).states_lt s hs
  initial_mem s hs := by
    have h := erased_nfaLoop G
    rw [h.initialStates] at hs
    rw [h.states]
    exact (convBoostTA G).initial_mem s hs
  target_mem s hs c t ht := by
    have h := erased_nfaLoop G
    rw [h.states] at hs ⊢
    have ht : t ∈ (nfaLoop G).next s c := ht
    rw [h.next] at ht
    obtain ⟨tr, htr, rfl⟩ := List.mem_map.1 ht
    exact (convBoostTA G).target_mem s hs c tr htr

end MooreFilter

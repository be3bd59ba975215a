/-
  The counter product (`add_counter.hh`).

  `toAutomatonWithCounter` copies the states of an automaton together with the
  length of the run that led to them, counted modulo `N` as `0, 1, .., N, 1, ..`.
  A new state starts as a copy of the old one, with transitions that still point
  to old states; when the worklist comes to it, each target is replaced in place.

  * `addNewState` is the lambda; `rewriteTarget` the body of the loops over the
    transitions, of which a state has one for each of its `slots`;
  * `CounterBuilder` is what the loops write to: the result and the map
    `toNewState`.
-/
import MooreFilter.Automata
import MooreFilter.Lib.AssocList
import MooreFilter.Lib.Sorting
import MooreFilter.Lib.Worklist

namespace MooreFilter

variable {τ : Type} [Transition τ]

/-! ## Transitions in place -/

namespace NDState

/-- The positions of the transitions of a state: a letter and an index. -/
def slots (s : NDState τ) : List (UInt8 × ℕ) :=
  s.nextMap.entries.flatMap fun nextPair =>
    (List.range nextPair.2.length).map fun k => (nextPair.1, k)

/-- Assign a target to the transition at a position. -/
def setTarget (s : NDState τ) (i : UInt8 × ℕ) (p : Ptr) : NDState τ :=
  { s with nextMap := s.nextMap.replace i.1 ((s.next i.1).modify i.2 fun t => assign t p) }

omit [Transition τ] in
theorem mem_slots {s : NDState τ} {i : UInt8 × ℕ} : i ∈ s.slots ↔ i.2 < (s.next i.1).length := by
  obtain ⟨a, k⟩ := i
  have hlen : ∀ l, (⟨a, l⟩ : Sigma fun _ : UInt8 => List τ) ∈ s.nextMap.entries ↔
      s.nextMap.lookup a = some l := fun l => AList.mem_lookup_iff.symm
  simp only [slots, List.mem_flatMap, List.mem_map, List.mem_range, Prod.mk.injEq]
  constructor
  · rintro ⟨⟨a', l⟩, he, k', hk, rfl, rfl⟩
    rw [next, (hlen l).1 he]; exact hk
  · intro hk
    cases h : s.nextMap.lookup a with
    | none => rw [next, h] at hk; simp at hk
    | some l => rw [next, h] at hk; exact ⟨⟨a, l⟩, (hlen l).2 h, k, hk, rfl, rfl⟩

omit [Transition τ] in
theorem nodup_slots (s : NDState τ) : s.slots.Nodup := by
  refine List.nodup_flatMap.2 ⟨fun e _ => ?_, ?_⟩
  · exact List.nodup_range.map fun k k' h => (Prod.mk.inj h).2
  · have hk : s.nextMap.entries.Pairwise fun e e' => e.1 ≠ e'.1 :=
      List.nodupKeys_iff_pairwise.1 s.nextMap.nodupKeys
    refine hk.imp fun {e e'} hne => ?_
    rintro ⟨a, k⟩ h h'
    obtain ⟨_, -, heq⟩ := List.mem_map.1 h
    obtain ⟨_, -, heq'⟩ := List.mem_map.1 h'
    exact hne ((Prod.mk.inj heq).1.trans (Prod.mk.inj heq').1.symm)

theorem next_setTarget (s : NDState τ) (i : UInt8 × ℕ) (p : Ptr) (c : UInt8) :
    (s.setTarget i p).next c =
      if c = i.1 then (s.next i.1).modify i.2 (fun t => assign t p) else s.next c := by
  unfold setTarget
  simp only [next, AssocList.lookup_replace]
  split_ifs with h
  · cases s.nextMap.lookup i.1 <;> simp
  · rfl

@[simp] theorem length_next_setTarget (s : NDState τ) (i : UInt8 × ℕ) (p : Ptr) (c : UInt8) :
    ((s.setTarget i p).next c).length = (s.next c).length := by
  rw [next_setTarget]; split_ifs with h <;> simp [h]

theorem getElem?_next_setTarget (s : NDState τ) (i : UInt8 × ℕ) (p : Ptr) (c : UInt8) (k : ℕ) :
    ((s.setTarget i p).next c)[k]? =
      (s.next c)[k]?.map fun t => if (c, k) = i then assign t p else t := by
  obtain ⟨a, j⟩ := i
  rw [next_setTarget]
  rcases eq_or_ne c a with rfl | hca
  · rw [if_pos rfl, List.getElem?_modify]
    cases (s.next c)[k]? <;> simp [eq_comm]
  · rw [if_neg hca]; simp [hca]

end NDState

/-! ## The construction -/

/-- `AutomatonWithCounter` -/
structure AutomatonWithCounter (τ : Type) extends Automaton (NDState τ) where
  counter : Ptr → ℕ

/-- The result of `toAutomatonWithCounter` under construction, with the map from
    old states and counters to new states. -/
structure CounterBuilder (τ : Type) extends AutomatonWithCounter τ where
  toNewState : Ptr × ℕ → Option Ptr

/-- `(count == BufferSize) ? 1 : (count + 1)` -/
def nextCount (N count : ℕ) : ℕ := if count = N then 1 else count + 1

/-- `addNewState(s, c)`: the new state, and the state of the construction with
    the states found in this round. -/
def addNewState (s : Ptr) (c : ℕ) (st : CounterBuilder τ × List Ptr) :
    Ptr × CounterBuilder τ × List Ptr :=
  let (b, currStates) := st
  let (newState, heap) := b.heap.makeShared (b.heap.cell s)
  (newState,
    { b with
      heap := heap
      toNewState := Function.update b.toNewState (s, c) (some newState)
      counter := Function.update b.counter newState c
      states := b.states ++ [newState] },
    currStates ++ [newState])

/-- `nextS = p` for the transition `nextS` at a position of the state `s`. -/
def CounterBuilder.setTarget (b : CounterBuilder τ) (s : Ptr) (i : UInt8 × ℕ) (p : Ptr) :
    CounterBuilder τ :=
  { b with heap := b.heap.write s ((b.heap.cell s).setTarget i p) }

/-- The body of the loop over the transitions of the new state `s`. -/
def rewriteTarget (s : Ptr) (count' : ℕ) (st : CounterBuilder τ × List Ptr) (i : UInt8 × ℕ) :
    CounterBuilder τ × List Ptr :=
  match (st.1.next s i.1)[i.2]? with
  | none => st
  | some nextS =>
    match st.1.toNewState (lock nextS, count') with
    | none =>
      let (p, b, currStates) := addNewState (lock nextS) count' st
      (b.setTarget s i p, currStates)
    | some p => (st.1.setTarget s i p, st.2)

/-- The body of the loop over the states of a round. -/
def rewriteState (N : ℕ) (s : Ptr) (st : CounterBuilder τ × List Ptr) :
    Option (CounterBuilder τ × List Ptr) :=
  some ((st.1.heap.cell s).slots.foldl (rewriteTarget s (nextCount N (st.1.counter s))) st)

/-- The initial states of the result and the first round's states. -/
def addInitialStates (h : Heap (NDState τ)) (initialStates : List Ptr) :
    CounterBuilder τ × List Ptr :=
  initialStates.foldl
    (fun st s =>
      let (p, b, currStates) := addNewState s 0 st
      ({ b with initialStates := b.initialStates ++ [p] }, currStates))
    ({ heap := h, states := [], initialStates := [], counter := fun _ => 0,
       toNewState := fun _ => none }, [])

/-- The start of the worklist loop, with the initial states sorted. -/
def counterStart (addr : Ptr ↪ ℕ) (A : Automaton (NDState τ)) : CounterBuilder τ × List Ptr :=
  let (b, currStates) := addInitialStates A.heap A.initialStates
  ({ b with initialStates := Sorting.sortBy addr b.initialStates }, currStates)

/-- `toAutomatonWithCounter`; `addr` is the order of the addresses. -/
def toAutomatonWithCounter (addr : Ptr ↪ ℕ) (N : ℕ) (A : Automaton (NDState τ)) (fuel : ℕ) :
    Option (AutomatonWithCounter τ) :=
  (Worklist.run (rewriteState N) fuel (counterStart addr A)).map
    CounterBuilder.toAutomatonWithCounter

end MooreFilter

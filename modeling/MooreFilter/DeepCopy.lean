/-
  Deep copies (`TimedAutomaton::deepCopy` in `automata.hh`).

  The copy is made in three passes: the states are copied, with transitions that
  still point to the old states; the initial states are looked up in the map
  `old2new`; and the target of each transition is replaced in place.

  * `copyState`, `copyInitialState` and `redirectEdge` are the bodies of the loops;
  * `CopyState` is what they write to: the destination and the map, and the memory
    that both automata are in.

  For a state without a copy, the source puts an empty pointer where the copy would
  be; here there is then no result.
-/
import MooreFilter.AddCounter

namespace MooreFilter

/-- The destination of a copy, with the map from old to new states. -/
structure CopyState extends Automaton (NDState TATransition) where
  old2new : Ptr → Option Ptr

/-- The first loop's body: copy a state. -/
def copyState (dest : CopyState) (oldState : Ptr) : CopyState :=
  let (newState, heap) := dest.heap.makeShared (dest.heap.cell oldState)
  { dest with
    heap := heap
    states := dest.states ++ [newState]
    old2new := Function.update dest.old2new oldState (some newState) }

/-- The second loop's body: the copy of an initial state. -/
def copyInitialState (dest : CopyState) (oldInitialState : Ptr) : Option CopyState :=
  (dest.old2new oldInitialState).map fun newState =>
    { dest with initialStates := dest.initialStates ++ [newState] }

/-- `edge.target = old2new[oldTarget]` for the transition `edge` at a position of a state. -/
def redirectEdge (state : Ptr) (dest : CopyState) (i : UInt8 × ℕ) : Option CopyState :=
  match (dest.next state i.1)[i.2]? with
  | none => some dest
  | some edge =>
    (dest.old2new (lock edge)).map fun newTarget =>
      { dest with heap := dest.heap.write state ((dest.heap.cell state).setTarget i newTarget) }

/-- The third loop's body: the transitions of a state. -/
def redirectEdges (dest : CopyState) (state : Ptr) : Option CopyState :=
  (dest.heap.cell state).slots.foldlM (redirectEdge state) dest

/-- `TimedAutomaton::deepCopy` to a destination with the states and initial states
    given: the destination, its `maxConstraints` and the map. -/
def TimedAutomaton.deepCopy (A : TimedAutomaton) (states initialStates : List Ptr)
    (old2new : Ptr → Option Ptr) : Option (CopyState × List ℤ) := do
  let dest := A.states.foldl copyState ⟨⟨A.heap, states, initialStates⟩, old2new⟩
  let dest ← A.initialStates.foldlM copyInitialState dest
  let dest ← dest.states.foldlM redirectEdges dest
  return (dest, A.maxConstraints)

end MooreFilter

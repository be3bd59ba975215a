/-
  Moore machines (`moore_machine.hh`).

  * `Alphabet` is the mask character of an alphabet, and the masking of a
    character: letters, and letters with a delay;
  * `MooreMachine.feed` reads a character and returns the one read `N` characters
    ago, masked unless its bit is set; `feed` takes the method of the bit buffer
    as a parameter `gae`;
  * `SubsetBuilder` is what the two determinisations write to: a state is made
    for a list of configurations, and found again by a key;
  * `toMooreMachine` is the determinisation of an NFA with counter.
-/
import MooreFilter.AddCounter
import MooreFilter.BitBuffer

namespace MooreFilter

/-! ## Alphabets -/

/-- `maskChar` and `mask` of an alphabet. -/
class Alphabet (α : Type) where
  maskChar : α
  mask : α → α
  mask_mask : ∀ c, mask (mask c) = mask c

export Alphabet (maskChar mask mask_mask)

attribute [simp] mask_mask

instance : Alphabet UInt8 where
  maskChar := '_'.toUInt8
  mask _ := '_'.toUInt8
  mask_mask _ := rfl

instance : Alphabet (UInt8 × ℚ) where
  maskChar := ('_'.toUInt8, 0)
  mask c := ('_'.toUInt8, c.2)
  mask_mask _ := rfl

/-! ## The machine -/

/-- The states of a deterministic automaton. -/
class DeterministicState (State : Type) (α : outParam Type) where
  isMatch : State → Bool
  next : State → α → Option Ptr

instance : DeterministicState DFAState UInt8 := ⟨DFAState.isMatch, DFAState.next⟩

instance : DeterministicState DRTAState (UInt8 × ℚ) := ⟨DRTAState.isMatch, DRTAState.next⟩

/-- `MooreMachine` -/
structure MooreMachine (N : ℕ) (α State : Type) extends Automaton State where
  counter : Ptr → ℕ
  charBuffer : List α
  bitBuffer : BitVec N
  currentState : Ptr

namespace MooreMachine
variable {N : ℕ} {α State : Type} [Alphabet α] [DeterministicState State α]
  (gae : BitVec N → ℕ → Bool × BitVec N)

/-- The state after a character: the initial state if there is no transition. -/
def nextState (A : MooreMachine N α State) (s : Ptr) (c : α) : Ptr :=
  (DeterministicState.next (A.heap.cell s) c).getD (A.initialStates.headD 0)

/-- `MooreMachine::feed`: the returned character and the new machine. -/
def feed (A : MooreMachine N α State) (c : α) : α × MooreMachine N α State :=
  let currentState := A.nextState A.currentState c
  let (enabled, bitBuffer) := gae A.bitBuffer (A.counter currentState)
  let front := A.charBuffer.headD maskChar
  let ret := if enabled then front else mask front
  (ret, { A with
    currentState := currentState
    bitBuffer := bitBuffer
    charBuffer := A.charBuffer.tail ++ [c] })

end MooreMachine

/-! ## States for sets of configurations -/

/-- The counter of a set of configurations: the largest counter of an accepting
    one, but `N` if a configuration has the counter `N`. -/
def maxCounter {Conf : Type} (N : ℕ) (isMatch : Conf → Bool) (counter : Conf → ℕ)
    (s : List Conf) : ℕ :=
  s.foldl (fun x ps => if counter ps = N then N else if isMatch ps then max x (counter ps) else x) 0

/-- A deterministic automaton under construction: `toOldStates` is the list of
    configurations that a state was made for, `toNewState` finds states by keys. -/
structure SubsetBuilder (State Conf Key : Type) extends Automaton State where
  counter : Ptr → ℕ
  toNewState : Key → Option Ptr
  toOldStates : Ptr → List Conf

namespace SubsetBuilder
variable {State Conf Key : Type} [DecidableEq Key]

/-- The builder before the first state is made. -/
def empty (mk : Bool → State) : SubsetBuilder State Conf Key where
  heap := { cell := fun _ => mk false, size := 0 }
  states := []
  initialStates := []
  counter _ := 0
  toNewState _ := none
  toOldStates _ := []

/-- `addNewState(s)`, where `mk` is the constructor of the states and `key` the
    key of `s`. -/
def addNewState (mk : Bool → State) (N : ℕ) (isMatch : Conf → Bool) (counter : Conf → ℕ)
    (key : Key) (s : List Conf) (st : SubsetBuilder State Conf Key × List Ptr) :
    Ptr × SubsetBuilder State Conf Key × List Ptr :=
  let (b, currStates) := st
  let (newState, heap) := b.heap.makeShared (mk (s.any isMatch))
  (newState,
    { b with
      heap := heap
      toNewState := Function.update b.toNewState key (some newState)
      toOldStates := Function.update b.toOldStates newState s
      counter := Function.update b.counter newState (maxCounter N isMatch counter s)
      states := b.states ++ [newState] },
    currStates ++ [newState])

/-- `to.initialStates = {p}; to.currentState = p` -/
def setInitial (st : Ptr × SubsetBuilder State Conf Key × List Ptr) :
    SubsetBuilder State Conf Key × List Ptr :=
  ({ st.2.1 with initialStates := [st.1] }, st.2.2)

/-- The Moore machine with empty buffers, in its initial state. -/
def toMachine {α : Type} [Alphabet α] (N : ℕ) (b : SubsetBuilder State Conf Key) :
    MooreMachine N α State where
  toAutomaton := b.toAutomaton
  counter := b.counter
  charBuffer := List.replicate N maskChar
  bitBuffer := 0#N
  currentState := b.initialStates.headD 0

end SubsetBuilder

/-! ## The untimed construction -/

/-- The builder of `toMooreMachine`: the configurations are states of the NFA,
    and the key of a list is the list itself. -/
abbrev DFABuilder := SubsetBuilder DFAState Ptr (List Ptr)

section
variable (addr : Ptr ↪ ℕ) (N : ℕ) (A : AutomatonWithCounter NFATransition)

/-- `mergedNext`, before the initial states are added: the targets of the
    transitions of the states `s`. -/
def mergedNext (s : List Ptr) : AList fun _ : UInt8 => List Ptr :=
  AssocList.collect (s.flatMap fun vecs =>
    (A.heap.cell vecs).nextMap.entries.map fun nextPair => (nextPair.1, nextPair.2.map lock))

/-- The key of the targets `l`: with the initial states, sorted, each once. -/
def withInitial (l : List Ptr) : List Ptr :=
  Sorting.unique (Sorting.sortBy addr (l ++ A.initialStates))

/-- `addNewState` of `toMooreMachine` -/
def addNewDFAState (s : List Ptr) (st : DFABuilder × List Ptr) : Ptr × DFABuilder × List Ptr :=
  SubsetBuilder.addNewState (fun m => { isMatch := m, nextMap := fun _ => none }) N A.isMatch
    A.counter s s st

/-- `s->nextMap[a] = p` -/
def setNextDFA (b : DFABuilder) (s : Ptr) (a : UInt8) (p : Ptr) : DFABuilder :=
  let cell := b.heap.cell s
  let cell := { cell with nextMap := Function.update cell.nextMap a (some p) }
  { b with heap := b.heap.write s cell }

/-- The body of the loop over the letters of `mergedNext`. -/
def addTransition (s : Ptr) (st : DFABuilder × List Ptr)
    (nextPair : (_ : UInt8) × List Ptr) : DFABuilder × List Ptr :=
  match st.1.toNewState (withInitial addr A nextPair.2) with
  | none =>
    let (p, b, currStates) := addNewDFAState N A (withInitial addr A nextPair.2) st
    (setNextDFA b s nextPair.1 p, currStates)
  | some p => (setNextDFA st.1 s nextPair.1 p, st.2)

/-- The body of the loop over the states of a round. -/
def addTransitions (s : Ptr) (st : DFABuilder × List Ptr) : Option (DFABuilder × List Ptr) :=
  some ((mergedNext A (st.1.toOldStates s)).entries.foldl (addTransition addr N A s) st)

/-- The start of the worklist loop, with the initial state. -/
def dfaStart : DFABuilder × List Ptr :=
  SubsetBuilder.setInitial
    (addNewDFAState N A A.initialStates (SubsetBuilder.empty fun m => ⟨m, fun _ => none⟩, []))

/-- `toMooreMachine`; `addr` is the order of the addresses. -/
def toMooreMachine (fuel : ℕ) : Option (MooreMachine N UInt8 DFAState) :=
  (Worklist.run (addTransitions addr N A) fuel (dfaStart N A)).map (SubsetBuilder.toMachine N)

end

end MooreFilter

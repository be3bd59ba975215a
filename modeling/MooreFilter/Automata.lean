/-
  Automata (`constraint.hh`, `automata.hh`).

  States live on a heap and are named by their addresses; a `shared_ptr` or a
  `weak_ptr` to a live state is its address.  The standard's unordered maps that
  the code iterates over are association lists with distinct keys, in the order
  of the iteration; `operator[]` on a missing letter is the empty vector.

  * `Constraint.satisfy` is a guard's test, on exact rationals;
  * `NDState` is a state of an NFA (`τ = NFATransition`) or of a timed automaton
    (`τ = TATransition`); `DFAState.next` and `DRTAState.next` are the
    deterministic ones' transition functions;
  * `Automaton` is a heap with the states and the initial states of an
    automaton, `FiniteAutomaton` one whose pointers are not dangling;
  * `TimedAutomaton.isMember` is the membership test of the test suite;
  * `Automaton.toNFA` reads an automaton as an NFA of the library, forgetting
    guards and resets.
-/
import MooreFilter.Lib.Search
import Mathlib.Computability.NFA
import Mathlib.Data.List.AList
import Mathlib.Data.Rat.Defs
import Mathlib.Algebra.Order.Ring.Rat
import Mathlib.Order.WithBot

namespace MooreFilter

/-! ## Constraints -/

/-- `ClockVariables`, an 8-bit number. -/
abbrev ClockVariables := UInt8

/-- `Constraint::Order` -/
inductive Constraint.Order where
  | lt | le | gt | ge
  deriving DecidableEq

/-- A constraint `x odr c` in a guard, where `c` is an `int`. -/
structure Constraint where
  x : ClockVariables
  odr : Constraint.Order
  c : Int32
  deriving DecidableEq

/-- `Constraint::satisfy` -/
def Constraint.satisfy (g : Constraint) (d : ℚ) : Bool :=
  match g.odr with
  | .lt => d < g.c.toInt
  | .le => d ≤ g.c.toInt
  | .gt => d > g.c.toInt
  | .ge => d ≥ g.c.toInt

/-- The results of a comparison. -/
inductive Order where
  | LT | EQ | GT
  deriving DecidableEq

/-- `Constraint::operator()`, where `val` has a value for each clock. -/
def Constraint.compare (g : Constraint) (val : ClockVariables → ℚ) : MooreFilter.Order :=
  if g.satisfy (val g.x) then .EQ
  else if g.odr = .lt ∨ g.odr = .le then .GT
  else .LT

/-- `widen` -/
def widen (guard : List Constraint) : List Constraint :=
  guard.filter fun g => ! (g.odr = .ge ∨ g.odr = .gt)

/-! ## States -/

/-- The address of a state. -/
abbrev Ptr := ℕ

/-- The transitions stored in a state: `lock` is their target and `assign` the
    assignment of a new target. -/
class Transition (τ : Type) where
  lock : τ → Ptr
  assign : τ → Ptr → τ
  lock_assign : ∀ t p, lock (assign t p) = p
  assign_assign : ∀ t p q, assign (assign t p) q = assign t q

export Transition (lock assign lock_assign)

attribute [simp] lock_assign

/-- A transition of an NFA is a pointer to its target. -/
abbrev NFATransition := Ptr

instance : Transition NFATransition where
  lock := id
  assign _ p := p
  lock_assign _ _ := rfl
  assign_assign _ _ _ := rfl

/-- `TATransition` -/
structure TATransition where
  target : Ptr
  resetVars : List ClockVariables
  guard : List Constraint
  deriving DecidableEq

instance : Transition TATransition where
  lock := TATransition.target
  assign t p := { t with target := p }
  lock_assign _ _ := rfl
  assign_assign _ _ _ := rfl

/-- `NonDeterministicAutomatonState` -/
structure NDState (τ : Type) where
  isMatch : Bool
  nextMap : AList fun _ : UInt8 => List τ

instance {τ : Type} : Inhabited (NDState τ) := ⟨⟨false, ∅⟩⟩

/-- The transitions of a state on a letter. -/
def NDState.next {τ : Type} (s : NDState τ) (c : UInt8) : List τ :=
  (s.nextMap.lookup c).getD []

/-- The memory that holds the states: the addresses below `size` are in use. -/
structure Heap (State : Type) where
  cell : Ptr → State
  size : ℕ

namespace Heap
variable {State : Type}

/-- `std::make_shared<State>(s)` -/
def makeShared (h : Heap State) (s : State) : Ptr × Heap State :=
  (h.size, { cell := Function.update h.cell h.size s, size := h.size + 1 })

/-- Write to the state at an address. -/
def write (h : Heap State) (p : Ptr) (s : State) : Heap State :=
  { h with cell := Function.update h.cell p s }

@[simp] theorem cell_write_self (h : Heap State) (p : Ptr) (s : State) :
    (h.write p s).cell p = s := Function.update_self ..

theorem cell_write_of_ne (h : Heap State) {p q : Ptr} (s : State) (hne : q ≠ p) :
    (h.write p s).cell q = h.cell q := Function.update_of_ne hne ..

end Heap

theorem isMatch_write {τ : Type} {h : Heap (NDState τ)} {q : Ptr} {s : NDState τ}
    (hs : s.isMatch = (h.cell q).isMatch) (p : Ptr) :
    ((h.write q s).cell p).isMatch = (h.cell p).isMatch := by
  rcases eq_or_ne p q with rfl | hp
  · rw [Heap.cell_write_self, hs]
  · rw [Heap.cell_write_of_ne _ _ hp]

/-- What holds of the states and of a new one. -/
theorem forall_mem_concat {l : List Ptr} {q : Ptr} {P : Ptr → Prop} (hq : q ∉ l)
    (h : ∀ p ∈ l, p ≠ q → P p) (hself : P q) : ∀ p ∈ l ++ [q], P p := by
  intro p hp
  rcases List.mem_append.1 hp with hp | hp
  · exact h p hp fun e => hq (e ▸ hp)
  · rw [List.mem_singleton.1 hp]; exact hself

/-! ## Automata -/

/-- `Automaton<State>`, with the memory its pointers point into. -/
structure Automaton (State : Type) where
  heap : Heap State
  states : List Ptr
  initialStates : List Ptr

namespace Automaton
variable {τ : Type} (A : Automaton (NDState τ))

/-- The transitions of a state on a letter. -/
def next (s : Ptr) (c : UInt8) : List τ := (A.heap.cell s).next c

/-- Is the state accepting? -/
def isMatch (s : Ptr) : Bool := (A.heap.cell s).isMatch

/-- The automaton without its guards and resets, as an NFA of the library. -/
def toNFA [Transition τ] : NFA UInt8 Ptr where
  step s c := {t | t ∈ (A.next s c).map lock}
  start := {s | s ∈ A.initialStates}
  accept := {s | A.isMatch s = true}

/-- No state has a transition labelled by the mask character `_`. -/
def NoMaskLabel : Prop := ∀ s, s ∈ A.states → A.next s '_'.toUInt8 = []

end Automaton

/-- A finite automaton: its states are live and no pointer is dangling. -/
structure FiniteAutomaton (τ : Type) [Transition τ] extends Automaton (NDState τ) where
  states_lt : ∀ s ∈ states, s < heap.size
  initial_mem : ∀ s ∈ initialStates, s ∈ states
  target_mem : ∀ s ∈ states, ∀ c, ∀ t ∈ (heap.cell s).next c, lock t ∈ states

/-- The accepting state with transitions on one letter. -/
def NDState.loop {τ : Type} (a : UInt8) (ts : List τ) : NDState τ :=
  { isMatch := true, nextMap := (∅ : AList fun _ : UInt8 => List τ).insert a ts }

theorem NDState.next_loop {τ : Type} (a : UInt8) (ts : List τ) (c : UInt8) :
    (NDState.loop a ts).next c = if c = a then ts else [] := by
  unfold loop next
  split_ifs with h
  · rw [h, AList.lookup_insert]; rfl
  · rw [AList.lookup_insert_ne h]; rfl

/-- The automaton with one state, initial and accepting, and loops on a letter. -/
def FiniteAutomaton.loop {τ : Type} [Transition τ] (a : UInt8) (ts : List τ)
    (hts : ∀ t ∈ ts, lock t = 0) : FiniteAutomaton τ where
  heap := { cell := fun _ => .loop a ts, size := 1 }
  states := [0]
  initialStates := [0]
  states_lt := by simp
  initial_mem := by simp
  target_mem := by
    intro s _ c t ht
    rw [NDState.next_loop] at ht
    split_ifs at ht with h
    · simpa using hts t ht
    · simp at ht

/-- `TimedAutomaton` -/
structure TimedAutomaton extends FiniteAutomaton TATransition where
  maxConstraints : List ℤ

namespace TimedAutomaton
variable (A : TimedAutomaton)

/-- `TimedAutomaton::clockSize` -/
def clockSize : ℕ := A.maxConstraints.length

/-- A configuration of `isMember`: a state and the values of the clocks.  The source has
    values for the clocks below `clockSize`, and reads and writes outside of them for the
    others. -/
abbrev Config := Ptr × (ClockVariables → ℚ)

/-- `tmpConfig.second[x] = 0` for the clocks `x` of a reset list. -/
def resetAll (xs : List ClockVariables) (v : ClockVariables → ℚ) : ClockVariables → ℚ :=
  xs.foldl (fun v x => Function.update v x 0) v

/-- The successors of the configurations of `isMember` on a letter, after a
    delay. -/
def isMemberStep (c : UInt8) (delay : ℚ) (CStates : List Config) : List Config :=
  CStates.flatMap fun config =>
    let second := fun x => config.2 x + delay
    (A.next config.1 c).filterMap fun edge =>
      if edge.guard.all fun g => g.satisfy (second g.x) then
        some (edge.target, resetAll edge.resetVars second)
      else none

/-- The loop of `isMember` over the events from `w[i]` on; `last` is the
    timestamp of `w[i-1]`, if `i > 0`. -/
def isMemberLoop : Option ℚ → List (UInt8 × ℚ) → List Config → List Config
  | _, [], CStates => CStates
  | last, (c, t) :: w, CStates =>
    let delay := match last with
      | some t' => t - t'
      | none => t
    isMemberLoop (some t) w (A.isMemberStep c delay CStates)

/-- `TimedAutomaton::isMember`, on a word of letters and timestamps. -/
def isMember (w : List (UInt8 × ℚ)) : Bool :=
  (A.isMemberLoop none w (A.initialStates.map fun s => (s, fun _ => 0))).any
    fun p => A.isMatch p.1

end TimedAutomaton

/-! ## Deterministic states -/

/-- A `double` other than NaN: a rational or an infinity. -/
abbrev Double := WithBot (WithTop ℚ)

/-- `DFAState` -/
structure DFAState where
  isMatch : Bool
  nextMap : UInt8 → Option Ptr

/-- `DFAState::next` -/
def DFAState.next (s : DFAState) (c : UInt8) : Option Ptr := s.nextMap c

/-- `DRTATransition` -/
structure DRTATransition where
  upperBound : Double × Bool
  target : Ptr

/-- `DRTATransition::operator<` -/
def DRTATransition.lt (e : DRTATransition) (x : ℚ) : Bool :=
  e.upperBound.1 < ((x : WithTop ℚ) : Double) ||
    (e.upperBound.1 == ((x : WithTop ℚ) : Double) && !e.upperBound.2)

/-- `DRTAState` -/
structure DRTAState where
  isMatch : Bool
  nextMap : UInt8 → Option (List DRTATransition)

/-- `DRTAState::next`.  `std::lower_bound` past the last transition would be
    dereferenced by the source; here there is then no state. -/
def DRTAState.next (s : DRTAState) (c : UInt8 × ℚ) : Option Ptr :=
  match s.nextMap c.1 with
  | none => none
  | some es => (es[Search.lowerBound (fun e => e.lt c.2) es]?).map DRTATransition.target

end MooreFilter

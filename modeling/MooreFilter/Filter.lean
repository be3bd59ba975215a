/-
  The filter (`main.cc`).

  `filter` reads the input, feeds it to the machine and writes what the machine
  returns, from the `N`-th character on; at the end of the input the characters
  still in the buffer are flushed by feeding mask characters.

  * `readOne`, `fillOne` and `flushOne` are the bodies of its three loops;
  * `constructFilter` builds the machine for an NFA, and
    `TimedAutomaton.constructFilter` the one for a timed automaton.
-/
import MooreFilter.TimedMooreMachine

namespace MooreFilter

section
variable {N : ℕ} {α State : Type} [Alphabet α] [DeterministicState State α]
  (gae : BitVec N → ℕ → Bool × BitVec N)

/-- The first loop's body: the machine, `counter` and the output. -/
def readOne (st : MooreMachine N α State × ℕ × List α) (c : α) :
    MooreMachine N α State × ℕ × List α :=
  let (A, counter, fout) := st
  let (ret, A) := A.feed gae c
  if N ≤ counter then (A, counter, fout ++ [ret]) else (A, counter + 1, fout)

/-- The second loop's body: feed a mask character, drop what it returns. -/
def fillOne (A : MooreMachine N α State) : MooreMachine N α State := (A.feed gae maskChar).2

/-- The third loop's body: feed a mask character. -/
def flushOne (st : MooreMachine N α State × List α) : MooreMachine N α State × List α :=
  let (ret, A) := st.1.feed gae maskChar
  (A, st.2 ++ [ret])

/-- `filter`: the output for an input. -/
def filter (A : MooreMachine N α State) (fin : List α) : List α :=
  let (A, finCounter, fout) := fin.foldl (readOne gae) (A, 0, [])
  let A := (fillOne gae)^[N - finCounter] A
  ((flushOne gae)^[finCounter] (A, fout)).2

end

/-- `constructFilter` for an NFA; `addr` is the order of the addresses. -/
def constructFilter (addr : Ptr ↪ ℕ) (N : ℕ) (A : Automaton (NDState NFATransition)) (fuel : ℕ) :
    Option (MooreMachine N UInt8 DFAState) :=
  (toAutomatonWithCounter addr N A fuel).bind fun counter => toMooreMachine addr N counter fuel

/-- `M` of the timed `constructFilter`: the largest constant.  Without one, the source
    would dereference the end of the vector; here there is then no bound. -/
def TimedAutomaton.maxBound (TA : TimedAutomaton) : Option Bounds :=
  TA.maxConstraints.max?.map fun c => .fin c true

/-- `constructFilter` for a timed automaton; `order` is the order of the letters. -/
def TimedAutomaton.constructFilter (addr : Ptr ↪ ℕ) (order : Ptr → UInt8 → ℕ) (N : ℕ)
    (TA : TimedAutomaton) (fuel : ℕ) : Option (MooreMachine N (UInt8 × ℚ) DRTAState) :=
  (toAutomatonWithCounter addr N TA.toAutomaton fuel).bind fun counter =>
    TA.maxBound.bind fun M => toTimedMooreMachine addr order N counter TA.clockSize M fuel

end MooreFilter

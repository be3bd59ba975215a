/-
  The programs (`main.cc`, `construct_only.cc`).

  Both read the options and a graph, build the machine, and differ in what they do
  with it.  The options are given as their counts in `vm`, and the files by what
  the graph reader makes of them: none if there is no graph in the file.

  * `dispatch` is what the two have in common: the checks of the options, the
    choice between the two modes, and the reading of the automaton;
  * `main` filters the input, `constructOnly` prints the number of states;
  * the numbers are exact up to the printing, where `printLine` rounds them.
-/
import MooreFilter.AbsTime
import MooreFilter.Graph

namespace MooreFilter

/-- The options of the command line. -/
structure Options where
  automatonFileName : String
  help : Bool
  version : Bool
  abs : Bool
  untimed : Bool
  timed : Bool

/-- What a program does. -/
inductive Outcome (β : Type) where
  | usage
  | version
  | die (message : String) (status : ℕ)
  /-- an exception of the graph reader is not caught -/
  | readError
  | run (result : β)

/-- What the two programs have in common; `timed` and `untimed` go on with the
    automaton. -/
def dispatch {β : Type} (files : String → Option DotGraph) (opts : Options)
    (timed : TimedAutomaton → Option β) (untimed : FiniteAutomaton NFATransition → Option β) :
    Option (Outcome β) :=
  if opts.automatonFileName.isEmpty || opts.help then some .usage
  else if opts.version then some .version
  else if opts.timed && opts.untimed then some (.die "conflicting input formats specified" 1)
  else match (files opts.automatonFileName).bind parseBoostTA with
    | none => some .readError
    | some BoostTA =>
      if opts.timed then (timed (convBoostTA BoostTA)).map .run
      else (untimed (convBoostNFA BoostTA)).map .run

/-- The nearest integer; of two, the even one. -/
def roundEven (x : ℚ) : ℤ :=
  let low := x.floor
  if x - low < 1 / 2 then low
  else if 1 / 2 < x - low then low + 1
  else if low % 2 = 0 then low else low + 1

/-- The number that `printf` writes with `%lf`: six decimals. -/
def sixDecimals (x : ℚ) : ℚ := (roundEven (x * 10 ^ 6) : ℚ) / 10 ^ 6

/-- The line that is printed for an event. -/
def printLine (line : UInt8 × ℚ) : UInt8 × ℚ := (line.1, sixDecimals line.2)

/-- The lines that are printed. -/
inductive Lines where
  | letters (fout : List UInt8)
  | events (fout : List (UInt8 × ℚ))

/-- `main` of `main.cc`, where `N` is `BUFFER_SIZE`; the input is read as letters or
    as events. -/
def main (files : String → Option DotGraph) {N : ℕ} (gae : BitVec N → ℕ → Bool × BitVec N)
    (addr : Ptr ↪ ℕ) (order : Ptr → UInt8 → ℕ) (fuel : ℕ) (opts : Options)
    (letters : List UInt8) (events : List (UInt8 × ℚ)) : Option (Outcome Lines) :=
  dispatch files opts
    (fun TA => (TA.constructFilter addr order N fuel).map fun filterMachine =>
      .events ((timedFilter gae opts.abs filterMachine events).map printLine))
    (fun A => (constructFilter addr N A.toAutomaton fuel).map fun filterMachine =>
      .letters (filter gae filterMachine letters))

/-- `main` of `construct_only.cc`: the number of states that is printed. -/
def constructOnly (files : String → Option DotGraph) (N : ℕ) (addr : Ptr ↪ ℕ)
    (order : Ptr → UInt8 → ℕ) (fuel : ℕ) (opts : Options) : Option (Outcome ℕ) :=
  dispatch files opts
    (fun TA => (TA.constructFilter addr order N fuel).map fun filterMachine =>
      filterMachine.states.length)
    (fun A => (constructFilter addr N A.toAutomaton fuel).map fun filterMachine =>
      filterMachine.states.length)

end MooreFilter

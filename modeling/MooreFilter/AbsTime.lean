/-
  Absolute time stamps (`main.cc`, `experiments/`).

  In the absolute time mode `getOne` turns the stamps of the input into delays,
  and `putOne` the delays of the output into stamps, where of a run of masked
  events only the first and the last one are printed.  Each of them has static
  variables of its own.

  * `filterWith` is the loop of `filter` around any `getOne` and `putOne`, with
    the values of their static variables as state; `timedFilter` is the timed
    filter in both modes;
  * `abs2rel` and `rel2absTruncate` are the programs of `abs2rel.c` and
    `rel2abs_truncate.c`, which do the same around the relative mode;
  * `rel2abs`, `truncate` and `rel2absTruncateAwk` are the awk scripts of these names;
    `abs2rel.awk` is `abs2rel.c`.

  A line is its event; the input is a list of well-formed lines.  The numbers are exact:
  what `printf` does to them is in `Main.lean`.
-/
import MooreFilter.Filter

namespace MooreFilter

/-! ## Reading and writing events -/

/-- The timed `getOne`: the event of a line, and the new `last_abs_time`. -/
def getOne (isAbsTime : Bool) (lastAbsTime : ℚ) (line : UInt8 × ℚ) : (UInt8 × ℚ) × ℚ :=
  if isAbsTime then ((line.1, line.2 - lastAbsTime), line.2) else (line, lastAbsTime)

/-- The static variables of the timed `putOne`. -/
structure PutState where
  truncating : Bool
  lastAbsTime : ℚ

/-- Their initial values. -/
def PutState.start : PutState := ⟨false, 0⟩

/-- The timed `putOne`: the lines for an event, before their numbers are printed with six
    decimals (`printLine` in `main`), and the new values of the static variables. -/
def putOne (isAbsTime : Bool) (s : PutState) (p : UInt8 × ℚ) : List (UInt8 × ℚ) × PutState :=
  if isAbsTime then
    let absTime := s.lastAbsTime + p.2
    if p.1 = '_'.toUInt8 then
      (if s.truncating then [] else [('_'.toUInt8, absTime)], ⟨true, absTime⟩)
    else
      ((if s.truncating then [('_'.toUInt8, s.lastAbsTime)] else []) ++ [(p.1, absTime)],
        ⟨false, absTime⟩)
  else ([p], s)

/-! ## The loop -/

/-- The machine, the values of the static variables of `getOne` and of `putOne`,
    and what was printed. -/
structure FilterState (N : ℕ) (α State σ τ β : Type) where
  A : MooreMachine N α State
  getState : σ
  putState : τ
  fout : List β

section
variable {N : ℕ} {α State σ τ β : Type} [Alphabet α] [DeterministicState State α]
  (gae : BitVec N → ℕ → Bool × BitVec N) (getOne : σ → β → α × σ) (putOne : τ → α → List β × τ)

/-- `putOne(fout, A.feed(c))` -/
def putFeed (st : FilterState N α State σ τ β) (c : α) : FilterState N α State σ τ β :=
  let (ret, A) := st.A.feed gae c
  let (lines, putState) := putOne st.putState ret
  { st with A := A, putState := putState, fout := st.fout ++ lines }

/-- `A.feed(c)`, where the returned character is dropped. -/
def dropFeed (st : FilterState N α State σ τ β) (c : α) : FilterState N α State σ τ β :=
  { st with A := (st.A.feed gae c).2 }

/-- The first loop's body: the state and `counter`. -/
def readLine (st : FilterState N α State σ τ β × ℕ) (line : β) :
    FilterState N α State σ τ β × ℕ :=
  let (st, counter) := st
  let (c, getState) := getOne st.getState line
  let st := { st with getState := getState }
  if N ≤ counter then (putFeed gae putOne st c, counter) else (dropFeed gae st c, counter + 1)

/-- `filter` around `getOne` and `putOne`: the printed lines for an input. -/
def filterWith (getState : σ) (putState : τ) (A : MooreMachine N α State) (fin : List β) :
    List β :=
  let (st, finCounter) := fin.foldl (readLine gae getOne putOne) (⟨A, getState, putState, []⟩, 0)
  let st := (fun st => dropFeed gae st maskChar)^[N - finCounter] st
  ((fun st => putFeed gae putOne st maskChar)^[finCounter] st).fout

end

/-- The timed `filter` from the start of the program: the printed lines. -/
def timedFilter {N : ℕ} {State : Type} [DeterministicState State (UInt8 × ℚ)]
    (gae : BitVec N → ℕ → Bool × BitVec N) (isAbsTime : Bool)
    (A : MooreMachine N (UInt8 × ℚ) State) (fin : List (UInt8 × ℚ)) : List (UInt8 × ℚ) :=
  filterWith gae (getOne isAbsTime) (putOne isAbsTime) 0 PutState.start A fin

/-! ## The converters -/

/-- The loop's body of `abs2rel.c`: `last_abs_time` and the printed lines. -/
def abs2relOne (st : ℚ × List (UInt8 × ℚ)) (line : UInt8 × ℚ) : ℚ × List (UInt8 × ℚ) :=
  let (c, absTime) := line
  (absTime, st.2 ++ [(c, absTime - st.1)])

/-- `abs2rel.c` -/
def abs2rel (fin : List (UInt8 × ℚ)) : List (UInt8 × ℚ) := (fin.foldl abs2relOne (0, [])).2

/-- The variables of `rel2abs_truncate.c`, and the printed lines. -/
structure TruncateState where
  absTime : ℚ
  truncating : Bool
  lastC : UInt8
  lastAbsTime : ℚ
  fout : List (UInt8 × ℚ)

/-- The loop's body of `rel2abs_truncate.c`. -/
def rel2absTruncateOne (s : TruncateState) (line : UInt8 × ℚ) : TruncateState :=
  let (c, relTime) := line
  let absTime := s.absTime + relTime
  if c = '_'.toUInt8 then
    { absTime := absTime
      truncating := true
      lastC := c
      lastAbsTime := absTime
      fout := if s.truncating then s.fout else s.fout ++ [(c, absTime)] }
  else
    { s with
      absTime := absTime
      truncating := false
      fout := (if s.truncating then s.fout ++ [(s.lastC, s.lastAbsTime)] else s.fout) ++
        [(c, absTime)] }

/-- `rel2abs_truncate.c`, where `lastC` and `lastAbsTime` are what the variables
    hold that are not initialised. -/
def rel2absTruncate (lastC : UInt8) (lastAbsTime : ℚ) (fin : List (UInt8 × ℚ)) :
    List (UInt8 × ℚ) :=
  (fin.foldl rel2absTruncateOne ⟨0, false, lastC, lastAbsTime, []⟩).fout

/-! ## The awk scripts -/

/-- The rule of `rel2abs.awk`: `abs_time` and the printed lines. -/
def rel2absOne (st : ℚ × List (UInt8 × ℚ)) (line : UInt8 × ℚ) : ℚ × List (UInt8 × ℚ) :=
  let absTime := st.1 + line.2
  (absTime, st.2 ++ [(line.1, absTime)])

/-- `rel2abs.awk` -/
def rel2abs (fin : List (UInt8 × ℚ)) : List (UInt8 × ℚ) := (fin.foldl rel2absOne (0, [])).2

/-- The variables of `truncate.awk`, and the printed lines. -/
structure AwkState where
  truncating : Bool
  last : UInt8 × ℚ
  fout : List (UInt8 × ℚ)

/-- The rules of `truncate.awk`, one after the other. -/
def truncateOne (s : AwkState) (line : UInt8 × ℚ) : AwkState :=
  let s :=
    if line.1 ≠ '_'.toUInt8 ∧ s.truncating then
      { s with fout := s.fout ++ [s.last], truncating := false }
    else s
  let s := if line.1 ≠ '_'.toUInt8 then { s with fout := s.fout ++ [line] } else s
  let s :=
    if line.1 = '_'.toUInt8 ∧ !s.truncating then { s with fout := s.fout ++ [line] } else s
  if line.1 = '_'.toUInt8 then { s with truncating := true, last := line } else s

/-- `truncate.awk`, where `last` is what the variable holds that is not set. -/
def truncate (last : UInt8 × ℚ) (fin : List (UInt8 × ℚ)) : List (UInt8 × ℚ) :=
  (fin.foldl truncateOne ⟨false, last, []⟩).fout

/-- The rules of `rel2abs_truncate.awk`: the first one changes the line.  The stamp that it
    puts there is a text from then on, the number in the format `convfmt`. -/
def rel2absTruncateAwkOne (convfmt : ℚ → ℚ) (st : ℚ × AwkState) (line : UInt8 × ℚ) :
    ℚ × AwkState :=
  let absTime := st.1 + line.2
  (absTime, truncateOne st.2 (line.1, convfmt absTime))

/-- `rel2abs_truncate.awk` -/
def rel2absTruncateAwk (convfmt : ℚ → ℚ) (last : UInt8 × ℚ) (fin : List (UInt8 × ℚ)) :
    List (UInt8 × ℚ) :=
  (fin.foldl (rel2absTruncateAwkOne convfmt) (0, ⟨false, last, []⟩)).2.fout

end MooreFilter

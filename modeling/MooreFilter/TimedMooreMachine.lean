/-
  The timed construction (`timed_moore_machine.hh`, `timed_moore_machine.cc`).

  A state of the real-time automaton is made for a multiset of configurations, a
  state of the timed automaton with a zone.

  * `successor` is the body of the loops of `constructNexts`: the successor of a
    configuration by a transition, with the bounds on the delay;
  * `linearlize` is the sweep of `linearlizeNexts` over the bounds of one letter.
    Each iteration of its loops takes something off a deque, or is repeated
    forever; reading the front of an empty deque has no result;
  * `toTimedMooreMachine`: a new state's key is the sorted list of its tuples
    (`stateKey`), a part is looked up by its sorted list without repetitions
    (`lookupKey`).

  The letters of a state are taken from an unordered map, in any order: the numbers
  `order s` of the letters say in which one (`iterate`).
-/
import MooreFilter.Dbm
import MooreFilter.MooreMachine
import Mathlib.Data.List.Lex
import Mathlib.Data.Prod.Lex

namespace MooreFilter

/-- A configuration: a state and a zone. -/
abbrev Conf (n : ℕ) := Ptr × DBM n

/-! ## `constructNexts` -/

/-- The tuple in `nexts`: a configuration, and the bounds on the delay. -/
structure Entry (n : ℕ) where
  conf : Conf n
  lowerBound : Bounds
  upperBound : Bounds

section
variable {n : ℕ}

/-- The body of the innermost loop of `constructNexts`. -/
def successor (currentZone : DBM n) (transition : TATransition) : Option (Entry n) :=
  let nextZone := transition.guard.foldl DBM.tightenBy currentZone.elapse
  let (sat, nextZone) := nextZone.isSatisfiable
  if sat then
    let nextZone := transition.resetVars.foldl DBM.reset nextZone
    let constraintZone := constraintsToDBM n transition.guard
    let (lowerBound, upperBound) := currentZone.findDuration constraintZone
    some ⟨(lock transition, nextZone), lowerBound, upperBound⟩
  else none

/-- `constructNexts`, for the configurations of a state. -/
def constructNexts (A : AutomatonWithCounter TATransition) (s : List (Conf n)) :
    AList fun _ : UInt8 => List (Entry n) :=
  AssocList.collect (s.flatMap fun old_s =>
    (A.heap.cell old_s.1).nextMap.entries.map fun nextPair =>
      (nextPair.1, nextPair.2.filterMap (successor old_s.2)))

/-! ## `linearlizeNexts` -/

/-- A `double` bound with its flag. -/
abbrev Cut := Double × Bool

/-- `-x` for a `double`. -/
def Double.neg : Double → Double
  | ⊥ => ((⊤ : WithTop ℚ) : Double)
  | some ⊤ => ⊥
  | some (some x) => ((-x : ℚ) : WithTop ℚ)

/-- `<=` on pairs. -/
def Cut.le (a b : Cut) : Bool := decide (a.1 < b.1) || (a.1 == b.1 && (!a.2 || b.2))

/-- Are the configurations equal: the state, and the zone by `DBM::operator==`? -/
def sameConf (p q : Conf n) : Bool := p.1 == q.1 && p.2.beq q.2

/-- The part of a letter: the configurations for the delays up to a bound. -/
abbrev Part (n : ℕ) := List (Conf n) × Cut

/-- The variables of the sweep over one letter. -/
structure Sweep (n : ℕ) where
  lowerVec : List (Conf n × Cut)
  upperVec : List (Conf n × Cut)
  currentStates : List (Conf n)
  nextLineared : List (Part n)

namespace Sweep

/-- The loop of `useLowerFront`. -/
def addAll (initConfs : List (Conf n)) (addedBounds : Cut) :
    List (Conf n × Cut) → List (Conf n) → List (Conf n × Cut) × List (Conf n)
  | [], cur => ([], cur)
  | (p, b) :: lowerVec, cur =>
    if b = addedBounds then
      if initConfs.any (sameConf p) then ((p, b) :: lowerVec, cur)
      else addAll initConfs addedBounds lowerVec (cur ++ [p])
    else ((p, b) :: lowerVec, cur)

/-- The loop of `useUpperFront`. -/
def removeAll (initConfs : List (Conf n)) (removedBounds : Cut) :
    List (Conf n × Cut) → List (Conf n) → List (Conf n × Cut) × List (Conf n)
  | [], cur => ([], cur)
  | (p, b) :: upperVec, cur =>
    if b = removedBounds then
      if initConfs.any (sameConf p) then ((p, b) :: upperVec, cur)
      else removeAll initConfs removedBounds upperVec (cur.eraseP (sameConf p))
    else ((p, b) :: upperVec, cur)

/-- `useLowerFront` -/
def useLowerFront (initConfs : List (Conf n)) (s : Sweep n) : Option (Sweep n) :=
  match s.lowerVec with
  | [] => none
  | (_, addedBounds) :: _ =>
    let (lowerVec, cur) := addAll initConfs addedBounds s.lowerVec s.currentStates
    some { s with lowerVec := lowerVec, currentStates := cur }

/-- `useUpperFront` -/
def useUpperFront (initConfs : List (Conf n)) (s : Sweep n) : Option (Sweep n) :=
  match s.upperVec with
  | [] => none
  | (_, removedBounds) :: _ =>
    let (upperVec, cur) := removeAll initConfs removedBounds s.upperVec s.currentStates
    some { s with upperVec := upperVec, currentStates := cur }

/-- `nextLineared[c].emplace_back(currentStates, b)` -/
def emit (s : Sweep n) (b : Cut) : Sweep n :=
  { s with nextLineared := s.nextLineared ++ [(s.currentStates, b)] }

/-- The first loop: the entries whose delays start at `0`. -/
def startLoop (initConfs : List (Conf n)) : ℕ → Sweep n → Option (Sweep n)
  | fuel, s =>
    match s.lowerVec with
    | [] => some s
    | (_, l) :: _ =>
      if Cut.le l (((0 : ℚ) : WithTop ℚ), true) then
        match fuel with
        | 0 => none
        | fuel + 1 => (s.useLowerFront initConfs).bind (startLoop initConfs fuel)
      else some s

/-- The body of the second loop, where the deques start with the bounds `l` and
    `u`. -/
def mergeStep (initConfs : List (Conf n)) (s : Sweep n) (l u : Cut) : Option (Sweep n) :=
  if l.1 < u.1 then
    (s.emit (l.1, !l.2)).useLowerFront initConfs
  else if l.1 > u.1 then
    (s.emit u).useUpperFront initConfs
  else if l.2 ≠ u.2 then
    ((s.emit u).useUpperFront initConfs).bind fun s => s.useLowerFront initConfs
  else if l.2 then
    ((s.emit (l.1, false)).useLowerFront initConfs).bind fun s =>
      (s.emit (l.1, true)).useUpperFront initConfs
  else
    ((s.emit (l.1, false)).useUpperFront initConfs).bind fun s =>
      (s.emit (l.1, true)).useLowerFront initConfs

/-- The second loop, while there are lower bounds. -/
def mergeLoop (initConfs : List (Conf n)) : ℕ → Sweep n → Option (Sweep n)
  | fuel, s =>
    match s.lowerVec, s.upperVec, fuel with
    | [], _, _ => some s
    | _ :: _, [], _ => none
    | _ :: _, _ :: _, 0 => none
    | (_, l) :: _, (_, u) :: _, fuel + 1 =>
      (s.mergeStep initConfs l u).bind (mergeLoop initConfs fuel)

/-- The third loop: the upper bounds that are left. -/
def endLoop (initConfs : List (Conf n)) : ℕ → Sweep n → Option (Sweep n)
  | fuel, s =>
    match s.upperVec, fuel with
    | [], _ => some s
    | _ :: _, 0 => none
    | (_, u) :: _, fuel + 1 => ((s.emit u).useUpperFront initConfs).bind (endLoop initConfs fuel)

end Sweep

/-- The last part: the initial configurations, for the delays beyond the last
    bound, if it is not infinite. -/
def closeParts (initConfs : List (Conf n)) (nextLineared : List (Part n)) : List (Part n) :=
  let infinity : Double := ((⊤ : WithTop ℚ) : Double)
  match nextLineared.getLast? with
  | none => nextLineared ++ [(initConfs, (infinity, false))]
  | some (_, b) =>
    if b.1 = infinity ∨ b.1 = ⊥ then nextLineared
    else nextLineared ++ [(initConfs, (infinity, false))]

/-- The vectors of `nextsLower`: sorted by the bounds, which are then negated. -/
def sortLower (es : List (Entry n)) : List (Conf n × Cut) :=
  (es.insertionSort fun x y => x.lowerBound ≥ y.lowerBound).map fun e =>
    (e.conf, (Double.neg e.lowerBound.toPair.1, e.lowerBound.toPair.2))

/-- The vectors of `nextsUpper`. -/
def sortUpper (es : List (Entry n)) : List (Conf n × Cut) :=
  (es.insertionSort fun x y => x.upperBound ≤ y.upperBound).map fun e =>
    (e.conf, e.upperBound.toPair)

/-- The body of the loop of `linearlizeNexts` over the letters. -/
def linearlize (initConfs : List (Conf n)) (es : List (Entry n)) : Option (List (Part n)) :=
  let s : Sweep n :=
    { lowerVec := sortLower es, upperVec := sortUpper es, currentStates := initConfs
      nextLineared := [] }
  let fuel := es.length + es.length
  ((s.startLoop initConfs fuel).bind fun s =>
    (s.mergeLoop initConfs fuel).bind (Sweep.endLoop initConfs fuel)).map fun s =>
      closeParts initConfs s.nextLineared

/-- `linearlizeNexts` -/
def linearlizeNexts (initConfs : List (Conf n)) (nexts : AList fun _ : UInt8 => List (Entry n)) :
    Option (List (UInt8 × List (Part n))) :=
  nexts.entries.mapM fun lower => (linearlize initConfs lower.2).map fun parts => (lower.1, parts)

/-! ## `toTimedMooreMachine` -/

/-- The order of the pairs of an address and a tuple. -/
def tupleOrder (addr : Ptr ↪ ℕ) : Ptr × DBM.Tuple ↪ ℕ ×ₗ (List Bounds ×ₗ Bounds) where
  toFun p := toLex (addr p.1, toLex p.2)
  inj' := by
    rintro ⟨p, t⟩ ⟨q, u⟩ h
    obtain ⟨h₁, h₂⟩ := Prod.mk.inj (toLex.injective h)
    exact Prod.ext (addr.injective h₁) (toLex.injective h₂)

/-- The pairs of an address and a tuple for the configurations. -/
def tuples (s : List (Conf n)) : List (Ptr × DBM.Tuple) := s.map fun p => (p.1, p.2.toTuple)

/-- The key of a new state. -/
def stateKey (addr : Ptr ↪ ℕ) (s : List (Conf n)) : List (Ptr × DBM.Tuple) :=
  Sorting.sortBy (tupleOrder addr) (tuples s)

/-- The key that a part is looked up by. -/
def lookupKey (addr : Ptr ↪ ℕ) (s : List (Conf n)) : List (Ptr × DBM.Tuple) :=
  Sorting.unique (Sorting.sortBy (tupleOrder addr) (tuples s))

end

/-- The builder of `toTimedMooreMachine`. -/
abbrev DRTABuilder (n : ℕ) := SubsetBuilder DRTAState (Conf n) (List (Ptr × DBM.Tuple))

section
variable (addr : Ptr ↪ ℕ) (order : Ptr → UInt8 → ℕ) (N : ℕ) {n : ℕ}
  (A : AutomatonWithCounter TATransition)

/-- `addNewState` of `toTimedMooreMachine` -/
def addNewDRTAState (s : List (Conf n)) (st : DRTABuilder n × List Ptr) :
    Ptr × DRTABuilder n × List Ptr :=
  SubsetBuilder.addNewState (fun m => { isMatch := m, nextMap := fun _ => none }) N
    (fun p => A.isMatch p.1) (fun p => A.counter p.1) (stateKey addr s) s st

/-- Write the vector of a letter of a state. -/
def setNextDRTA (b : DRTABuilder n) (s : Ptr) (a : UInt8) (es : List DRTATransition) :
    DRTABuilder n :=
  let cell := b.heap.cell s
  let cell := { cell with nextMap := Function.update cell.nextMap a (some es) }
  { b with heap := b.heap.write s cell }

/-- `s->nextMap[a].push_back({bound, p})` -/
def pushNextDRTA (b : DRTABuilder n) (s : Ptr) (a : UInt8) (bound : Cut) (p : Ptr) :
    DRTABuilder n :=
  setNextDRTA b s a ((((b.heap.cell s).nextMap a).getD []) ++ [⟨bound, p⟩])

/-- The body of the loop over the parts of a letter. -/
def addPart (s : Ptr) (a : UInt8) (st : DRTABuilder n × List Ptr) (targetPair : Part n) :
    DRTABuilder n × List Ptr :=
  match st.1.toNewState (lookupKey addr targetPair.1) with
  | none =>
    let (p, b, currStates) := addNewDRTAState addr N A targetPair.1 st
    (pushNextDRTA b s a targetPair.2 p, currStates)
  | some p => (pushNextDRTA st.1 s a targetPair.2 p, st.2)

/-- The body of the loop over the letters; `reserve` makes the vector. -/
def addParts (s : Ptr) (st : DRTABuilder n × List Ptr) (nextPair : UInt8 × List (Part n)) :
    DRTABuilder n × List Ptr :=
  let b := setNextDRTA st.1 s nextPair.1 (((st.1.heap.cell s).nextMap nextPair.1).getD [])
  nextPair.2.foldl (addPart addr N A s nextPair.1) (b, st.2)

/-- The initial states with the zero zone. -/
def initConfs (n : ℕ) (M : Bounds) : List (Conf n) :=
  A.initialStates.map fun s => (s, { DBM.zero n with M := M })

/-- The entries of an unordered map from letters, in the order of the iteration. -/
def iterate {β : Type} (order : UInt8 → ℕ) (m : List (UInt8 × β)) : List (UInt8 × β) :=
  m.insertionSort fun x y => order x.1 ≤ order y.1

/-- The body of the loop over the states of a round. -/
def addTimedTransitions (M : Bounds) (s : Ptr) (st : DRTABuilder n × List Ptr) :
    Option (DRTABuilder n × List Ptr) :=
  let nexts := constructNexts A (st.1.toOldStates s)
  (linearlizeNexts (initConfs A n M) nexts).map fun nextLineared =>
    (iterate (order s) nextLineared).foldl (addParts addr N A s) st

/-- The start of the worklist loop, with the initial state. -/
def drtaStart (M : Bounds) : DRTABuilder n × List Ptr :=
  SubsetBuilder.setInitial (addNewDRTAState addr N A (initConfs A n M)
    (SubsetBuilder.empty fun m => ⟨m, fun _ => none⟩, []))

/-- `toTimedMooreMachine`, for `n` clocks; `addr` is the order of the addresses, and
    `order` that of the letters of each state. -/
def toTimedMooreMachine (n : ℕ) (M : Bounds) (fuel : ℕ) :
    Option (MooreMachine N (UInt8 × ℚ) DRTAState) :=
  (Worklist.run (addTimedTransitions addr order N A (n := n) M) fuel (drtaStart addr N A M)).map
    (SubsetBuilder.toMachine N)

end

end MooreFilter

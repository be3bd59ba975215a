/-
  Difference bound matrices (`dbm.hh`).

  A `Bounds` is a pair of a `double` and a flag; the entries of the matrices are
  finite, or the pair of infinity and `false`, so they are the bounds of the
  library.  `DBM n` is a matrix over `n` clocks, with row and column `0` for the
  reference point.

  * `row` is the index of a clock: an 8-bit number is incremented, and the value
    `-1` (`255`) for the reference point wraps around to `0`;
  * `close1` works in place, row by row; `tighten`, `reset`, `elapse`, `canonize`
    and `isSatisfiable` are the methods; `abstractize`, `operator&=` (`inter`) and
    `cutVars` are not called;
  * `findDuration` adds a last index for the time before the delay and reads off
    the bounds between it and the reference point.
-/
import MooreFilter.Lib.Difference
import MooreFilter.Automata

namespace MooreFilter

/-- The reference point has an index: `0`. -/
instance (priority := 1100) neZero_succ (n : ℕ) : NeZero (n + 1) := ⟨n.succ_ne_zero⟩

/-- `Bounds` -/
abbrev Bounds := Bound ℚ

/-- The two components of a bound. -/
def Bounds.toPair : Bounds → Double × Bool
  | .fin c s => (((c : ℚ) : WithTop ℚ), s)
  | .inf => ((⊤ : WithTop ℚ), false)

/-- `DBM`, for `n` clocks. -/
structure DBM (n : ℕ) where
  value : Fin (n + 1) → Fin (n + 1) → Bounds
  M : Bounds

/-- `DBM::Tuple` -/
abbrev DBM.Tuple := List Bounds × Bounds

/-- `x++` on a clock variable: the row and column of the clock.  For a clock without a row
    the source writes outside the matrix, and this index is of no meaning. -/
def row (n : ℕ) (x : ClockVariables) : Fin (n + 1) := Fin.ofNat (n + 1) (x + 1).toNat

namespace DBM
variable {n : ℕ}

/-- The entries of the matrix `f`, column by column. -/
def data (f : Fin (n + 1) → Fin (n + 1) → Bounds) : List Bounds :=
  (List.finRange (n + 1)).flatMap fun j => (List.finRange (n + 1)).map fun i => f i j

/-- `DBM::zero` -/
def zero (n : ℕ) : DBM n := { value := fun _ _ => .fin 0 true, M := .fin 0 false }

/-- `DBM::toTuple`, without the entry `(0, 0)`. -/
def toTuple (D : DBM n) : Tuple := ((data D.value).tail, D.M)

/-- One row of `close1`. -/
def closeRow (x : Fin (n + 1)) (D : DBM n) (i : Fin (n + 1)) : DBM n :=
  { D with
    value := Function.update D.value i fun j => min (D.value i j) (D.value x j + D.value i x) }

/-- `DBM::close1` -/
def close1 (x : Fin (n + 1)) (D : DBM n) : DBM n := (List.finRange (n + 1)).foldl (closeRow x) D

/-- `value(x, y) = b` -/
def set (D : DBM n) (x y : Fin (n + 1)) (b : Bounds) : DBM n :=
  { D with value := fun i j => if i = x ∧ j = y then b else D.value i j }

/-- `DBM::tighten` -/
def tighten (D : DBM n) (x y : ClockVariables) (c : Bounds) : DBM n :=
  close1 (row n y) (close1 (row n x)
    (D.set (row n x) (row n y) (min (D.value (row n x) (row n y)) c)))

/-- `DBM::reset` -/
def reset (D : DBM n) (x : ClockVariables) : DBM n :=
  let x := row n x
  let D := (D.set 0 x (.fin 0 true)).set x 0 (.fin 0 true)
  let D := { D with value := fun i j => if i ≠ 0 ∧ j = x then D.value i 0 else D.value i j }
  { D with value := fun i j => if i = x ∧ j ≠ 0 then D.value 0 j else D.value i j }

/-- `DBM::elapse` -/
def elapse (D : DBM n) : DBM n :=
  let D := { D with value := fun i j => if j = 0 then .inf else D.value i j }
  { D with value := fun i j => if i = 0 then (D.value i j).strict else D.value i j }

/-- `DBM::canonize`; the index is converted to an 8-bit number. -/
def canonize (D : DBM n) : DBM n :=
  (List.range (n + 1)).foldl
    (fun D k => close1 (Fin.ofNat (n + 1) (UInt8.ofNat k).toNat) D) D

/-- `DBM::isSatisfiable`: the answer, and the matrix after `canonize`. -/
def isSatisfiable (D : DBM n) : Bool × DBM n :=
  let D := D.canonize
  (decide (∀ i j, Bound.fin 0 true ≤ D.value i j + D.value j i), D)

/-- `DBM::abstractize` -/
def abstractize (D : DBM n) : DBM n :=
  { D with value := fun i j =>
      match D.M with
      | .inf => D.value i j
      | .fin m _ =>
        if D.value i j > .fin m true then .inf
        else if D.value i j < .fin (-m) false then .fin (-m) false
        else D.value i j }

/-- `DBM::operator==`, which does not compare the entries `(0, 0)`. -/
def beq (D z : DBM n) : Bool :=
  decide (∀ i j, ¬ (i = 0 ∧ j = 0) → D.value i j = z.value i j)

/-- `DBM::operator&=` -/
def inter (D z : DBM n) : DBM n :=
  canonize { D with value := fun i j => min (D.value i j) (z.value i j) }

/-- The row that `cutVars` copies to the row `i`: the reference point stays, and the rows
    of the clocks are those from `fromVar` on. -/
def cutIndex (n fromVar : ℕ) {k : ℕ} (i : Fin (k + 1)) : Fin (n + 1) :=
  if i = 0 then 0 else Fin.ofNat (n + 1) (fromVar + i.val)

/-- `DBM::cutVars`, for clocks in range. -/
def cutVars (D : DBM n) (fromVar toVar : ℕ) : DBM (toVar - fromVar + 1) where
  value i j :=
    if i = 0 ∧ j = 0 then .fin 0 true else D.value (cutIndex n fromVar i) (cutIndex n fromVar j)
  M := D.M

/-- The matrix `valueT` of `findDuration` before the intersection: the index
    `n + 1` is a copy of the reference point, and time elapses. -/
def withDuration (D : DBM n) : DBM (n + 1) :=
  let old : Fin (n + 2) → Fin (n + 1) := Fin.lastCases 0 id
  let v : DBM (n + 1) :=
    { value := fun i j =>
        if i = Fin.last (n + 1) ∧ j = Fin.last (n + 1) then .fin 0 true
        else D.value (old i) (old j)
      M := .fin 0 false }
  (v.set (Fin.last (n + 1)) 0 .inf).elapse

/-- The matrix `x` of `findDuration`: the constraints `z`, and a positive delay. -/
def durationConstraint (z : DBM n) : Fin (n + 2) → Fin (n + 2) → Bounds := fun i j =>
  if i = 0 ∧ j = Fin.last (n + 1) then .fin 0 false
  else Fin.lastCases (Fin.lastCases (.fin 0 true) (fun _ => .inf) j)
    (fun i => Fin.lastCases .inf (fun j => z.value i j) j) i

/-- `DBM::findDuration`: the bounds on `-t` and on `t`, for the delays `t`. -/
def findDuration (D z : DBM n) : Bounds × Bounds :=
  let v := D.withDuration
  let v := { v with value := fun i j => min (v.value i j) (durationConstraint z i j) }
  let v := v.canonize
  (v.value 0 (Fin.last (n + 1)), v.value (Fin.last (n + 1)) 0)

/-- The `tighten` for one constraint of a guard.  The constant is negated as an `int`,
    where the least one overflows to itself. -/
def tightenBy (D : DBM n) (delta : Constraint) : DBM n :=
  match delta.odr with
  | .lt => D.tighten delta.x 255 (.fin delta.c.toInt false)
  | .le => D.tighten delta.x 255 (.fin delta.c.toInt true)
  | .gt => D.tighten 255 delta.x (.fin (-delta.c).toInt false)
  | .ge => D.tighten 255 delta.x (.fin (-delta.c).toInt true)

end DBM

/-- `constraintsToDBM`, for a matrix over `n` clocks. -/
def constraintsToDBM (n : ℕ) (guard : List Constraint) : DBM n :=
  let D : DBM n :=
    { value := fun i j => if i = 0 then .fin 0 true else if i = j then .fin 0 true else .inf
      M := .fin 0 false }
  guard.foldl DBM.tightenBy D

end MooreFilter

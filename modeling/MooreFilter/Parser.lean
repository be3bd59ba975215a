/-
  The attribute syntax (`timed_automaton_parser.hh`).

  A guard is written `{x0 < 1, x2 >= 5}` and a list of clocks to reset `{0, 2}`.
  Writers and readers are overloads of `<<` and `>>`:

  * `writeVector` is the writer for vectors of any type, which writes the elements
    with their own `<<`; for a clock, an 8-bit number, this is the character with
    that code (`writeChar`);
  * `readVector` is the reader for vectors; it is written twice in the source, for
    clocks and for any type, with the same loop around another element;
  * `lexicalCast` and `readAttribute` are how the graph reader calls the readers.

  A reader that fails leaves the stream in a failed state, in which nothing more
  is read; so it has no result here.
-/
import MooreFilter.Automata
import MooreFilter.Lib.Istream

namespace MooreFilter

open Text

/-! ## Writing -/

/-- `os << odr` -/
def Constraint.Order.write : Constraint.Order → List Char
  | .lt => ['<']
  | .le => ['<', '=']
  | .ge => ['>', '=']
  | .gt => ['>']

/-- `os << p` for a constraint. -/
def Constraint.write (p : Constraint) : List Char :=
  ['x'] ++ writeInt p.x.toNat ++ [' '] ++ p.odr.write ++ [' '] ++ writeInt p.c.toInt

/-- `os << x` for an `unsigned char`: the character itself. -/
def writeChar (x : UInt8) : List Char := [Char.ofNat x.toNat]

/-- The loop's body of `writeVector`: `first` and the text. -/
def writeItem {α : Type} (write : α → List Char) (st : Bool × List Char) (g : α) :
    Bool × List Char :=
  let (first, os) := st
  (false, (if first then os else os ++ [',', ' ']) ++ write g)

/-- `os << guard` for a vector. -/
def writeVector {α : Type} (write : α → List Char) (guard : List α) : List Char :=
  (guard.foldl (writeItem write) (true, ['{'])).2 ++ ['}']

/-- `os << guard` -/
def writeGuard (guard : List Constraint) : List Char := writeVector Constraint.write guard

/-- `os << resetVars`: the elements are of the type `unsigned char`. -/
def writeResetVars (resetVars : List ClockVariables) : List Char :=
  writeVector writeChar resetVars

/-! ## Reading -/

/-- `p.x = x` for an `int`: the low 8 bits. -/
def toClock (x : ℤ) : ClockVariables := UInt8.ofInt x

/-- The order with the characters `odr`; after `>=` and `<=` a space is read. -/
def readOrder (odr : Char × Char) : Istream Constraint.Order :=
  match odr with
  | ('>', '=') => do expect ' '; return .ge
  | ('>', ' ') => return .gt
  | ('<', '=') => do expect ' '; return .le
  | ('<', ' ') => return .lt
  | _ => failure

/-- `is >> p` for a constraint. -/
def readConstraint : Istream Constraint := do
  expect 'x'
  let x ← readInt
  expect ' '
  let odr₀ ← getc
  let odr₁ ← getc
  let odr ← readOrder (odr₀, odr₁)
  let c ← readInt
  return { x := toClock x, odr := odr, c := Int32.ofInt c }

/-- `int x; is >> x; ClockVariables(x)` -/
def readClock : Istream ClockVariables := do
  let x ← readInt
  return toClock x

/-- The loop of `readVector`, for at most `fuel` elements. -/
def readItems {α : Type} (read : Istream α) (fuel : ℕ) : Istream (List α) :=
  match fuel with
  | 0 => failure
  | fuel + 1 => do
    let x ← read
    let c ← getc
    if c = '}' then return [x]
    else if c = ',' then
      expect ' '
      let xs ← readItems read fuel
      return x :: xs
    else failure

/-- `is >> resetVars` for a vector.  Each round reads a character at least, so
    there are at most as many as the text has. -/
def readVector {α : Type} (read : Istream α) : Istream (List α) := do
  expect '{'
  fun is => readItems read is.length is

/-- `is >> guard` -/
def readGuard : Istream (List Constraint) := readVector readConstraint

/-- `is >> resetVars` -/
def readResetVars : Istream (List ClockVariables) := readVector readClock

/-! ## Attributes -/

/-- `lexical_cast`: the value of a text that is read to its end. -/
def lexicalCast {α : Type} (read : Istream α) (text : List Char) : Option α :=
  match read text with
  | some (x, []) => some x
  | _ => none

/-- The vector of an attribute: an empty text, or no attribute, is an empty one. -/
def readAttribute {α : Type} (read : Istream (List α)) (text : List Char) : Option (List α) :=
  if text = [] then some [] else lexicalCast read text

end MooreFilter

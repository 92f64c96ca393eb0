import RadixText.FloatText.DigitCells
import RadixText.FloatText.Layout
import RadixText.Pen

/-!
# Texts in cells

A float text need not take its digits out of their row. The search for them
walks over the cells and finds the place where they stand. A pen writes the
text from its last character on.
-/

namespace RadixText

structure CellText where
  radix : Radix
  form : Notation
  cells : DigitCells
  /-- The position of the first digit. -/
  first : Nat
  /-- The number of digits. -/
  count : Nat

/-- The text with its digits taken out of the cells. -/
def CellText.text (t : CellText) : FloatText := ⟨t.radix, t.form, t.cells.slice t.first t.count⟩

namespace DigitCells

open Expansion (maxDigits)

/-- The count of some digits from a position on without zeros at their end. -/
def trimmedCount (b : DigitCells) (pos : Nat) : Nat → Except Fault Nat
  | 0 => .ok 0
  | count + 1 => do
      if (← b.read (pos + count)) = 0 then trimmedCount b pos count else return count + 1

/-- Moves back from a place behind the point over digits other than zero. -/
def moveBack (b : DigitCells) : Nat → Except Fault Nat
  | 0 => .ok 0
  | place + 1 => do
      if (← b.read (middle + place)) = 0 then return place + 1 else moveBack b place

/-- Moves on from a place behind the point over at most some zeros. -/
def skipZeros (b : DigitCells) (place : Nat) : Nat → Except Fault Nat
  | 0 => .ok place
  | more + 1 => do
      if (← b.read (middle + place)) = 0 then skipZeros b (place + 1) more else return place

namespace Row

variable (row : Row) (r : Radix)

/-- The place of the text in fixed notation. -/
def placeFixed : Except Fault CellText := do
  let whole := middle - row.first
  let fraction ← row.cells.trimmedCount middle (min row.count (maxDigits - whole))
  return ⟨r, .fixed whole, row.cells, row.first, whole + fraction⟩

/-- The place of the text in scientific notation from a position on. -/
def placeScientific (first : Nat) : Except Fault CellText := do
  let last := min (middle + row.count) (first + maxDigits + 1)
  let further ← row.cells.trimmedCount (first + 1) (last - (first + 1))
  return ⟨r, .scientific (middle - first - 1), row.cells, first, further + 1⟩

/-- The place of the text of a tiny number of some estimated logarithm. At least
one digit must stand behind the point. -/
def placeTiny (log : Int) : Except Fault CellText := do
  Precondition.fractionDigits.require (row.count ≠ 0)
  let start := max (middle : Int) (min (middle - log - 1) (middle + row.count - 1))
  let place ← row.cells.moveBack (start.toNat - middle)
  let place ← row.cells.skipZeros place (row.count - 1 - place)
  row.placeScientific r (middle + place)

/-- The place of the text of a number of some size and estimated logarithm. -/
def place (size : ExtFloat.Size) (log : Int) : Except Fault CellText :=
  match size with
  | .tiny => row.placeTiny r log
  | .moderate => row.placeFixed r
  | .huge => row.placeScientific r row.first

end Row

/-- The text of a float in its neighbourhood, with its digits left in the
cells. -/
def placeEstimate (b : DigitCells) (x : ExtFloat) (hood : Neighbourhood) (r : Radix) (log : Int) :
    Except Fault CellText := do
  let row ← b.ofExtFloat x hood r
  row.place r x.size log

/-- The text of a float in its neighbourhood, from cells that may hold anything
before. -/
def ofEstimate (b : DigitCells) (x : ExtFloat) (hood : Neighbourhood) (r : Radix) (log : Int) :
    Except Fault FloatText :=
  (b.placeEstimate x hood r log).map CellText.text

end DigitCells

namespace CellText

variable (t : CellText)

/-- Writes some digits of the text behind as many others, the last one first. -/
def writeDigits (c : LetterCase) (others : Nat) : Nat → Pen → Except Fault Pen
  | 0, pen => .ok pen
  | count + 1, pen => do
      let digit ← t.cells.read (t.first + others + count)
      let ch ← checkedDigitChar c digit
      writeDigits c others count ((pen.noteRead [t.first + others + count]).put ch)

/-- Writes digits, sign and mark of the exponent in scientific notation. -/
def writeExponent (c : LetterCase) (pen : Pen) : Pen :=
  match t.form with
  | .fixed _ => pen
  | .scientific e =>
      let pen := Numeral.writeWord t.radix c (BitVec.ofNat 32 e.natAbs) pen
      let pen := if e < 0 then pen.put '-' else pen
      pen.put (FloatText.exponentMark t.radix c)

/-- Writes the digits behind the point, a zero if there are none. -/
def writeFraction (c : LetterCase) (pen : Pen) : Except Fault Pen :=
  if t.text.wholeCount < t.count then
    t.writeDigits c t.text.wholeCount (t.count - t.text.wholeCount) pen
  else .ok (pen.put '0')

/-- Writes the text in front of the pen. -/
def write (c : LetterCase) (pen : Pen) : Except Fault Pen := do
  let pen ← t.writeFraction c (t.writeExponent c pen)
  t.writeDigits c 0 t.text.wholeCount (pen.put '.')

end CellText

end RadixText

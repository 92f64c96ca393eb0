import Mathlib.Logic.Function.Basic
import RadixText.Expansion.Generate

/-!
# Digits in a row of cells

All digits of a float stand in one row of cells. Those in front of the point
are written from the middle down, those behind it from the middle up. Positions
are unsigned, so that none is in front of the first one.
-/

namespace RadixText

/-- The number of cells in the row. -/
def DigitCells.size : Nat := 2 * Expansion.places

structure DigitCells where
  cells : Fin DigitCells.size → Nat

namespace DigitCells

open Expansion

/-- The position of the first digit behind the point. -/
def middle : Nat := places

/-- The position below another. Below the first one it wraps around. -/
def before (pos : Nat) : Nat := if pos = 0 then UInt32.size - 1 else pos - 1

def read (b : DigitCells) (pos : Nat) : Except Fault Nat :=
  if h : pos < size then .ok (b.cells ⟨pos, h⟩) else .error .digitRoom

def write (b : DigitCells) (pos digit : Nat) : Except Fault DigitCells :=
  if h : pos < size then .ok ⟨Function.update b.cells ⟨pos, h⟩ digit⟩ else .error .digitRoom

/-- What a cell holds, and zero for no cell. -/
def digitAt (b : DigitCells) (pos : Nat) : Nat :=
  if h : pos < size then b.cells ⟨pos, h⟩ else 0

/-- The digits in some cells from a position on. -/
def slice (b : DigitCells) (pos count : Nat) : List Nat := (List.range' pos count).map b.digitAt

/-- Raises the last of some digits behind the point. Digits that would reach
the radix are dropped, and without any digit left the whole number is raised. -/
def raiseLast (r : Radix) (b : DigitCells) : Nat → Except Fault (DigitCells × Nat × Bool)
  | 0 => return (b, 0, true)
  | count + 1 => do
      let digit ← b.read (middle + count)
      if digit + 1 < r.val then
        return (← b.write (middle + count) (digit + 1), count + 1, false)
      else raiseLast r b count

/-- Writes the digits of a fraction behind those found before, as long as there
are cells. The result's second part is their count, and the third one tells
whether the whole number in front of them is raised. -/
def fractionDigits (r : Radix) (scale : Nat) (s : Remainder) (b : DigitCells) (count : Nat) :
    Except Fault (DigitCells × Nat × Bool) :=
  if s.isSpent ∨ size ≤ middle + count then .ok (b, count, false)
  else do
    let (digit, s) ← s.next r scale
    let b ← b.write (middle + count) digit
    if ← s.roundsUp scale digit then raiseLast r b (count + 1)
    else fractionDigits r scale s b (count + 1)
termination_by size - (middle + count)

/-- Writes the digits of a word below a position. The result's second part is
the position of the leading one. -/
def wordDigits (r : Radix) (b : DigitCells) (first n : Nat) : Except Fault (DigitCells × Nat) := do
  let b ← b.write (before first) (n % r.val)
  if n / r.val = 0 then return (b, before first)
  else wordDigits r b (before first) (n / r.val)
termination_by n
decreasing_by
  have nonzero : n ≠ 0 := by
    rintro rfl
    exact absurd (Nat.zero_div _) ‹_›
  exact Nat.div_lt_self (Nat.pos_of_ne_zero nonzero) r.one_lt_val

/-- Writes the digits of a whole number below a position. -/
def wholeDigits (r : Radix) : Nat → Bignum → DigitCells → Except Fault (DigitCells × Nat)
  | 0, n, b => do
      let (_, digit) ← n.divMod (UInt32.ofNat r.val)
      return (← b.write (before 0) digit.toNat, before 0)
  | first + 1, n, b => do
      let (quotient, digit) ← n.divMod (UInt32.ofNat r.val)
      let b ← b.write first digit.toNat
      if quotient.size = 0 then return (b, first) else wholeDigits r first quotient b

/-- The longest negligible run that starts with the given one and takes at most
some more digits. -/
def longestRun (r : Radix) (hood : Neighbourhood) (b : DigitCells) : Nat → Run → Except Fault Run
  | 0, run => .ok run
  | more + 1, run => do
      let digit ← b.read (middle - 1 - run.count)
      let extended ← run.extend r digit
      if ← extended.isNegligible hood then longestRun r hood b more extended
      else return run

/-- Writes zeros from a position on. -/
def clear (b : DigitCells) (pos : Nat) : Nat → Except Fault DigitCells
  | 0 => .ok b
  | count + 1 => do
      let b ← b.write pos 0
      clear b (pos + 1) count

/-- Raises the number of some digits from the leading one on. A carry out of
that adds a digit below its position. -/
def raiseLowest (r : Radix) (b : DigitCells) (first : Nat) :
    Nat → Except Fault (DigitCells × Nat)
  | 0 => return (← b.write (before first) 1, before first)
  | count + 1 => do
      let digit ← b.read (first + count)
      if digit + 1 < r.val then return (← b.write (first + count) (digit + 1), first)
      else
        let b ← b.write (first + count) 0
        raiseLowest r b first count

/-- Rounds away the longest negligible run of low digits. -/
def roundWhole (r : Radix) (hood : Neighbourhood) (b : DigitCells) (first : Nat) :
    Except Fault (DigitCells × Nat) := do
  let start : Run := ⟨0, ← Bignum.ofWord 0, ← Bignum.ofWord 1⟩
  let run ← longestRun r hood b (middle - first - 1) start
  if run.count = 0 then return (b, first)
  else
    let digit ← b.read (middle - 1 - run.count)
    let up ← run.roundsUp hood digit
    let b ← b.clear (middle - run.count) run.count
    if up then raiseLowest r b first (middle - run.count - first) else return (b, first)

/-- Digits in cells, with the position of the leading one and the count of those
behind the point. -/
structure Row where
  cells : DigitCells
  first : Nat
  count : Nat

/-- The digits of a float with an exponent from zero down. -/
def ofFractional (b : DigitCells) (x : ExtFloat) (hood : Neighbourhood) (r : Radix) :
    Except Fault Row := do
  let lowest := min x.exp hood.below
  let scale := (-lowest).toNat
  let rest ← Bignum.ofShifted (fractionPart x) (x.exp - lowest).toNat
  let above ← Bignum.ofShifted 1 (hood.above - lowest).toNat
  let below ← Bignum.ofShifted 1 (hood.below - lowest).toNat
  let (b, count, carry) ← fractionDigits r scale ⟨rest, above, below⟩ b 0
  let whole := if carry then wholePart x + 1 else wholePart x
  let (b, first) ← wordDigits r b middle whole.toNat
  return ⟨b, first, count⟩

/-- The digits of a float with a positive exponent. -/
def ofWhole (b : DigitCells) (x : ExtFloat) (hood : Neighbourhood) (r : Radix) :
    Except Fault Row := do
  let (b, first) ← wholeDigits r middle (← Bignum.ofShifted x.frac x.exp.toNat) b
  let (b, first) ← roundWhole r hood b first
  return ⟨b, first, 0⟩

/-- The digits of a float in its neighbourhood. -/
def ofExtFloat (b : DigitCells) (x : ExtFloat) (hood : Neighbourhood) (r : Radix) :
    Except Fault Row := do
  Precondition.nonzero.require (x.frac ≠ 0)
  if x.exp ≤ 0 then b.ofFractional x hood r else b.ofWhole x hood r

end DigitCells

end RadixText

import RadixText.ExtFloat.Magnitude
import RadixText.Expansion.Generate
import RadixText.FloatText.Basic
import RadixText.Trailing

/-!
# Layout of digits

Moderate numbers are laid out in fixed notation with at most 72 digits, all
others in scientific notation with at most 73 from the first significant one
on. Zeros at the end of the fraction are dropped.
-/

namespace RadixText

/-- Digits without zeros at the end. -/
def trimZeros (digits : List Nat) : List Nat := dropTrailing (· == 0) digits

/-- Digits without zeros at the end, but with their first digit. -/
def trimZerosAfterFirst : List Nat → List Nat
  | [] => []
  | d :: ds => d :: trimZeros ds

namespace Expansion

/-- The most digits in fixed notation. Scientific notation has one more. -/
def maxDigits : Nat := 72

/-- Moves back from a place behind the point over digits other than zero. -/
def moveBack (fraction : List Nat) : Nat → Nat
  | 0 => 0
  | place + 1 => if fraction.getD place 0 = 0 then place + 1 else moveBack fraction place

/-- Counts the zeros in front of the first other digit, or of the last digit. -/
def leadingZeros : List Nat → Nat
  | [] => 0
  | [_] => 0
  | d :: ds => if d = 0 then 1 + leadingZeros ds else 0

/-- The place of the first significant digit behind the point. The search
starts where the estimated logarithm puts it. -/
def firstSignificant (fraction : List Nat) (log : Int) : Nat :=
  let start := min (-log - 1).toNat (fraction.length - 1)
  let start := moveBack fraction start
  start + leadingZeros (fraction.drop start)

/-- All digits in front of the point and what fits behind it. -/
def layoutFixed (e : Expansion) (r : Radix) : FloatText :=
  let fraction := trimZeros (e.fraction.take (maxDigits - e.whole.length))
  ⟨r, .fixed e.whole.length, e.whole ++ fraction⟩

/-- Digits from the first place in front of the point on. -/
def layoutHuge (e : Expansion) (r : Radix) : FloatText :=
  ⟨r, .scientific (e.whole.length - 1),
    trimZerosAfterFirst ((e.whole ++ e.fraction).take (maxDigits + 1))⟩

/-- Digits from the first significant one behind the point on. At least one
digit must stand there. -/
def layoutTiny (e : Expansion) (r : Radix) (log : Int) : Except Fault FloatText := do
  Precondition.fractionDigits.require (e.fraction ≠ [])
  let first := firstSignificant e.fraction log
  return ⟨r, .scientific (-first - 1),
    trimZerosAfterFirst ((e.fraction.drop first).take (maxDigits + 1))⟩

/-- The text of the digits of a number of some size and estimated logarithm. -/
def layout (e : Expansion) (r : Radix) (size : ExtFloat.Size) (log : Int) :
    Except Fault FloatText :=
  match size with
  | .tiny => e.layoutTiny r log
  | .moderate => .ok (e.layoutFixed r)
  | .huge => .ok (e.layoutHuge r)

end Expansion

namespace FloatText

/-- The text of a float in its neighbourhood, with an estimate of the
logarithm that matters for tiny floats only. -/
def ofEstimate (x : ExtFloat) (hood : Neighbourhood) (r : Radix) (log : Int) :
    Except Fault FloatText := do
  let e ← Expansion.ofExtFloat x hood r
  e.layout r x.size log

/-- The text of a float in its neighbourhood. -/
def ofExtFloat (x : ExtFloat) (hood : Neighbourhood) (r : Radix) : Except Fault FloatText :=
  ofEstimate x hood r (x.logBelowOne r)

/-- The text of a decoded number among the numbers of its format, with some
way to estimate logarithms. -/
def ofFormatWith (log : Radix → ExtFloat → Int) (f : FloatFormat) (x : ExtFloat) (r : Radix) :
    Except Fault FloatText :=
  ofEstimate x (Neighbourhood.ofFormat f x) r (log r x)

/-- The text of a decoded number among the numbers of its format. -/
def ofFormat (f : FloatFormat) (x : ExtFloat) (r : Radix) : Except Fault FloatText :=
  ofFormatWith ExtFloat.logBelowOne f x r

/-- The text of the magnitude of a finite pattern, with some way to estimate
logarithms. -/
def ofBitsWith (log : Radix → ExtFloat → Int) (f : FloatFormat) (bits : UInt64) (r : Radix) :
    Except Fault FloatText := do
  let x ← ExtFloat.ofBits f bits
  ofFormatWith log f x r

/-- The text of the magnitude of a finite pattern. -/
def ofBits (f : FloatFormat) (bits : UInt64) (r : Radix) : Except Fault FloatText :=
  ofBitsWith ExtFloat.logBelowOne f bits r

end FloatText

end RadixText

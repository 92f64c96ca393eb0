import Mathlib
import RadixText.Buffer.Steps
import RadixText.Reading

/-!
# Values

The rational numbers that floats, patterns, digits and texts denote. They are
what the conversions between them are measured against.
-/

namespace RadixText

/-- The number that an extended float denotes. -/
def ExtFloat.value (x : ExtFloat) : ℚ := x.frac.toNat * 2 ^ x.exp

namespace FloatFormat

variable (f : FloatFormat)

/-- The number of a magnitude's pattern, the pattern read as a number. The
pattern of infinity denotes the number one gap above the largest one. -/
def numberAt (n : Nat) : ℚ :=
  let field := n / 2 ^ f.mantissaBits
  let mantissa := n % 2 ^ f.mantissaBits
  if field = 0 then mantissa * 2 ^ f.lowestExp
  else (2 ^ f.mantissaBits + mantissa : ℕ) * 2 ^ (f.lowestExp + (field - 1 : ℕ))

/-- The number half way between a pattern's and the next one's. -/
def midpointAbove (n : Nat) : ℚ := (f.numberAt n + f.numberAt (n + 1)) / 2

/-- The exponent field of the format has some number of bits. -/
def HasFieldWidth (w : Nat) : Prop := f.maxField = 2 ^ w - 1

end FloatFormat

namespace Neighbourhood

/-- How far digits may stray above the value. -/
def reachAbove (hood : Neighbourhood) : ℚ := 2 ^ hood.above

/-- How far digits may stray below the value. -/
def reachBelow (hood : Neighbourhood) : ℚ := 2 ^ hood.below

end Neighbourhood

/-- The number that digits around a point denote. -/
def Radix.pointValue (r : Radix) (whole fraction : List Nat) : ℚ :=
  r.ofDigits whole + r.ofDigits fraction / r.val ^ fraction.length

/-- The number that an expansion denotes. -/
def Expansion.value (r : Radix) (e : Expansion) : ℚ := r.pointValue e.whole e.fraction

/-- The number that a float text denotes. -/
def FloatText.value (t : FloatText) : ℚ :=
  t.radix.pointValue (t.digits.take t.wholeCount) (t.digits.drop t.wholeCount) *
    t.radix.val ^ t.exponent

/-- The number that a reading denotes, its sign included. -/
def Reading.value (r : Radix) (t : Reading) : ℚ :=
  (if t.negative then -1 else 1) * (r.pointValue t.whole t.fraction * r.val ^ t.exponent)

end RadixText

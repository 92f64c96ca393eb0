import RadixText.Expansion.Fraction
import RadixText.Expansion.Whole
import RadixText.Numeral.Plain

/-!
# Digits of an extended float

A float with a negative or zero exponent has a whole part of one word and a
fraction. With a positive exponent it is a whole number.
-/

namespace RadixText.Expansion

/-- The part of a float in front of the point, for exponents from zero down. -/
def wholePart (x : ExtFloat) : UInt64 :=
  if -64 < x.exp then x.frac >>> UInt64.ofNat (-x.exp).toNat else 0

/-- The part of a float behind the point, in units of its last bit. -/
def fractionPart (x : ExtFloat) : UInt64 :=
  if -64 < x.exp then x.frac &&& ((1 <<< UInt64.ofNat (-x.exp).toNat) - 1) else x.frac

/-- The digits of a float with an exponent from zero down. -/
def ofFractional (x : ExtFloat) (hood : Neighbourhood) (r : Radix) : Except Fault Expansion := do
  let lowest := min x.exp hood.below
  let scale := (-lowest).toNat
  let rest ← Bignum.ofShifted (fractionPart x) (x.exp - lowest).toNat
  let above ← Bignum.ofShifted 1 (hood.above - lowest).toNat
  let below ← Bignum.ofShifted 1 (hood.below - lowest).toNat
  let (reversed, carry) ← fractionDigits r scale places ⟨rest, above, below⟩ []
  let whole := if carry then wholePart x + 1 else wholePart x
  return ⟨r.digits whole.toNat, reversed.reverse⟩

/-- The digits of a float with a positive exponent. -/
def ofWhole (x : ExtFloat) (hood : Neighbourhood) (r : Radix) : Except Fault Expansion := do
  let digits ← wholeDigits r places (← Bignum.ofShifted x.frac x.exp.toNat) []
  let rounded ← roundWhole r hood digits
  return ⟨rounded, []⟩

/-- The digits of a float in its neighbourhood. -/
def ofExtFloat (x : ExtFloat) (hood : Neighbourhood) (r : Radix) : Except Fault Expansion := do
  Precondition.nonzero.require (x.frac ≠ 0)
  if x.exp ≤ 0 then ofFractional x hood r else ofWhole x hood r

end RadixText.Expansion

import RadixText.Fault

/-!
# Digit expansions

An expansion holds the digits of a number on both sides of the point. Each
side has 1100 places.
-/

namespace RadixText

structure Expansion where
  /-- The digits in front of the point, the leading one first. -/
  whole : List Nat
  /-- The digits behind the point. -/
  fraction : List Nat
  deriving DecidableEq

namespace Expansion

/-- The number of places on each side of the point. -/
def places : Nat := 1100

end Expansion

end RadixText

import RadixText.ExtFloat.Basic
import RadixText.FloatFormat

/-!
# Neighbourhoods

A neighbourhood tells how far the digits of a value may stray from it: by less
than a power of two on either side. Inside a format it reaches half way to the
next number, and half as far down where the number below is twice as close.
-/

namespace RadixText

structure Neighbourhood where
  /-- The binary exponent of the reach above. -/
  above : Int
  /-- The reach below is half of the reach above. -/
  closerBelow : Bool
  deriving DecidableEq

namespace Neighbourhood

/-- The binary exponent of the reach below. -/
def below (hood : Neighbourhood) : Int :=
  if hood.closerBelow then hood.above - 1 else hood.above

/-- The neighbourhood of a decoded number in its format. -/
def ofFormat (f : FloatFormat) (x : ExtFloat) : Neighbourhood :=
  ⟨x.exp - 1, decide (x.frac = f.hiddenBit ∧ f.lowestExp < x.exp)⟩

end Neighbourhood

end RadixText

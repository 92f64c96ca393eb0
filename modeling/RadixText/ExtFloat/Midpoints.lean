import RadixText.ExtFloat.Basic
import RadixText.FloatFormat

/-!
# Midpoints

The halfway points between a float and its two neighbours in a format with a
given mantissa. The neighbour below the lowest fraction of a binade is twice
as close.
-/

namespace RadixText.ExtFloat

/-- The lower and the upper midpoint. Both carry the exponent of the upper
one, which is normalized. -/
def midpoints (x : ExtFloat) (mantissaBits : Nat) : Except Fault (ExtFloat × ExtFloat) := do
  Precondition.nonzero.require (x.frac ≠ 0)
  let upper := normalize ⟨(x.frac <<< 1) + 1, x.exp - 1⟩
  let shift : Nat := if x.frac = 1 <<< UInt64.ofNat mantissaBits then 2 else 1
  let lower : UInt64 := (x.frac <<< UInt64.ofNat shift) - 1
  return (⟨lower <<< UInt64.ofInt (x.exp - shift - upper.exp), upper.exp⟩, upper)

end RadixText.ExtFloat

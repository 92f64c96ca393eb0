import RadixText.ExtFloat.Encoding
import RadixText.Radix.Basic

/-!
# Orders of magnitude

Whether a float is written in fixed or in scientific notation depends on the
number nearest to it in the 64-bit format. The position of its leading digit
is estimated from its logarithm.
-/

namespace RadixText.ExtFloat

/-- A float with at most the given number of bits, nearest to a given one, a
tie going to the even fraction. -/
def round (bits : Nat) (x : ExtFloat) : ExtFloat :=
  let y := x.normalize
  let (kept, rest) := cut y.frac bits
  ⟨if roundsUp kept rest then kept + 1 else kept, y.exp + 64 - bits⟩

/-- The pattern in the 64-bit format of a float whose fraction is first
rounded to the bits of a normal number. -/
def pattern64 (x : ExtFloat) : UInt64 := toBits FloatFormat.binary64 (x.round 53)

/-- The pattern of the number nearest to the fifth negative power of ten. -/
def tinyPattern : UInt64 := 0x3ee4f8b588e368f1

/-- The pattern of the ninth power of ten. -/
def hugePattern : UInt64 := 0x41cdcd6500000000

inductive Size where
  /-- Not above the fifth negative power of ten. -/
  | tiny
  | moderate
  /-- Not below the ninth power of ten. -/
  | huge
  deriving DecidableEq

def size (x : ExtFloat) : Size :=
  if x.pattern64 ≤ tinyPattern then .tiny
  else if x.pattern64 < hugePattern then .moderate
  else .huge

/-- How often a number is multiplied by a factor until it reaches a goal. -/
def stepsTo (factor goal : Nat) : Nat → Nat → Nat
  | 0, _ => 0
  | fuel + 1, n => if goal ≤ n then 0 else 1 + stepsTo factor goal fuel (n * factor)

/-- The rounded down logarithm of a float below one. A float that the 64-bit
format cannot tell from zero counts as just below one. -/
def logBelowOne (r : Radix) (x : ExtFloat) : Int :=
  if x.pattern64 = 0 then -1
  else -(stepsTo r.val (1 <<< (-x.exp).toNat) 1200 x.frac.toNat : Nat)

end RadixText.ExtFloat

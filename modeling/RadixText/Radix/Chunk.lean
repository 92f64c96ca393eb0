import RadixText.Radix.Basic
import RadixText.Word.Halves

/-!
# Chunks of digits

The chunk of a radix is its largest power that fits in a word. Division by it
cuts off as many digits at once as its exponent says.
-/

namespace RadixText

structure Chunk where
  divisor : UInt64
  /-- The exponent of the power. -/
  step : Nat
  /-- The count of zero bits above the divisor's top bit. -/
  leadingZeros : Nat
  deriving DecidableEq

namespace Chunk

/-- Multiplies by the radix while the product fits in a word. -/
def grow (radix : UInt64) : Nat → UInt64 → Nat → UInt64 × Nat
  | 0, power, step => (power, step)
  | fuel + 1, power, step =>
      if power ≤ Word.allOnes / radix then grow radix fuel (power * radix) (step + 1)
      else (power, step)

/-- Counts the zero bits above the top bit, from a first count on. -/
def countZeros (word : UInt64) : Nat → Nat → Nat
  | 0, zeros => zeros
  | fuel + 1, zeros =>
      if word &&& (Word.topBit >>> UInt64.ofNat zeros) = 0 then countZeros word fuel (zeros + 1)
      else zeros

end Chunk

/-- The largest power of the radix in a word. -/
def Radix.chunk (r : Radix) : Chunk :=
  let radix := UInt64.ofNat r.val
  let (power, step) := Chunk.grow radix 64 radix 1
  ⟨power, step, Chunk.countZeros power 64 0⟩

end RadixText

import RadixText.ExtFloat.Basic
import RadixText.FloatFormat
import RadixText.Radix.Basic

/-!
# Scaling by a radix

A float is multiplied by a radix exactly where the product fits in a word, and
otherwise after its fraction was shifted down by the radix's bit length. A
power of two only raises the exponent.
-/

namespace RadixText

/-- How a radix multiplies a fraction. -/
structure Scaling where
  /-- Fractions below it are multiplied without loss. Zero for powers of two. -/
  limit : UInt64
  /-- What is added to the exponent otherwise. -/
  shift : Nat
  deriving DecidableEq

/-- Scaling by a number up to 36. Zero and one have none. -/
def Scaling.of (n : Nat) : Scaling :=
  if n < Radix.smallest ∨ Radix.largest < n then ⟨0, 0⟩
  else if 1 <<< n.log2 = n then ⟨0, n.log2⟩
  else ⟨Word.allOnes / UInt64.ofNat n + 1, n.log2 + 1⟩

namespace ExtFloat

/-- Product with a radix, rounded down. -/
def scale (x : ExtFloat) (n : Nat) : Except Fault ExtFloat := do
  Precondition.radixInRange.require (Radix.smallest ≤ n ∧ n ≤ Radix.largest)
  let s := Scaling.of n
  if s.limit = 0 then return ⟨x.frac, x.exp + s.shift⟩
  else if x.frac < s.limit then return ⟨x.frac * UInt64.ofNat n, x.exp⟩
  else return ⟨(x.frac >>> UInt64.ofNat s.shift) * UInt64.ofNat n, x.exp + s.shift⟩

/-- Product with a radix as long as the exponent lies in the range of the
64-bit format. From there on the float stays as it is. -/
def scaleInRange (x : ExtFloat) (n : Nat) : Except Fault ExtFloat :=
  if x.exp < FloatFormat.binary64.maxExp then x.scale n else .ok x

/-- Product with some radixes, one after the other. -/
def scaleAll (x : ExtFloat) (factors : List Nat) : Except Fault ExtFloat :=
  factors.foldlM scaleInRange x

end ExtFloat

end RadixText

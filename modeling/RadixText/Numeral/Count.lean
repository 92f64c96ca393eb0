import RadixText.Fault

/-!
# Digit counts

How many digits the largest number of a given width has in a radix, found by
long division of its four 32-bit limbs. The radix may be any number from 2 on.
-/

namespace RadixText.Numeral

/-- A limb with the given number of low bits set. -/
def onesLimb (bits : Nat) : UInt32 :=
  if 32 ≤ bits then 0xffffffff else (1 <<< UInt32.ofNat bits) - 1

/-- The four limbs of the largest number of a width, the top one first. -/
def onesLimbs (bits : Nat) : List UInt32 :=
  [onesLimb (bits - 96), onesLimb (bits - 64), onesLimb (bits - 32), onesLimb bits]

/-- Divides limbs from the top one on, starting with a remainder. -/
def divideLimbs (radix : UInt32) : UInt64 → List UInt32 → List UInt32
  | _, [] => []
  | rest, limb :: limbs =>
      let dividend := (rest <<< 32) ||| limb.toUInt64
      (dividend / radix.toUInt64).toUInt32 ::
        divideLimbs radix (dividend % radix.toUInt64) limbs

/-- How many divisions empty the limbs, counting at least one. -/
def countDivisions (radix : UInt32) : Nat → List UInt32 → Nat
  | 0, _ => 0
  | fuel + 1, limbs =>
      let quotient := divideLimbs radix 0 limbs
      if quotient.all (· == 0) then 1 else 1 + countDivisions radix fuel quotient

/-- The digit count of the largest number of a width up to 128 bits. -/
def maxDigits (bits : Nat) (radix : UInt32) : Except Fault Nat := do
  Precondition.widthInRange.require (bits ≤ 128)
  Precondition.radixInRange.require (2 ≤ radix)
  return countDivisions radix 128 (onesLimbs bits)

end RadixText.Numeral

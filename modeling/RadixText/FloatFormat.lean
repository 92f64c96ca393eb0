import RadixText.Word.Halves

/-!
# Binary float formats

A format is given by the bits of its mantissa and the largest value of its
exponent field. A pattern is a sign bit above the exponent field above the
mantissa; the largest field value marks infinity and the patterns of no
number.
-/

namespace RadixText

structure FloatFormat where
  mantissaBits : Nat
  maxField : Nat
  deriving DecidableEq

namespace FloatFormat

def binary32 : FloatFormat := ⟨23, 255⟩

def binary64 : FloatFormat := ⟨52, 2047⟩

variable (f : FloatFormat)

/-- What the exponent field adds to the binary exponent. -/
def bias : Nat := f.maxField / 2

/-- The implicit top bit of a normal number's fraction. -/
def hiddenBit : UInt64 := 1 <<< UInt64.ofNat f.mantissaBits

def mantissaMask : UInt64 := f.hiddenBit - 1

def signBit : UInt64 := UInt64.ofNat (1 + f.maxField) <<< UInt64.ofNat f.mantissaBits

/-- The pattern of infinity. -/
def infinity : UInt64 := UInt64.ofNat f.maxField <<< UInt64.ofNat f.mantissaBits

/-- The exponent of the last mantissa bit of the smallest numbers. -/
def lowestExp : Int := 1 - f.bias - f.mantissaBits

/-- The exponent of the last mantissa bit that no finite number reaches. -/
def maxExp : Int := f.maxField - f.bias - f.mantissaBits

/-- The bits of a pattern with its sign. -/
def totalBits : Nat := f.mantissaBits + (f.maxField + 1).log2 + 1

/-- The exponent field of a pattern. -/
def field (bits : UInt64) : Nat :=
  ((bits >>> UInt64.ofNat f.mantissaBits) &&& UInt64.ofNat f.maxField).toNat

def mantissa (bits : UInt64) : UInt64 := bits &&& f.mantissaMask

/-- The pattern denotes a number. -/
def IsFinite (bits : UInt64) : Prop := f.field bits ≠ f.maxField

instance (bits : UInt64) : Decidable (f.IsFinite bits) :=
  inferInstanceAs (Decidable (_ ≠ _))

end FloatFormat

end RadixText

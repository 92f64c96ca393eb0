import RadixText.Fault
import RadixText.Word.Product

/-!
# Extended floats

An extended float is a 64-bit fraction with a binary exponent: it denotes the
fraction times two to the exponent. The operations here keep that value or
report the precondition that they rely on.
-/

namespace RadixText

@[ext] structure ExtFloat where
  frac : UInt64
  exp : Int
  deriving DecidableEq

namespace ExtFloat

def ofWord (n : UInt64) : ExtFloat := ⟨n, 0⟩

/-- Shifts the fraction up by some bits if those bits are clear at its top. -/
def raise (x : ExtFloat) (n : Nat) : ExtFloat :=
  if x.frac >>> UInt64.ofNat (64 - n) = 0 then ⟨x.frac <<< UInt64.ofNat n, x.exp - n⟩ else x

/-- The same value with the top bit of its fraction set. Zero stays as it is. -/
def normalize (x : ExtFloat) : ExtFloat :=
  if x.frac = 0 then x else [32, 16, 8, 4, 2, 1].foldl raise x

/-- The sum of two fractions under one exponent. Both are halved when their
sum leaves the word. -/
def addFractions (a b : UInt64) (e : Int) : ExtFloat :=
  if a + b < a then ⟨(a >>> 1) + (b >>> 1), e + 1⟩ else ⟨a + b, e⟩

/-- Sum of two floats of equal exponents. -/
def addAligned (x y : ExtFloat) : Except Fault ExtFloat := do
  Precondition.equalExponents.require (x.exp = y.exp)
  return addFractions x.frac y.frac x.exp

/-- Difference of two floats of equal exponents, the first not the smaller. -/
def subAligned (x y : ExtFloat) : Except Fault ExtFloat := do
  Precondition.equalExponents.require (x.exp = y.exp)
  Precondition.orderedFractions.require (y.frac ≤ x.frac)
  return ⟨x.frac - y.frac, x.exp⟩

/-- Sum under an exponent not below the other. Bits of the second fraction
that fall below the first exponent are cut off. -/
def addOnto (x y : ExtFloat) : ExtFloat :=
  let distance := (x.exp - y.exp).toNat
  if 64 ≤ distance then x
  else addFractions x.frac (y.frac >>> UInt64.ofNat distance) x.exp

/-- Sum under the larger exponent. -/
def add (x y : ExtFloat) : ExtFloat :=
  if y.exp ≤ x.exp then addOnto x y else addOnto y x

def addWord (x : ExtFloat) (n : UInt64) : ExtFloat := x.add (ofWord n)

/-- The upper word of the product of the fractions, rounded half up. -/
def mul (x y : ExtFloat) : ExtFloat :=
  let product := Word.mul x.frac y.frac
  ⟨product.hi + (product.lo >>> 63), x.exp + y.exp + 64⟩

end ExtFloat

end RadixText

import RadixText.ExtFloat.Basic
import RadixText.FloatFormat

/-!
# Decoding and encoding of float patterns

A finite pattern decodes to an extended float of the same magnitude. An
extended float encodes to the pattern of the nearest number, a tie going to
the even pattern, where infinity stands one gap above the largest number.
-/

namespace RadixText.ExtFloat

/-- The magnitude of a finite pattern. -/
def ofBits (f : FloatFormat) (bits : UInt64) : Except Fault ExtFloat := do
  Precondition.finite.require (f.IsFinite bits)
  if f.field bits = 0 then return ⟨f.mantissa bits, f.lowestExp⟩
  else return ⟨f.mantissa bits ||| f.hiddenBit, f.field bits - f.bias - f.mantissaBits⟩

/-- Mantissa and rest of a fraction of which the given number of top bits is
kept. The rest is aligned with the top of the word. -/
def cut (frac : UInt64) (kept : Nat) : UInt64 × UInt64 :=
  if kept = 0 then (0, frac)
  else (frac >>> UInt64.ofNat (64 - kept), frac <<< UInt64.ofNat kept)

/-- A rest above one half rounds up, and so does one half at an odd mantissa. -/
def roundsUp (mantissa rest : UInt64) : Bool :=
  decide (Word.topBit < rest ∨ rest = Word.topBit ∧ mantissa &&& 1 = 1)

/-- The pattern with the given field and the mantissa below it. Fields from
zero down belong to subnormal numbers, the largest and above to infinity. -/
def assemble (f : FloatFormat) (field : Int) (mantissa : UInt64) : UInt64 :=
  if (f.maxField : Int) ≤ field then f.infinity
  else if field ≤ 0 then mantissa
  else (UInt64.ofNat field.toNat <<< UInt64.ofNat f.mantissaBits) ||| (mantissa &&& f.mantissaMask)

/-- The pattern of the nearest number. -/
def toBits (f : FloatFormat) (x : ExtFloat) : UInt64 :=
  if x.frac = 0 then 0
  else
    let y := x.normalize
    let field := y.exp + 63 + f.bias
    if (f.maxField : Int) ≤ field then f.infinity
    else if field < -(f.mantissaBits : Int) then 0
    else
      let kept := if 0 < field then 1 + f.mantissaBits else (f.mantissaBits + field).toNat
      let (mantissa, rest) := cut y.frac kept
      if roundsUp mantissa rest then
        let carried := (mantissa + 1) >>> UInt64.ofNat kept ≠ 0
        assemble f (if carried then field + 1 else field) (mantissa + 1)
      else assemble f field mantissa

end RadixText.ExtFloat

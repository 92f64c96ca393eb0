import RadixText.Radix.Chunk
import RadixText.Word.UInt128

/-!
# Quotients by a chunk

A two-word number is divided by the divisor of a chunk. The exact quotient
stands beside long division in two half-word digits, which needs no number
wider than a word.
-/

namespace RadixText.UInt128

/-- One-word quotient and remainder. The quotient fits because the high word
lies below the divisor. -/
def divModWord (x : UInt128) (d : Chunk) : Except Fault (UInt64 × UInt64) := do
  Precondition.highWordBelowDivisor.require (x.hi < d.divisor)
  let quotient := UInt64.ofNat (x.toNat / d.divisor.toNat)
  return (quotient, x.lo - quotient * d.divisor)

/-- Two-word quotient and remainder. -/
def divMod (x : UInt128) (d : Chunk) : Except Fault (UInt128 × UInt64) := do
  let high := x.hi / d.divisor
  let (low, rest) ← divModWord ⟨x.hi - high * d.divisor, x.lo⟩ d
  return (⟨high, low⟩, rest)

/-- Lowers an estimated half-word digit while it is too large. The remainder
grows with each correction and ends the search once it leaves a half word. -/
def correctDigit (high low next : UInt64) : Nat → UInt64 → UInt64 → UInt64
  | 0, digit, _ => digit
  | fuel + 1, digit, rest =>
      if Word.halfSize ≤ digit ∨ Word.ofHalves rest next < digit * low then
        if Word.halfSize ≤ rest + high then digit - 1
        else correctDigit high low next fuel (digit - 1) (rest + high)
      else digit

/-- One half-word digit of the quotient by a divisor with its top bit set,
and what is left of the dividend after the next half word is taken down. -/
def digitByHalves (divisor dividend next : UInt64) : UInt64 × UInt64 :=
  let high := Word.highHalf divisor
  let estimate := dividend / high
  let digit := correctDigit high (Word.lowHalf divisor) next 3 estimate (dividend - estimate * high)
  (digit, Word.ofHalves dividend next - digit * divisor)

/-- One-word quotient and remainder by long division in half words. Divisor
and dividend are shifted first so that the divisor's top bit is set. -/
def divModWordByHalves (x : UInt128) (d : Chunk) : Except Fault (UInt64 × UInt64) := do
  Precondition.highWordBelowDivisor.require (x.hi < d.divisor)
  let shift := UInt64.ofNat d.leadingZeros
  let divisor := d.divisor <<< shift
  let hi := if shift = 0 then x.hi else (x.hi <<< shift) ||| (x.lo >>> (64 - shift))
  let lo := if shift = 0 then x.lo else x.lo <<< shift
  let (first, rest) := digitByHalves divisor hi (Word.highHalf lo)
  let (second, rest) := digitByHalves divisor rest (Word.lowHalf lo)
  return (Word.ofHalves first second, rest >>> shift)

/-- Two-word quotient and remainder by long division in half words. -/
def divModByHalves (x : UInt128) (d : Chunk) : Except Fault (UInt128 × UInt64) := do
  let high := x.hi / d.divisor
  let (low, rest) ← divModWordByHalves ⟨x.hi - high * d.divisor, x.lo⟩ d
  return (⟨high, low⟩, rest)

end RadixText.UInt128

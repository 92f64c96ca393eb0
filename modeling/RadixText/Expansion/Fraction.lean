import RadixText.Bignum.Basic
import RadixText.Expansion.Basic
import RadixText.Radix.Basic

/-!
# Digits of a fraction

The digits behind the point are found by multiplying what is left by the
radix. All quantities are scaled by one power of two, and the reaches of the
neighbourhood grow along with the rest. Digits end once the rest is below the
reach, or once rounding up stays within it.
-/

namespace RadixText.Expansion

/-- What is left of a fraction, with the reach of its neighbourhood. -/
structure Remainder where
  rest : Bignum
  above : Bignum
  below : Bignum

/-- The rest cannot be told from zero. -/
def Remainder.isSpent (s : Remainder) : Bool := s.rest.compare s.below == .lt

/-- The next digit of a fraction scaled by a power of two. -/
def Remainder.next (r : Radix) (scale : Nat) (s : Remainder) : Except Fault (Nat × Remainder) := do
  let radix := UInt32.ofNat r.val
  let rest ← s.rest.mul radix
  let above ← s.above.mul radix
  let below ← s.below.mul radix
  let (digit, rest) ← rest.split scale
  return (digit.toNat, ⟨rest, above, below⟩)

/-- Whether a digit is to be rounded up and is the last one then. That takes a
rest of at least one half, or above it after an even digit, and a reach beyond
the next digit. -/
def Remainder.roundsUp (scale : Nat) (digit : Nat) (s : Remainder) : Except Fault Bool :=
  let half := s.rest.comparePowerOfTwo (scale - 1)
  if half = .gt ∨ half = .eq ∧ digit % 2 = 1 then do
    let reach ← s.rest.add s.above
    return reach.comparePowerOfTwo scale == .gt
  else .ok false

/-- Raises the last digit of a reversed list. Digits that would reach the
radix are dropped, and without any digit left the whole number is raised. -/
def raiseLast (r : Radix) : List Nat → List Nat × Bool
  | [] => ([], true)
  | d :: ds => if d + 1 < r.val then ((d + 1) :: ds, false) else raiseLast r ds

/-- The digits of a fraction in reverse, on top of those found before, and
whether the whole number in front of them is raised. -/
def fractionDigits (r : Radix) (scale : Nat) :
    Nat → Remainder → List Nat → Except Fault (List Nat × Bool)
  | 0, _, found => .ok (found, false)
  | room + 1, s, found =>
      if s.isSpent then .ok (found, false)
      else do
        let (digit, s) ← s.next r scale
        if ← s.roundsUp scale digit then return raiseLast r (digit :: found)
        else fractionDigits r scale room s (digit :: found)

end RadixText.Expansion

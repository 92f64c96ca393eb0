import RadixText.Bignum.Basic
import RadixText.Expansion.Basic
import RadixText.Neighbourhood
import RadixText.Radix.Basic

/-!
# Digits of a whole number

All digits of a whole number are found by division. Then the longest run of
low digits that can be rounded away within the neighbourhood is replaced by
zeros. The leading digit is never part of the run.
-/

namespace RadixText.Expansion

/-- The digits of a number, put in front of those found before. -/
def wholeDigits (r : Radix) : Nat → Bignum → List Nat → Except Fault (List Nat)
  | 0, _, _ => .error .digitRoom
  | room + 1, b, found => do
      let (quotient, digit) ← b.divMod (UInt32.ofNat r.val)
      if quotient.size = 0 then return digit.toNat :: found
      else wholeDigits r room quotient (digit.toNat :: found)

/-- A run of low digits: their count, the number they denote, and the power of
the radix just above them. -/
structure Run where
  count : Nat
  value : Bignum
  unit : Bignum

/-- The run together with the next digit above it. -/
def Run.extend (r : Radix) (run : Run) (digit : Nat) : Except Fault Run := do
  let share ← run.unit.mul (UInt32.ofNat digit)
  let value ← share.add run.value
  let unit ← run.unit.mul (UInt32.ofNat r.val)
  return ⟨run.count + 1, value, unit⟩

/-- How far the number lies below the next multiple of the unit. -/
def Run.complement (run : Run) : Except Fault Bignum := run.unit.sub run.value

/-- Replacing the run by zeros stays within the reach below. -/
def Run.mayDrop (hood : Neighbourhood) (run : Run) : Bool :=
  run.value.comparePowerOfTwo hood.below == .lt

/-- The run may be rounded away, down or up. -/
def Run.isNegligible (hood : Neighbourhood) (run : Run) : Except Fault Bool :=
  if run.mayDrop hood then .ok true
  else do
    let complement ← run.complement
    return complement.comparePowerOfTwo hood.above == .lt

/-- The longest negligible run that starts with the given one and goes on with
digits from a list, the lowest first. -/
def Run.longest (r : Radix) (hood : Neighbourhood) : List Nat → Run → Except Fault Run
  | [], run => .ok run
  | digit :: digits, run => do
      let extended ← run.extend r digit
      if ← extended.isNegligible hood then Run.longest r hood digits extended
      else return run

/-- Whether a run is rounded up rather than down. The nearer multiple of the
unit wins if the neighbourhood reaches it. A tie goes to the even digit. -/
def Run.roundsUp (hood : Neighbourhood) (digit : Nat) (run : Run) : Except Fault Bool := do
  let complement ← run.complement
  let downFits := run.mayDrop hood
  let upFits := complement.comparePowerOfTwo hood.above == .lt
  match run.value.compare complement with
  | .eq => return if digit % 2 = 1 then upFits else !downFits
  | .lt => return !downFits
  | .gt => return upFits

/-- Raises the lowest digit of a list that starts with it. A carry out of the
leading digit adds a digit. -/
def raiseLowest (r : Radix) : List Nat → List Nat
  | [] => [1]
  | d :: ds => if d + 1 < r.val then (d + 1) :: ds else 0 :: raiseLowest r ds

/-- Rounds away the longest negligible run of low digits. -/
def roundWhole (r : Radix) (hood : Neighbourhood) (digits : List Nat) :
    Except Fault (List Nat) := do
  let lowestFirst := digits.reverse
  let start : Run := ⟨0, ← Bignum.ofWord 0, ← Bignum.ofWord 1⟩
  let run ← Run.longest r hood lowestFirst.dropLast start
  if run.count = 0 then return digits
  else
    let kept := lowestFirst.drop run.count
    let kept := if ← run.roundsUp hood (kept.headD 0) then raiseLowest r kept else kept
    let rounded := kept.reverse ++ List.replicate run.count 0
    if rounded.length ≤ places then return rounded
    else throw .digitRoom

end RadixText.Expansion

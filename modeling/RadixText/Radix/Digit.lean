import RadixText.Radix.Basic

/-!
# Digit characters

The digits of every radix are `0` to `9` followed by the letters of one case.
Reading a digit back accepts both cases.
-/

namespace RadixText

inductive LetterCase where
  | lower
  | upper
  deriving DecidableEq

/-- The character of a digit below 36. -/
def digitChar (c : LetterCase) (d : Nat) : Char :=
  if d < 10 then Char.ofNat (48 + d)
  else match c with
    | .lower => Char.ofNat (87 + d)
    | .upper => Char.ofNat (55 + d)

/-- The character of a digit that the caller promises to be below 36. -/
def checkedDigitChar (c : LetterCase) (d : Nat) : Except Fault Char := do
  Precondition.digitInRange.require (d < Radix.largest)
  return digitChar c d

theorem checkedDigitChar_of_lt (c : LetterCase) {d : Nat} (h : d < Radix.largest) :
    checkedDigitChar c d = .ok (digitChar c d) := by
  rw [checkedDigitChar, Precondition.require_of_kept _ h]
  rfl

/-- The digit that a byte stands for. -/
def byteDigit? (b : UInt8) : Option Nat :=
  let n := b.toNat
  if 48 ≤ n ∧ n ≤ 57 then some (n - 48)
  else if 97 ≤ n ∧ n ≤ 122 then some (n - 87)
  else if 65 ≤ n ∧ n ≤ 90 then some (n - 55)
  else none

/-- The digit that a code unit stands for. Outside the bytes there is none. -/
def unitDigit? (v : Int) : Option Nat :=
  if 0 ≤ v ∧ v < 256 then byteDigit? (UInt8.ofNat v.toNat) else none

theorem unitDigit?_digitChar (c : LetterCase) {d : Nat} (h : d < 36) :
    unitDigit? (digitChar c d).toNat = some d := by
  have all : ∀ c ∈ [LetterCase.lower, .upper], ∀ d < 36,
      unitDigit? (digitChar c d).toNat = some d := by decide
  exact all c (by cases c <;> simp) d h

theorem digitChar_upper_eq_toUpper {d : Nat} (h : d < 36) :
    digitChar .upper d = (digitChar .lower d).toUpper := by
  have all : ∀ d < 36, digitChar .upper d = (digitChar .lower d).toUpper := by decide
  exact all d h

end RadixText

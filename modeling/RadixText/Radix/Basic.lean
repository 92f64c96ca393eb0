import RadixText.Fault

/-!
# Radixes

A radix is a number from 2 to 36. A caller may promise one, where any other
number breaks a precondition, or request one, where it is a format error.
-/

namespace RadixText

structure Radix where
  val : Nat
  two_le : 2 ≤ val
  le_thirtySix : val ≤ 36
  deriving DecidableEq

namespace Radix

def smallest : Nat := 2

def largest : Nat := 36

def ten : Radix := ⟨10, by decide, by decide⟩

def ofNat? (n : Nat) : Option Radix :=
  if h : smallest ≤ n ∧ n ≤ largest then some ⟨n, h.1, h.2⟩ else none

@[simp] theorem ofNat?_val (r : Radix) : ofNat? r.val = some r := by
  have h := And.intro r.two_le r.le_thirtySix
  simp [ofNat?, smallest, largest, h]

/-- The radix of a caller that promises one. -/
def promised (n : Nat) : Except Fault Radix :=
  match ofNat? n with
  | some r => .ok r
  | none => .error (.broken .radixInRange)

@[simp] theorem promised_val (r : Radix) : promised r.val = .ok r := by
  simp [promised]

/-- The radix of a caller that asks for one. -/
def requested (n : Nat) : Except Fault Radix :=
  match ofNat? n with
  | some r => .ok r
  | none => .error (.format .invalidRadix)

theorem val_pos (r : Radix) : 0 < r.val :=
  Nat.lt_of_lt_of_le (by decide) r.two_le

theorem one_lt_val (r : Radix) : 1 < r.val :=
  r.two_le

end Radix

end RadixText

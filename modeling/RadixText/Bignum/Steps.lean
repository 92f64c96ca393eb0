import Mathlib.Logic.Function.Basic
import RadixText.Bignum.InPlace

/-!
# Runs of arithmetic

Numbers stand in places. A step works on the number in one place, and maybe on
a second number, which stands in another place or in the same one. A run takes
its steps one after the other, up to the first that fails.
-/

namespace RadixText

/-- Operations on some kind of numbers. The other operand of a sum or of a
difference is left out when it is the very number that changes. -/
structure Arithmetic (α : Type) where
  ofWord : UInt64 → Except Fault α
  setShifted : α → UInt64 → Nat → Except Fault α
  mul : α → UInt32 → Except Fault α
  add : α → Option α → Except Fault α
  sub : α → Option α → Except Fault α
  divMod : α → UInt32 → Except Fault (α × Nat)
  split : α → Nat → Except Fault (Nat × α)
  compare : α → α → Except Fault Ordering
  comparePowerOfTwo : α → Int → Except Fault Ordering

namespace Arithmetic

/-- Multi-word numbers as lists of words. -/
def onLists : Arithmetic Bignum where
  ofWord := Bignum.ofWord
  setShifted := Bignum.setShifted
  mul := Bignum.mul
  add b other := b.add (other.getD b)
  sub b other := b.sub (other.getD b)
  divMod b divisor := (b.divMod divisor).map fun x => (x.1, x.2.toNat)
  split b bits := (b.split bits).map fun x => (x.1.toNat, x.2)
  compare b other := .ok (b.compare other)
  comparePowerOfTwo b exp := .ok (b.comparePowerOfTwo exp)

/-- Multi-word numbers word by word in their cells. -/
def inCells : Arithmetic Bignum where
  ofWord w := Bignum.InPlace.setShifted .zero w 0
  setShifted := Bignum.InPlace.setShifted
  mul := Bignum.InPlace.mul
  add := Bignum.InPlace.add
  sub := Bignum.InPlace.sub
  divMod b divisor := (Bignum.InPlace.divMod b divisor).map fun x => (x.1, x.2.toNat)
  split b bits := (Bignum.InPlace.split b bits).map fun x => (x.1.toNat, x.2)
  compare := Bignum.InPlace.compare
  comparePowerOfTwo := Bignum.InPlace.comparePowerOfTwo

/-- A step that changes the number in its first place or tells about it. -/
inductive Step (ι : Type) where
  | ofWord (i : ι) (w : UInt64)
  | copy (i j : ι)
  | setShifted (i : ι) (w : UInt64) (bits : Nat)
  | mul (i : ι) (factor : UInt32)
  | add (i j : ι)
  | sub (i j : ι)
  | divMod (i : ι) (divisor : UInt32)
  | split (i : ι) (bits : Nat)
  | compare (i j : ι)
  | comparePowerOfTwo (i : ι) (exp : Int)

/-- What a step tells. -/
inductive Output where
  | none
  | number (n : Nat)
  | order (o : Ordering)
  deriving DecidableEq

variable {ι α : Type} [DecidableEq ι]

/-- Puts a result into a place. -/
def assign (s : ι → α) (i : ι) (result : Except Fault α) : Except Fault ((ι → α) × Output) :=
  result.map fun a => (Function.update s i a, .none)

/-- The operand in another place, and none for the place itself. -/
def operandAt (s : ι → α) (i j : ι) : Option α := if i = j then none else some (s j)

def Step.apply (ops : Arithmetic α) (s : ι → α) : Step ι → Except Fault ((ι → α) × Output)
  | ofWord i w => assign s i (ops.ofWord w)
  | copy i j => assign s i (.ok (s j))
  | setShifted i w bits => assign s i (ops.setShifted (s i) w bits)
  | mul i factor => assign s i (ops.mul (s i) factor)
  | add i j => assign s i (ops.add (s i) (operandAt s i j))
  | sub i j => assign s i (ops.sub (s i) (operandAt s i j))
  | divMod i divisor =>
      (ops.divMod (s i) divisor).map fun x => (Function.update s i x.1, .number x.2)
  | split i bits => (ops.split (s i) bits).map fun x => (Function.update s i x.2, .number x.1)
  | compare i j => (ops.compare (s i) (s j)).map fun o => (s, .order o)
  | comparePowerOfTwo i exp => (ops.comparePowerOfTwo (s i) exp).map fun o => (s, .order o)

/-- The numbers behind each step of a run, with what the step tells. -/
def run (ops : Arithmetic α) : (ι → α) → List (Step ι) → Except Fault (List ((ι → α) × Output))
  | _, [] => .ok []
  | s, step :: steps => do
      let result ← step.apply ops s
      let results ← run ops result.1 steps
      return result :: results

end Arithmetic

end RadixText

import RadixText.Fault
import RadixText.Bignum.Words

/-!
# Multi-word numbers

A multi-word number occupies the low part of 18 cells. The cells above its
size hold leftovers of earlier numbers and do not count. An operation whose
result needs more cells reports it.
-/

namespace RadixText

structure Bignum where
  cells : List UInt64
  size : Nat
  length_cells : cells.length = 18

namespace Bignum

/-- The number of cells. -/
def room : Nat := 18

/-- The words in use, the lowest first. -/
def words (b : Bignum) : List UInt64 := b.cells.take b.size

def toNat (b : Bignum) : Nat := Words.toNat b.words

/-- The size stays within the cells and the top word in use is not zero. -/
def WellFormed (b : Bignum) : Prop := b.size ≤ room ∧ Words.IsTrimmed b.words

def zero : Bignum := ⟨List.replicate 18 0, 0, by simp⟩

/-- Puts words into the low cells. The cells above keep what they hold. -/
def store (b : Bignum) (ws : List UInt64) : Except Fault Bignum :=
  if h : ws.length ≤ room then
    .ok ⟨ws ++ b.cells.drop ws.length, ws.length, by
      have := b.length_cells
      simp only [room] at h
      simp only [List.length_append, List.length_drop]
      omega⟩
  else .error (.broken .bignumRoom)

theorem words_of_store {b b' : Bignum} {ws : List UInt64} (h : b.store ws = .ok b') :
    b'.words = ws := by
  by_cases fit : ws.length ≤ room
  · simp only [store, fit, dite_true] at h
    injection h with h
    simp [← h, words]
  · simp [store, fit] at h

theorem size_of_store {b b' : Bignum} {ws : List UInt64} (h : b.store ws = .ok b') :
    b'.size = ws.length ∧ ws.length ≤ room := by
  by_cases fit : ws.length ≤ room
  · simp only [store, fit, dite_true] at h
    injection h with h
    simp [← h, fit]
  · simp [store, fit] at h

/-- A word shifted up by some bits. Both words that it may touch must exist. -/
def setShifted (b : Bignum) (w : UInt64) (bits : Nat) : Except Fault Bignum := do
  Precondition.shiftInRange.require (bits / 64 + 2 ≤ room)
  b.store (Words.trim (Words.shifted w bits))

def ofShifted (w : UInt64) (bits : Nat) : Except Fault Bignum := zero.setShifted w bits

def ofWord (w : UInt64) : Except Fault Bignum := ofShifted w 0

/-- Product with a factor below the half word's range. -/
def mul (b : Bignum) (factor : UInt32) : Except Fault Bignum := do
  let product ← b.store (Words.mulAdd factor.toUInt64 0 b.words)
  product.store (Words.trim product.words)

def add (b other : Bignum) : Except Fault Bignum :=
  b.store (Words.addCarry false b.words other.words)

/-- Difference with a number that is not larger. -/
def sub (b other : Bignum) : Except Fault Bignum := do
  let (difference, borrow) := Words.subBorrow false b.words other.words
  Precondition.noBorrow.require (borrow = false)
  b.store (Words.trim difference)

def compare (b other : Bignum) : Ordering := Words.compareTrimmed b.words other.words

/-- Compares with a power of two. -/
def comparePowerOfTwo (b : Bignum) (exp : Int) : Ordering := Words.comparePowerOfTwo b.words exp

/-- Quotient and remainder by a divisor below the half word's range. -/
def divMod (b : Bignum) (divisor : UInt32) : Except Fault (Bignum × UInt32) := do
  let (quotient, rest) := Words.divMod divisor.toUInt64 b.words
  let b' ← b.store (Words.trim quotient)
  return (b', rest.toUInt32)

/-- Cuts off the bits from a position on. They reach into one word above the
position's own at most. -/
def split (b : Bignum) (bits : Nat) : Except Fault (UInt32 × Bignum) :=
  if b.words.length ≤ bits / 64 then .ok (0, b)
  else do
    Precondition.splitInRange.require (b.words.length ≤ bits / 64 + 2)
    let (above, below) := Words.split bits b.words
    let b' ← b.store (Words.trim below)
    return (above.toUInt32, b')

end Bignum

end RadixText

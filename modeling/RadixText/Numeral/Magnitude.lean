import RadixText.Cells
import RadixText.Numeral.Wide
import RadixText.Numeral.Count

/-!
# Magnitudes

The absolute value of an integer is held in 32, 64 or 128 bits. Its numeral
is written at the end of cells that have room for the longest one.
-/

namespace RadixText

inductive Magnitude where
  | word32 (v : BitVec 32)
  | word64 (v : BitVec 64)
  | wide (v : UInt128)
  deriving DecidableEq

namespace Magnitude

def bits : Magnitude → Nat
  | word32 _ => 32
  | word64 _ => 64
  | wide _ => 128

def toNat : Magnitude → Nat
  | word32 v => v.toNat
  | word64 v => v.toNat
  | wide v => v.toNat

def numeral (r : Radix) (c : LetterCase) : Magnitude → Except Fault (List Char)
  | word32 v => .ok (Numeral.ofWord r c v)
  | word64 v => .ok (Numeral.ofWord r c v)
  | wide v => Numeral.ofUInt128 r c v

/-- Writes the numeral at the end of the cells. The first part of the result
is the index at which it starts. -/
def writeTail (m : Magnitude) (radix : Nat) (c : LetterCase) (cells : List Char) :
    Except Fault (Nat × List Char) := do
  let r ← Radix.promised radix
  let longest ← Numeral.maxDigits m.bits (UInt32.ofNat r.val)
  Precondition.tailRoom.require (longest ≤ cells.length)
  let text ← m.numeral r c
  let cells' ← overwriteTail cells text
  return (cells.length - text.length, cells')

end Magnitude

end RadixText

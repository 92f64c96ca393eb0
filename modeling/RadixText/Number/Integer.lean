import RadixText.Buffer.Sink
import RadixText.Numeral.Magnitude
import RadixText.Options

/-!
# Integers

Integers have 8 to 64 bits, signed in two's complement or unsigned. They are
extended to a word of 32 or 64 bits, whose absolute value is written.
-/

namespace RadixText

inductive IntWidth where
  | bits8
  | bits16
  | bits32
  | bits64
  deriving DecidableEq

def IntWidth.bits : IntWidth → Nat
  | bits8 => 8
  | bits16 => 16
  | bits32 => 32
  | bits64 => 64

structure IntType where
  signed : Bool
  width : IntWidth
  deriving DecidableEq

namespace IntType

/-- The number that a pattern denotes. -/
def value (t : IntType) (pattern : BitVec t.width.bits) : Int :=
  if t.signed then pattern.toInt else pattern.toNat

/-- A pattern in a wider word, with the sign or zeros in front. -/
def extend (t : IntType) (word : Nat) (pattern : BitVec t.width.bits) : BitVec word :=
  if t.signed then pattern.signExtend word else pattern.setWidth word

end IntType

/-- Whether a word is negative, and its absolute value. The lowest number is
its own wrapped negation and the right absolute value. -/
def signAndMagnitude {w : Nat} (signed : Bool) (v : BitVec w) : Bool × BitVec w :=
  if signed && v.msb then (true, ~~~v + 1) else (false, v)

/-- The sign of an integer, and its absolute value in a word. -/
def IntType.magnitude (t : IntType) (pattern : BitVec t.width.bits) : Bool × Magnitude :=
  match t.width with
  | .bits64 =>
      let (negative, v) := signAndMagnitude t.signed (t.extend 64 pattern)
      (negative, .word64 v)
  | .bits8 | .bits16 | .bits32 =>
      let (negative, v) := signAndMagnitude t.signed (t.extend 32 pattern)
      (negative, .word32 v)

namespace Magnitude

/-- Sign and digits of an integer, taken from the end of cells with room for
the numeral in every radix. -/
def text (m : Magnitude) (negative : Bool) (o : Options) : Except Fault (List Char) := do
  let r ← o.requestedRadix
  let (first, cells) ← m.writeTail r.val o.letterCase (List.replicate m.bits blank)
  return o.sign negative ++ cells.drop first

/-- Writes sign and digits of an integer. -/
def write {β : Type} [Sink β] (m : Magnitude) (negative : Bool) (o : Options) (b : β) :
    Except Fault β := do
  Sink.append b (← m.text negative o)

end Magnitude

end RadixText

import RadixText.Buffer.Growing
import RadixText.Buffer.Unbounded
import RadixText.Number.Float
import RadixText.Number.Integer

/-!
# Conversion of numbers

A number is written to a sink, or converted to a text through a new growing
buffer.
-/

namespace RadixText

inductive Number where
  | integer (t : IntType) (pattern : BitVec t.width.bits)
  | wide (v : UInt128)
  | binary32 (bits : UInt32)
  | binary64 (bits : UInt64)

namespace Number

/-- The integer of a type with a given value, modulo its range. -/
def ofInt (t : IntType) (v : Int) : Number := integer t (BitVec.ofInt t.width.bits v)

/-- An integer is below zero. The sign of a float is its highest bit, whatever
the others are. -/
def isNegative : Number → Bool
  | integer t pattern => decide (t.value pattern < 0)
  | wide _ => false
  | binary32 bits => bits.toBitVec.msb
  | binary64 bits => bits.toBitVec.msb

/-- Writes the number to a sink, with some way to estimate logarithms. -/
def writeWith {β : Type} [Sink β] (log : Radix → ExtFloat → Int) (v : Number) (o : Options)
    (b : β) : Except Fault β :=
  match v with
  | integer t pattern =>
      let (negative, m) := t.magnitude pattern
      m.write negative o b
  | wide v => (Magnitude.wide v).write false o b
  | binary32 bits => FloatFormat.binary32.writeWith log bits.toUInt64 o b
  | binary64 bits => FloatFormat.binary64.writeWith log bits o b

/-- Writes the number to a sink. -/
def write {β : Type} [Sink β] (v : Number) (o : Options) (b : β) : Except Fault β :=
  v.writeWith ExtFloat.logBelowOne o b

/-- The text of the number, with some way to estimate logarithms. -/
def toTextWith (log : Radix → ExtFloat → Int) (u : UnitWidth) (v : Number) (o : Options) :
    Except Fault (List Char) := do
  let b ← v.writeWith log o (GrowingBuffer.empty u 0)
  return b.written

/-- The text of the number. -/
def toText (u : UnitWidth) (v : Number) (o : Options) : Except Fault (List Char) :=
  v.toTextWith ExtFloat.logBelowOne u o

/-- The text of the number, if it has at most the given length. -/
def toBoundedText (u : UnitWidth) (capacity : Nat) (v : Number) (o : Options) :
    Except Fault (List Char) := do
  let text ← v.toText u o
  if capacity < text.length then throw (.format .insufficientCapacity) else return text

/-- What is written to memory that is large enough. -/
def toMemory (v : Number) (o : Options) : Except Fault (List Char) := do
  let b ← v.write o UnboundedBuffer.empty
  return b.written

end Number

end RadixText

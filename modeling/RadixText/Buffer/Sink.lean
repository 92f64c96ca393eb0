import RadixText.Fault

/-!
# Sinks

A sink takes text at its write position. Output goes through one of three
ways: a single unit, a text, or a text placed straight into the cells behind
the write position.
-/

namespace RadixText

class Sink (β : Type) where
  /-- The given number of units can be placed without growing. -/
  fits : β → Nat → Bool
  push : β → Char → Except Fault β
  append : β → List Char → Except Fault β
  /-- Places a text so that it ends the given number of cells behind the write
  position, which moves there. -/
  place : β → Nat → List Char → Except Fault β
  /-- Moves the write position over cells without writing. -/
  advance : β → Nat → Except Fault β

/-- Pushes the units of a text one by one. -/
def Sink.pushAll {β : Type} [Sink β] : β → List Char → Except Fault β
  | b, [] => .ok b
  | b, c :: cs => do Sink.pushAll (← Sink.push b c) cs

/-- The width of the code units of a text. It bounds how many a buffer holds. -/
inductive UnitWidth where
  | narrow
  | wide
  deriving DecidableEq

namespace UnitWidth

def bytes : UnitWidth → Nat
  | narrow => 1
  | wide => 4

/-- The largest number of units in one buffer. -/
def limit (u : UnitWidth) : Nat := 0x7fffffffffffffff / u.bytes

/-- The number of units that a new buffer has room for. -/
def defaultCapacity (u : UnitWidth) : Nat := 256 / u.bytes

end UnitWidth

end RadixText

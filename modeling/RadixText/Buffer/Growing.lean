import RadixText.Buffer.Sink
import RadixText.Cells

/-!
# Growing buffers

A growing buffer moves to larger memory when its room is used up. A text that
does not fit fills the room first. Then the buffer grows by what is left of
the text, by half its size at least, within the limit of its unit width.
-/

namespace RadixText

structure GrowingBuffer where
  width : UnitWidth
  written : List Char
  /-- What is known of the cells behind the write position. -/
  leftover : List Char
  capacity : Nat
  deriving DecidableEq

namespace GrowingBuffer

variable (b : GrowingBuffer)

/-- A new buffer with the given room, or with the default one for zero. -/
def empty (u : UnitWidth) (inline : Nat) : GrowingBuffer :=
  ⟨u, [], [], if inline = 0 then u.defaultCapacity else inline⟩

def size : Nat := b.written.length

def isEmpty : Bool := b.size == 0

def room : Nat := b.capacity - b.size

/-- The capacity after growing by at least some units. -/
def grownCapacity (extra : Nat) : Except Fault Nat :=
  let wanted := max extra (b.size / 2)
  let most := b.width.limit - b.size
  if wanted ≤ most then .ok (b.size + wanted)
  else if most < extra then .error .tooMuchToReserve
  else .ok (b.size + max extra (most / 2))

/-- Moves to memory with room for at least some units. -/
def grow (extra : Nat) : Except Fault GrowingBuffer := do
  let capacity ← b.grownCapacity extra
  return ⟨b.width, b.written, [], capacity⟩

/-- Writes a text that the room is known to hold. -/
def fill (s : List Char) : GrowingBuffer :=
  ⟨b.width, b.written ++ s, b.leftover.drop s.length, b.capacity⟩

def push (c : Char) : Except Fault GrowingBuffer :=
  if 0 < b.room then .ok (b.fill [c])
  else do
    let b ← b.grow 1
    return b.fill [c]

def append (s : List Char) : Except Fault GrowingBuffer :=
  if s.length ≤ b.room then .ok (b.fill s)
  else do
    let full := b.fill (s.take b.room)
    let grown ← full.grow (s.length - b.room)
    return grown.fill (s.drop b.room)

def advance (n : Nat) : Except Fault GrowingBuffer := do
  Precondition.advanceInRange.require (n ≤ b.room)
  return ⟨b.width, b.written ++ takeCells n b.leftover, b.leftover.drop n, b.capacity⟩

def place (n : Nat) (s : List Char) : Except Fault GrowingBuffer := do
  Precondition.advanceInRange.require (n ≤ b.room)
  let (placed, rest) ← placeIn n b.leftover s
  return ⟨b.width, b.written ++ placed, rest, b.capacity⟩

/-- Makes room for some more units. -/
def reserve (n : Nat) : Except Fault GrowingBuffer :=
  if b.room < n then b.grow n else .ok b

/-- Forgets the text and keeps the memory. -/
def clear : GrowingBuffer := ⟨b.width, [], b.written ++ b.leftover, b.capacity⟩

instance : Sink GrowingBuffer where
  fits b n := decide (n ≤ b.room)
  push := push
  append := append
  place := place
  advance := advance

/-- A single unit is a text of one unit. -/
theorem push_eq_append (c : Char) : b.push c = b.append [c] := by
  by_cases room : 0 < b.room
  · have fit : [c].length ≤ b.room := room
    simp only [push, room, append, fit, ite_true]
  · have full : b.room = 0 := Nat.eq_zero_of_not_pos room
    simp [push, append, full, fill]

end GrowingBuffer

end RadixText

import RadixText.Buffer.Sink
import RadixText.Cells

/-!
# Fixed buffers

A fixed buffer writes into given cells from the front. Output beyond the last
cell is dropped.
-/

namespace RadixText

structure FixedBuffer where
  /-- The cells in front of the write position. -/
  written : List Char
  /-- The cells from the write position on. -/
  rest : List Char
  deriving DecidableEq

namespace FixedBuffer

variable (b : FixedBuffer)

def ofCells (cells : List Char) : FixedBuffer := ⟨[], cells⟩

def cells : List Char := b.written ++ b.rest

def position : Nat := b.written.length

def room : Nat := b.rest.length

def push (c : Char) : FixedBuffer :=
  match b.rest with
  | [] => b
  | _ :: rest => ⟨b.written ++ [c], rest⟩

def append (s : List Char) : FixedBuffer := ⟨b.written ++ s.take b.room, b.rest.drop s.length⟩

def advance (n : Nat) : Except Fault FixedBuffer := do
  Precondition.advanceInRange.require (n ≤ b.room)
  return ⟨b.written ++ b.rest.take n, b.rest.drop n⟩

def place (n : Nat) (s : List Char) : Except Fault FixedBuffer := do
  Precondition.advanceInRange.require (n ≤ b.room)
  let (placed, rest) ← placeIn n b.rest s
  return ⟨b.written ++ placed, rest⟩

instance : Sink FixedBuffer where
  fits b n := decide (n ≤ b.room)
  push b c := .ok (b.push c)
  append b s := .ok (b.append s)
  place := place
  advance := advance

@[simp] theorem written_append (s : List Char) :
    (b.append s).written = b.written ++ s.take b.room := rfl

@[simp] theorem rest_append (s : List Char) : (b.append s).rest = b.rest.drop s.length := rfl

/-- A single unit is a text of one unit. -/
theorem push_eq_append (c : Char) : b.push c = b.append [c] := by
  cases h : b.rest <;> simp [push, append, room, h]
  cases b
  simp_all

/-- Texts in a row are one text: what is cut off of the first leaves no cell
for the second. -/
theorem append_append (s t : List Char) : (b.append s).append t = b.append (s ++ t) := by
  simp only [append, room, List.length_drop, List.drop_drop, List.take_append, List.append_assoc,
    List.length_append]

/-- The number of cells never changes. -/
theorem length_cells_append (s : List Char) : (b.append s).cells.length = b.cells.length := by
  simp only [append, cells, room, List.length_append, List.length_take, List.length_drop]
  omega

end FixedBuffer

end RadixText

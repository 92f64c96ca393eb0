import RadixText.Fault

/-!
# Cells

A text is placed at the end of a row of cells. The cells in front of it keep
what they hold.
-/

namespace RadixText

/-- Places a text at the end of the cells. -/
def overwriteTail (cells text : List Char) : Except Fault (List Char) :=
  if text.length ≤ cells.length then .ok (cells.take (cells.length - text.length) ++ text)
  else .error .cellRoom

theorem overwriteTail_of_le {cells text : List Char} (h : text.length ≤ cells.length) :
    overwriteTail cells text = .ok (cells.take (cells.length - text.length) ++ text) := by
  simp [overwriteTail, h]

/-- A text that fills all cells leaves nothing of them. -/
theorem overwriteTail_of_length_eq {cells text : List Char} (h : text.length = cells.length) :
    overwriteTail cells text = .ok text := by
  simp [overwriteTail, h]

/-- What a cell holds before anything is written to it. -/
def blank : Char := '\x00'

/-- The given number of cells from the front, blank ones where there are
fewer. -/
def takeCells (n : Nat) (cells : List Char) : List Char :=
  cells.take n ++ List.replicate (n - cells.length) blank

@[simp] theorem length_takeCells (n : Nat) (cells : List Char) :
    (takeCells n cells).length = n := by
  simp only [takeCells, List.length_append, List.length_take, List.length_replicate]
  omega

/-- A text placed at the end of the first cells of a row, which are cut off. -/
def placeIn (n : Nat) (cells text : List Char) : Except Fault (List Char × List Char) := do
  let placed ← overwriteTail (takeCells n cells) text
  return (placed, cells.drop n)

/-- A text of the very length of its place fills it. -/
theorem placeIn_of_length_eq {n : Nat} {cells text : List Char} (h : text.length = n) :
    placeIn n cells text = .ok (text, cells.drop n) := by
  have fits : text.length = (takeCells n cells).length := by simp [h]
  simp only [placeIn, overwriteTail_of_length_eq fits]
  rfl

end RadixText

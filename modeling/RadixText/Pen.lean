import RadixText.Numeral.Word

/-!
# Pens

A pen writes backwards, each character in front of the one before. It keeps a
record of what it wrote where, and of the cells it read digits from.
-/

namespace RadixText

structure Pen where
  /-- The place behind the next character. -/
  position : Int
  /-- Places and characters, the latest first. -/
  written : List (Int × Char)
  /-- Cells, the latest first. -/
  read : List Nat
  deriving DecidableEq

namespace Pen

/-- A pen in front of a position, before it writes. -/
def start (position : Int) : Pen := ⟨position, [], []⟩

def put (pen : Pen) (c : Char) : Pen :=
  { pen with position := pen.position - 1, written := (pen.position - 1, c) :: pen.written }

/-- Writes a text from its last character on. -/
def putAll (pen : Pen) : List Char → Pen
  | [] => pen
  | c :: cs => (pen.putAll cs).put c

/-- Some more cells were read. -/
def noteRead (pen : Pen) (cells : List Nat) : Pen := { pen with read := cells ++ pen.read }

@[simp] theorem putAll_nil (pen : Pen) : pen.putAll [] = pen := rfl

@[simp] theorem putAll_cons (pen : Pen) (c : Char) (cs : List Char) :
    pen.putAll (c :: cs) = (pen.putAll cs).put c := rfl

theorem putAll_append (pen : Pen) (front back : List Char) :
    pen.putAll (front ++ back) = (pen.putAll back).putAll front := by
  induction front with
  | nil => rfl
  | cons c cs ih => rw [List.cons_append, putAll_cons, ih, putAll_cons]

/-- Writing and reading do not disturb each other. -/
theorem put_noteRead (pen : Pen) (cells : List Nat) (c : Char) :
    (pen.noteRead cells).put c = (pen.put c).noteRead cells := rfl

theorem putAll_noteRead (pen : Pen) (cells : List Nat) (text : List Char) :
    (pen.noteRead cells).putAll text = (pen.putAll text).noteRead cells := by
  induction text with
  | nil => rfl
  | cons c cs ih => rw [putAll_cons, ih, put_noteRead, putAll_cons]

theorem noteRead_noteRead (pen : Pen) (cells more : List Nat) :
    (pen.noteRead cells).noteRead more = pen.noteRead (more ++ cells) := by
  simp [noteRead]

theorem position_putAll (pen : Pen) (text : List Char) :
    (pen.putAll text).position = pen.position - text.length := by
  induction text with
  | nil => simp
  | cons c cs ih =>
      rw [putAll_cons, put, ih, List.length_cons]
      dsimp only
      omega

/-- A text is written to consecutive places, each of them once. -/
theorem written_putAll (pen : Pen) (text : List Char) :
    (pen.putAll text).written =
      text.mapIdx (fun i c => (pen.position - text.length + i, c)) ++ pen.written := by
  induction text with
  | nil => rfl
  | cons c cs ih =>
      rw [putAll_cons, put, position_putAll, ih, List.mapIdx_cons, List.cons_append]
      have place (i : Nat) : pen.position - cs.length + i =
          pen.position - (c :: cs).length + ((i + 1 : Nat) : Int) := by
        rw [List.length_cons]
        omega
      have first : pen.position - cs.length - 1 =
          pen.position - (c :: cs).length + ((0 : Nat) : Int) := by
        rw [List.length_cons]
        omega
      simp only [place, first]

@[simp] theorem read_putAll (pen : Pen) (text : List Char) :
    (pen.putAll text).read = pen.read := by
  induction text with
  | nil => rfl
  | cons c cs ih => exact ih

end Pen

namespace Numeral

variable {w : Nat} (r : Radix) (table : Array Char)

/-- Writes four digits at a time. -/
def writeFours : Nat → BitVec w → Pen → BitVec w × Pen
  | 0, v, pen => (v, pen)
  | fuel + 1, v, pen =>
      if fourthPower r w ≤ v then
        let group := v % fourthPower r w
        let pen := pen.putAll (pairAt table (group % square r w).toNat)
        let pen := pen.putAll (pairAt table (group / square r w).toNat)
        writeFours fuel (v / fourthPower r w) pen
      else (v, pen)

/-- Writes two digits at a time. -/
def writeTwos : Nat → BitVec w → Pen → BitVec w × Pen
  | 0, v, pen => (v, pen)
  | fuel + 1, v, pen =>
      if square r w ≤ v then
        writeTwos fuel (v / square r w) (pen.putAll (pairAt table (v % square r w).toNat))
      else (v, pen)

/-- Writes the last one or two digits. -/
def writeLast (v : BitVec w) (pen : Pen) : Pen :=
  let pen := pen.put (table.getD (2 * v.toNat + 1) '0')
  if v.toNat < r.val then pen else pen.put (table.getD (2 * v.toNat) '0')

/-- Writes the digits of a word. -/
def writeWord (c : LetterCase) (v : BitVec w) (pen : Pen) : Pen :=
  let table := r.pairs c
  let (v, pen) := writeFours r table w v pen
  let (v, pen) := writeTwos r table w v pen
  writeLast r table v pen

theorem writeFours_putAll (fuel : Nat) (v : BitVec w) (pen : Pen) (text : List Char) :
    writeFours r table fuel v (pen.putAll text) =
      ((cutFours r table fuel v text).1, pen.putAll (cutFours r table fuel v text).2) := by
  induction fuel generalizing v text with
  | zero => rfl
  | succ fuel ih =>
      rw [writeFours, cutFours]
      split
      case isTrue => simp only [← Pen.putAll_append, ih, List.append_assoc]
      case isFalse => rfl

theorem writeTwos_putAll (fuel : Nat) (v : BitVec w) (pen : Pen) (text : List Char) :
    writeTwos r table fuel v (pen.putAll text) =
      ((cutTwos r table fuel v text).1, pen.putAll (cutTwos r table fuel v text).2) := by
  induction fuel generalizing v text with
  | zero => rfl
  | succ fuel ih =>
      rw [writeTwos, cutTwos]
      split
      case isTrue => rw [← Pen.putAll_append, ih]
      case isFalse => rfl

theorem writeLast_putAll (v : BitVec w) (pen : Pen) (text : List Char) :
    writeLast r table v (pen.putAll text) = pen.putAll (cutLast r table v text) := by
  rw [writeLast, cutLast]
  split <;> rfl

/-- The digits that a pen writes are those of the word's numeral. -/
theorem writeWord_eq (c : LetterCase) (v : BitVec w) (pen : Pen) :
    writeWord r c v pen = pen.putAll (ofWord r c v) := by
  have fours := writeFours_putAll r (r.pairs c) w v pen []
  rw [Pen.putAll_nil] at fours
  simp only [writeWord, fours, writeTwos_putAll, writeLast_putAll]
  rfl

end Numeral

end RadixText

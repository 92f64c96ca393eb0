import RadixText.Numeral.Magnitude
import RadixText.Pen

/-!
# Written numerals

A pen writes padded numerals and those of two words from their last digit on,
the chunks one after the other. What it wrote goes into cells place by place.
-/

namespace RadixText

/-- Puts a character into the cell at a place, where there must be one. -/
def putIntoCell (place : Int) (c : Char) (cells : List Char) : Except Fault (List Char) :=
  if 0 ≤ place ∧ place < cells.length then .ok (cells.set place.toNat c) else .error .cellRoom

/-- What cells hold after a pen wrote into them. -/
def Pen.into (pen : Pen) (cells : List Char) : Except Fault (List Char) :=
  pen.written.foldrM (fun entry cells => putIntoCell entry.1 entry.2 cells) cells

theorem Pen.into_start (position : Int) (cells : List Char) :
    (Pen.start position).into cells = .ok cells := rfl

theorem Pen.into_put (pen : Pen) (c : Char) (cells : List Char) :
    (pen.put c).into cells = pen.into cells >>= putIntoCell (pen.position - 1) c :=
  List.foldrM_cons

/-- A cell in front of a text at the end of the cells is the next one that a pen
writes. -/
theorem putIntoCell_overwriteTail (cells cs : List Char) (c : Char) :
    overwriteTail cells cs >>= putIntoCell (cells.length - cs.length - 1) c =
      overwriteTail cells (c :: cs) := by
  by_cases room : (c :: cs).length ≤ cells.length
  · have fewer : cs.length ≤ cells.length := Nat.le_of_succ_le room
    obtain ⟨front, length⟩ : ∃ front, cells.length = front + 1 + cs.length :=
      ⟨cells.length - cs.length - 1, by rw [List.length_cons] at room; omega⟩
    have place : (cells.length - cs.length - 1 : Int) = front := by omega
    have before : cells.length - (c :: cs).length = front := by rw [List.length_cons]; omega
    have behind : cells.length - cs.length = front + 1 := by omega
    have inside : (0 : Int) ≤ front ∧ (front : Int) < (cells.take (front + 1) ++ cs).length := by
      rw [List.length_append, List.length_take]
      omega
    rw [overwriteTail_of_le room, overwriteTail_of_le fewer, place, before, behind]
    change putIntoCell front c _ = _
    have kept : (cells.take (front + 1)).length = front + 1 := by
      rw [List.length_take]
      omega
    rw [putIntoCell, if_pos inside, Int.toNat_natCast, List.set_eq_take_append_cons_drop,
      if_pos (by omega), List.drop_left' kept, List.take_append_of_le_length (by omega),
      List.take_take, Nat.min_eq_left (Nat.le_succ front)]
  · by_cases fewer : cs.length ≤ cells.length
    · have outside : ¬ ((0 : Int) ≤ cells.length - cs.length - 1) := by
        rw [List.length_cons] at room
        omega
      rw [overwriteTail_of_le fewer]
      change putIntoCell _ c _ = _
      rw [putIntoCell, if_neg (mt And.left outside), overwriteTail, if_neg room]
    · rw [overwriteTail, if_neg fewer, overwriteTail, if_neg room]
      rfl

/-- A pen that starts behind the last cell leaves a text at the end of the cells,
or finds no room for it. -/
theorem Pen.into_putAll (cells text : List Char) :
    ((Pen.start cells.length).putAll text).into cells = overwriteTail cells text := by
  induction text with
  | nil => simp [into_start, overwriteTail]
  | cons c cs ih =>
      rw [putAll_cons, into_put, ih, position_putAll]
      exact putIntoCell_overwriteTail cells cs c

namespace Numeral

variable (r : Radix) (c : LetterCase)

/-- Writes exactly the given number of digits. Zeros fill the places that are
left in front. -/
def writePadded (n : Nat) (v : UInt64) (pen : Pen) : Except Fault Pen := do
  let first := pen.position - n
  let pen := writeWord r c v.toBitVec pen
  Precondition.digitsFit.require (first ≤ pen.position)
  return pen.putAll (List.replicate (pen.position - first).toNat '0')

/-- Writes the digits of a two-word number. -/
def writeUInt128 (v : UInt128) (pen : Pen) : Except Fault Pen :=
  if v.hi = 0 then .ok (writeWord r c v.lo.toBitVec pen)
  else do
    let chunk := r.chunk
    let (upper, rest) ← v.divMod chunk
    let pen ← writePadded r c chunk.step rest pen
    if upper.hi = 0 then return writeWord r c upper.lo.toBitVec pen
    else
      let (top, rest) ← upper.divMod chunk
      let pen ← writePadded r c chunk.step rest pen
      Precondition.chunkQuotientSmall.require (top.hi = 0)
      return writeWord r c top.lo.toBitVec pen

/-- A pen writes a padded numeral exactly if there is one. -/
theorem writePadded_eq (n : Nat) (v : UInt64) (pen : Pen) :
    writePadded r c n v pen = padded r c n v >>= fun text => .ok (pen.putAll text) := by
  have fits : pen.position - n ≤ pen.position - (ofWord r c v.toBitVec).length ↔
      (ofWord r c v.toBitVec).length ≤ n := by omega
  have left : (pen.position - (ofWord r c v.toBitVec).length - (pen.position - n)).toNat =
      n - (ofWord r c v.toBitVec).length := by omega
  simp only [writePadded, padded, writeWord_eq, Pen.position_putAll, left]
  by_cases room : (ofWord r c v.toBitVec).length ≤ n
  · rw [Precondition.require_of_kept _ room, Precondition.require_of_kept _ (fits.mpr room)]
    change Except.ok _ = Except.ok _
    rw [Pen.putAll_append]
  · rw [Precondition.require_of_broken _ room, Precondition.require_of_broken _ (mt fits.mp room)]
    rfl

/-- A pen writes the digits of a two-word number from the last chunk on. -/
theorem writeUInt128_eq (v : UInt128) (pen : Pen) :
    writeUInt128 r c v pen = ofUInt128 r c v >>= fun text => .ok (pen.putAll text) := by
  by_cases single : v.hi = 0
  · rw [writeUInt128, ofUInt128, if_pos single, if_pos single, writeWord_eq]
    rfl
  · rw [writeUInt128, ofUInt128, if_neg single, if_neg single]
    simp only [writePadded_eq, writeWord_eq, bind_assoc]
    congr 1
    funext cut
    obtain ⟨upper, rest⟩ := cut
    congr 1
    funext low
    by_cases short : upper.hi = 0
    · simp only [if_pos short, pure_bind, Pen.putAll_append]
      rfl
    · simp only [if_neg short, bind_assoc, pure_bind, Pen.putAll_append]
      rfl

end Numeral

namespace Magnitude

variable (m : Magnitude) (r : Radix) (c : LetterCase)

/-- Writes the digits of a magnitude. -/
def writeNumeral (pen : Pen) : Except Fault Pen :=
  match m with
  | word32 v => .ok (Numeral.writeWord r c v pen)
  | word64 v => .ok (Numeral.writeWord r c v pen)
  | wide v => Numeral.writeUInt128 r c v pen

/-- A pen writes the numeral of a magnitude, of whatever width it is. -/
theorem writeNumeral_eq (pen : Pen) :
    m.writeNumeral r c pen = m.numeral r c >>= fun text => .ok (pen.putAll text) := by
  cases m with
  | word32 v => exact congrArg Except.ok (Numeral.writeWord_eq r c v pen)
  | word64 v => exact congrArg Except.ok (Numeral.writeWord_eq r c v pen)
  | wide v => exact Numeral.writeUInt128_eq r c v pen

end Magnitude

end RadixText

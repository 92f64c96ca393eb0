import Mathlib.Data.Nat.Digits.Lemmas
import Mathlib.Tactic.NormNum
import RadixText.Numeral.Written
import RadixText.Proofs.Integers

/-!
# Numerals in counted cells

The digit count of a width is that of its largest number, in every radix. Cells
with as much room take the numeral of every magnitude of the width at their end,
digit by digit, and keep what they hold in front of it.
-/

namespace RadixText

namespace Numeral

/-- The digit count of a width is the number of digits of its largest number.
The width zero counts the digit of zero. -/
theorem maxDigits_eq_length_digits {bits : Nat} {radix : UInt32} (hb : bits ≤ 128)
    (hr : 2 ≤ radix.toNat) : maxDigits bits radix =
      .ok (if bits = 0 then 1 else (Nat.digits radix.toNat (2 ^ bits - 1)).length) := by
  rw [maxDigits_eq_log hb hr]
  split
  case isTrue zero =>
    subst zero
    rw [pow_zero, Nat.sub_self, Nat.log_zero_right]
  case isFalse bits_ne_zero =>
    have nonzero : 2 ^ bits - 1 ≠ 0 := by
      have := Nat.one_lt_two_pow bits_ne_zero
      omega
    rw [Nat.length_digits _ _ hr nonzero]

end Numeral

namespace Magnitude

variable (m : Magnitude) (r : Radix) (c : LetterCase)

/-- The numeral of a magnitude stands at the end of cells, from the first index
on. All other cells hold what they held before. -/
structure FillsTail (m : Magnitude) (r : Radix) (c : LetterCase) (cells : List Char)
    (longest first : Nat) (cells' : List Char) : Prop where
  written : m.writeTail r.val c cells = .ok (first, cells')
  first_le : first ≤ cells.length
  count_le : cells.length - first ≤ longest
  count_eq : m.toNat = 2 ^ m.bits - 1 → cells.length - first = longest
  length : cells'.length = cells.length
  front : cells'.take first = cells.take first
  digits : cells'.drop first = r.plainNumeral c m.toNat
  /-- A pen writes each digit once, into the cell where it stands. -/
  pen : ∃ pen, m.writeNumeral r c (Pen.start cells.length) = .ok pen ∧ pen.position = first ∧
    pen.written = (r.plainNumeral c m.toNat).mapIdx (fun i d => ((first + i : Int), d)) ∧
    pen.into cells = .ok cells'

theorem length_plainNumeral_of_largest (largest : m.toNat = 2 ^ m.bits - 1) :
    (r.plainNumeral c m.toNat).length = m.longest r := by
  rw [Radix.plainNumeral, List.length_map, r.length_digits, longest, largest]

/-- A pen that starts behind the last cell leaves the numeral where the cells
have it. -/
theorem exists_pen_into {cells : List Char}
    (fits : (r.plainNumeral c m.toNat).length ≤ cells.length) : ∃ pen,
      m.writeNumeral r c (Pen.start cells.length) = .ok pen ∧
      pen.position = (cells.length - (r.plainNumeral c m.toNat).length : Nat) ∧
      pen.written = (r.plainNumeral c m.toNat).mapIdx (fun i d =>
        (((cells.length - (r.plainNumeral c m.toNat).length : Nat) : Int) + i, d)) ∧
      pen.into cells = .ok (cells.take (cells.length - (r.plainNumeral c m.toNat).length) ++
        r.plainNumeral c m.toNat) := by
  refine ⟨(Pen.start cells.length).putAll (r.plainNumeral c m.toNat), ?_, ?_, ?_, ?_⟩
  · rw [writeNumeral_eq, numeral_eq_plainNumeral]
    rfl
  · rw [Pen.position_putAll, Nat.cast_sub fits]
    rfl
  · rw [Pen.written_putAll, Nat.cast_sub fits]
    exact List.append_nil _
  · rw [Pen.into_putAll, overwriteTail_of_le fits]

theorem exists_fillsTail {cells : List Char} (room : m.longest r ≤ cells.length) :
    ∃ first cells', m.FillsTail r c cells (m.longest r) first cells' := by
  have short := m.length_plainNumeral_le_longest r c
  have fits := short.trans room
  have front : (cells.take (cells.length - (r.plainNumeral c m.toNat).length)).length =
      cells.length - (r.plainNumeral c m.toNat).length := by
    rw [List.length_take]
    exact Nat.min_eq_left (Nat.sub_le _ _)
  refine ⟨_, _, m.writeTail_of_le r c room, Nat.sub_le _ _, ?_, ?_, ?_, ?_, ?_, ?_⟩
  · rw [Nat.sub_sub_self fits]
    exact short
  · intro largest
    rw [Nat.sub_sub_self fits]
    exact m.length_plainNumeral_of_largest r c largest
  · rw [List.length_append, front, Nat.sub_add_cancel fits]
  · exact List.take_left' front
  · exact List.drop_left' front
  · exact m.exists_pen_into r c fits

theorem writeTail_of_lt {cells : List Char} (few : cells.length < m.longest r) :
    m.writeTail r.val c cells = .error (.broken .tailRoom) := by
  rw [writeTail, Radix.promised_val]
  change (Numeral.maxDigits m.bits (UInt32.ofNat r.val) >>= _) = _
  rw [maxDigits_bits]
  change (Precondition.tailRoom.require _ >>= _) = _
  rw [Precondition.require_of_broken _ (Nat.not_le.mpr few)]
  rfl

end Magnitude

/-- The digit count of a width is exact in every radix. Cells take the numeral of
a magnitude at their end exactly if they are as many as the count for its width.
The numeral has at most that many digits, and the largest number of the width
has all of them. -/
theorem Numeral.counted_cells_hold_numerals :
    (∀ (bits : Nat) (radix : UInt32), bits ≤ 128 → 2 ≤ radix.toNat → maxDigits bits radix =
      .ok (if bits = 0 then 1 else (Nat.digits radix.toNat (2 ^ bits - 1)).length)) ∧
    ∀ (m : Magnitude) (r : Radix) (c : LetterCase) (cells : List Char), ∃ longest,
      maxDigits m.bits (UInt32.ofNat r.val) = .ok longest ∧
      if longest ≤ cells.length then ∃ first cells', m.FillsTail r c cells longest first cells'
      else m.writeTail r.val c cells = .error (.broken .tailRoom) := by
  constructor
  · intro bits radix hb hr
    exact maxDigits_eq_length_digits hb hr
  · intro m r c cells
    refine ⟨m.longest r, m.maxDigits_bits r, ?_⟩
    split
    case isTrue room => exact m.exists_fillsTail r c room
    case isFalse few => exact m.writeTail_of_lt r c (Nat.lt_of_not_le few)

/-- The largest number of 128 bits has five digits in the largest radix of a half
word, and it leaves two of 27 cells as they are in radix 36. -/
theorem Numeral.largest_wide_number_leaves_two_cells :
    128 ≤ 128 ∧ 2 ≤ (0xffffffff : UInt32).toNat ∧ maxDigits 128 0xffffffff = .ok 5 ∧
    ∃ (r : Radix) (cells' : List Char), r.val = 36 ∧
      (Magnitude.wide ⟨Word.allOnes, Word.allOnes⟩).writeTail r.val .lower
        (List.replicate 27 '.') = .ok (2, cells') ∧ cells'.take 2 = ['.', '.'] := by
  obtain ⟨counts, fills⟩ := counted_cells_hold_numerals
  have five := counts 128 0xffffffff (by decide) (by decide)
  have radix : (0xffffffff : UInt32).toNat = 4294967295 := rfl
  have digits : (Nat.digits 4294967295 (2 ^ 128 - 1)).length = 5 := by norm_num
  rw [if_neg (by decide), radix, digits] at five
  have largest : (Magnitude.wide ⟨Word.allOnes, Word.allOnes⟩).toNat = 2 ^ 128 - 1 := by decide
  obtain ⟨longest, count, tail⟩ := fills (.wide ⟨Word.allOnes, Word.allOnes⟩)
    ⟨36, by decide, by decide⟩ .lower (List.replicate 27 '.')
  have twentyFive : maxDigits 128 (UInt32.ofNat 36) = .ok 25 := by decide +kernel
  obtain rfl : longest = 25 := Except.ok.inj (count.symm.trans twentyFive)
  rw [if_pos (by decide)] at tail
  obtain ⟨first, cells', fill⟩ := tail
  have two : first = 2 := by
    have count := fill.count_eq largest
    have le := fill.first_le
    rw [List.length_replicate] at count le
    omega
  subst two
  exact ⟨by decide, by decide, five, _, cells', rfl, fill.written, fill.front⟩

end RadixText

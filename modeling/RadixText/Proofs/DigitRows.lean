import RadixText.FloatText.CellText
import RadixText.Proofs.DigitCells
import RadixText.Proofs.SignificantDigits

/-!
# Rows of digits

The digits of a float are found in cells as in lists. A text has its place in
their row where a list is laid out as that text, so that both give one text or
fail alike.
-/

namespace RadixText

namespace DigitCells

open Expansion (places)

variable {b : DigitCells} {pos count : Nat}

/-- A row of cells holds the digits of an expansion. -/
structure Row.Holds (row : Row) (e : Expansion) : Prop where
  whole : row.cells.HoldsWhole row.first e.whole
  count_eq : row.count = e.fraction.length
  count_le : row.count ≤ places
  fraction : row.cells.slice middle row.count = e.fraction

/-- A text has its place in a row, and its digits are among those of the row. -/
structure Row.Shows (row : Row) (t : CellText) (text : FloatText) : Prop where
  text_eq : t.text = text
  cells_eq : t.cells = row.cells
  first_le : row.first ≤ t.first
  end_le : t.first + t.count ≤ middle + row.count

/-- The digits of a float with an exponent from zero down are found in cells as
in lists. -/
theorem ofFractional_agree (b : DigitCells) (x : ExtFloat) (hood : Neighbourhood) (r : Radix) :
    Agree Row.Holds (b.ofFractional x hood r) (Expansion.ofFractional x hood r) := by
  rw [ofFractional, Expansion.ofFractional]
  apply Agree.bind_same
  intro rest _
  apply Agree.bind_same
  intro above _
  apply Agree.bind_same
  intro below _
  have empty : b.HoldsFraction [] := ⟨Nat.zero_le _, rfl⟩
  apply (fractionDigits_agree (Nat.zero_add _) empty).bind
  rintro ⟨b', count, carry⟩ ⟨found, _⟩ ⟨same, holds⟩
  obtain ⟨rfl, rfl⟩ := Prod.mk.inj same
  simp only
  generalize (if carry = true then Expansion.wholePart x + 1 else Expansion.wholePart x) = whole
  have short : (r.digits whole.toNat).length ≤ 64 :=
    r.length_digits_le (by decide) (whole.toNat_lt.trans_le (r.two_pow_le 64))
  have room : (r.digits whole.toNat).length ≤ middle := short.trans (by decide)
  obtain ⟨b'', written, digits, kept⟩ := wordDigits_eq (b := b') whole.toNat room (by decide)
  rw [written]
  refine .ok ⟨⟨r.digits_ne_nil _, Nat.sub_add_cancel room, digits⟩, ?_, holds.1, ?_⟩
  · rw [List.length_reverse]
  · rw [slice_congr fun p le _ => kept p le, holds.2]

/-- The digits of a float with a positive exponent are found in cells as in
lists. -/
theorem ofWhole_agree (b : DigitCells) (x : ExtFloat) (hood : Neighbourhood) (r : Radix) :
    Agree Row.Holds (b.ofWhole x hood r) (Expansion.ofWhole x hood r) := by
  rw [ofWhole, Expansion.ofWhole]
  apply Agree.bind_same
  intro number made
  apply (wholeDigits_agree (Bignum.denotes_of_ofShifted made) (Nat.add_zero _) rfl).bind
  rintro ⟨b', first⟩ digits holds
  apply (roundWhole_agree holds).bind
  rintro ⟨b'', first'⟩ rounded holds'
  exact .ok ⟨holds', rfl, Nat.zero_le _, rfl⟩

theorem ofExtFloat_agree (b : DigitCells) (x : ExtFloat) (hood : Neighbourhood) (r : Radix) :
    Agree Row.Holds (b.ofExtFloat x hood r) (Expansion.ofExtFloat x hood r) := by
  rw [ofExtFloat, Expansion.ofExtFloat]
  apply Agree.bind_same
  intro _ _
  split
  case isTrue => exact ofFractional_agree b x hood r
  case isFalse => exact ofWhole_agree b x hood r

/-- Zeros at the end of some digits are skipped in cells as in lists. -/
theorem exists_trimmedCount (inside : pos + count ≤ size) : ∃ kept ≤ count,
    b.trimmedCount pos count = .ok kept ∧ b.slice pos kept = trimZeros (b.slice pos count) := by
  induction count with
  | zero => exact ⟨0, Nat.le_refl 0, rfl, rfl⟩
  | succ count ih =>
      obtain ⟨kept, le, found, digits⟩ := ih (by omega)
      rw [trimmedCount, read_eq b (by omega), slice_concat, trimZeros, dropTrailing_concat]
      change ∃ kept ≤ count + 1, (if b.digitAt (pos + count) = 0 then _ else _) = _ ∧ _
      by_cases zero : b.digitAt (pos + count) = 0
      · rw [if_pos zero, if_pos (beq_iff_eq.mpr zero)]
        exact ⟨kept, Nat.le_succ_of_le le, found, digits⟩
      · rw [if_neg zero, if_neg (by simpa using zero)]
        exact ⟨count + 1, Nat.le_refl _, rfl, slice_concat b pos count⟩

namespace Row.Holds

variable {row : Row} {e : Expansion}

theorem first_lt (h : row.Holds e) : row.first < middle := by
  have length_pos := List.length_pos_of_ne_nil h.whole.nonempty
  have total := h.whole.first_add
  omega

/-- All digits of the expansion stand in a row. -/
theorem slice_eq (h : row.Holds e) :
    row.cells.slice row.first (e.whole.length + e.fraction.length) = e.whole ++ e.fraction := by
  rw [slice_append, h.whole.digits, h.whole.first_add, ← h.count_eq, h.fraction]

theorem read_first_add (h : row.Holds e) {i : Nat} (lt : i < (e.whole ++ e.fraction).length) :
    row.cells.read (row.first + i) = .ok (e.whole ++ e.fraction)[i] := by
  have total := h.whole.first_add
  have count := h.count_le
  have number := h.count_eq
  have row_size := middle_add_places
  rw [List.length_append] at lt
  rw [read_eq _ (by omega)]
  congr 1
  simp [← h.slice_eq, slice]

theorem placeFixed_agree (h : row.Holds e) (r : Radix) :
    Agree row.Shows (row.placeFixed r) (.ok (e.layoutFixed r)) := by
  have count := h.count_le
  have row_size := middle_add_places
  have total := h.whole.first_add
  have whole : middle - row.first = e.whole.length := by omega
  obtain ⟨kept, le, trimmed, digits⟩ := exists_trimmedCount (b := row.cells)
    (show middle + min (Expansion.maxDigits - e.whole.length) row.count ≤ size by omega)
  rw [← take_slice, h.fraction] at digits
  rw [Row.placeFixed, whole, Nat.min_comm, trimmed]
  refine .ok ⟨?_, rfl, Nat.le_refl _, ?_⟩
  · rw [CellText.text, slice_append, h.whole.digits, total, digits]
    rfl
  · dsimp only
    omega

/-- A text in scientific notation has its place from a position on where it is
laid out from the front of a list. -/
theorem placeScientific_agree (h : row.Holds e) (r : Radix) {first d : Nat} {ds : List Nat}
    (le : row.first ≤ first) (stop : first + (ds.length + 1) = middle + row.count)
    (digits : row.cells.slice first (ds.length + 1) = d :: ds) :
    Agree row.Shows (row.placeScientific r first) (.ok ⟨r, .scientific (middle - first - 1),
      trimZerosAfterFirst ((d :: ds).take (Expansion.maxDigits + 1))⟩) := by
  have count := h.count_le
  have row_size := middle_add_places
  rw [slice_succ] at digits
  obtain ⟨leading, rest⟩ := List.cons.inj digits
  have window : min (middle + row.count) (first + Expansion.maxDigits + 1) - (first + 1) =
      min Expansion.maxDigits ds.length := by omega
  obtain ⟨kept, shorter, trimmed, further⟩ := exists_trimmedCount (b := row.cells)
    (show first + 1 + min Expansion.maxDigits ds.length ≤ size by omega)
  rw [← take_slice, rest] at further
  rw [Row.placeScientific, window, trimmed]
  refine .ok ⟨?_, rfl, le, ?_⟩
  · rw [CellText.text, slice_succ, leading, further]
    rfl
  · dsimp only
    omega

theorem placeHuge_agree (h : row.Holds e) (r : Radix) :
    Agree row.Shows (row.placeScientific r row.first) (.ok (e.layoutHuge r)) := by
  have total := h.whole.first_add
  have split := h.slice_eq
  obtain ⟨d, ds, digits⟩ := List.exists_cons_of_ne_nil
    (List.append_ne_nil_of_left_ne_nil h.whole.nonempty e.fraction)
  have length := congrArg List.length digits
  rw [List.length_append, List.length_cons] at length
  rw [digits, length] at split
  have placed := h.placeScientific_agree r (Nat.le_refl _) (by rw [h.count_eq]; omega) split
  have exp : ((middle : Int) - row.first - 1) = (e.whole.length : Int) - 1 := by omega
  rwa [exp, ← digits] at placed

theorem read_fraction (h : row.Holds e) {place : Nat} (lt : place < row.count) :
    row.cells.read (middle + place) = .ok (e.fraction.getD place 0) := by
  have count := h.count_le
  have row_size := middle_add_places
  have digits := h.fraction
  rw [read_eq _ (by omega), ← digits, slice]
  congr 1
  rw [List.getD_eq_getElem _ _ (by simpa using lt)]
  simp

theorem moveBack_eq (h : row.Holds e) {place : Nat} (le : place ≤ row.count) :
    row.cells.moveBack place = .ok (Expansion.moveBack e.fraction place) := by
  induction place with
  | zero => rfl
  | succ place ih =>
      rw [DigitCells.moveBack, h.read_fraction (by omega), Expansion.moveBack]
      change (if e.fraction.getD place 0 = 0 then _ else _) = _
      split
      case isTrue => rfl
      case isFalse => exact ih (by omega)

theorem skipZeros_eq (h : row.Holds e) {place more : Nat} (last : place + more + 1 = row.count) :
    row.cells.skipZeros place more =
      .ok (place + Expansion.leadingZeros (e.fraction.drop place)) := by
  have count := h.count_eq
  induction more generalizing place with
  | zero =>
      obtain ⟨d, ds, rest⟩ := List.exists_cons_of_ne_nil
        (show e.fraction.drop place ≠ [] by rw [ne_eq, List.drop_eq_nil_iff]; omega)
      have length := congrArg List.length rest
      rw [List.length_drop, List.length_cons] at length
      obtain rfl : ds = [] := List.eq_nil_of_length_eq_zero (by omega)
      rw [rest]
      rfl
  | succ more ih =>
      have inside : place < e.fraction.length := by omega
      have digit := List.drop_eq_getElem_cons inside
      have rest : e.fraction.drop (place + 1) ≠ [] := by
        rw [ne_eq, List.drop_eq_nil_iff]
        omega
      rw [DigitCells.skipZeros, h.read_fraction (by omega), List.getD_eq_getElem _ _ inside, digit]
      change (if e.fraction[place] = 0 then _ else _) = _
      obtain ⟨d, ds, tail⟩ := List.exists_cons_of_ne_nil rest
      rw [tail, Expansion.leadingZeros, ← tail]
      split
      case isTrue zero => rw [ih (by omega), Nat.add_assoc]
      case isFalse => rfl
      · simp

theorem placeTiny_agree (h : row.Holds e) (r : Radix) (log : Int) :
    Agree row.Shows (row.placeTiny r log) (e.layoutTiny r log) := by
  have count := h.count_eq
  rw [Row.placeTiny, Expansion.layoutTiny]
  by_cases zero : row.count = 0
  · have empty : e.fraction = [] := List.eq_nil_of_length_eq_zero (by omega)
    rw [Precondition.require_of_broken _ (not_not.mpr zero),
      Precondition.require_of_broken _ (not_not.mpr empty)]
    exact .error _
  · have nonempty : e.fraction ≠ [] := List.ne_nil_of_length_pos (by omega)
    have start : (max (middle : Int) (min (middle - log - 1) (middle + row.count - 1))).toNat -
        middle = min (-log - 1).toNat (e.fraction.length - 1) := by omega
    have back := Expansion.moveBack_le e.fraction (min (-log - 1).toNat (e.fraction.length - 1))
    have inside := Expansion.firstSignificant_lt nonempty log
    obtain ⟨d, ds, rest⟩ := List.exists_cons_of_ne_nil
      (show e.fraction.drop (Expansion.firstSignificant e.fraction log) ≠ [] by
        rw [ne_eq, List.drop_eq_nil_iff]
        omega)
    have length := congrArg List.length rest
    rw [List.length_drop, List.length_cons] at length
    have digits : row.cells.slice (middle + Expansion.firstSignificant e.fraction log)
        (ds.length + 1) = d :: ds := by
      have behind := row.cells.drop_slice middle row.count
        (Expansion.firstSignificant e.fraction log)
      rw [h.fraction, rest, count, length] at behind
      exact behind.symm
    have exp : ((middle : Int) - (middle + Expansion.firstSignificant e.fraction log : ℕ) - 1) =
        -(Expansion.firstSignificant e.fraction log : Int) - 1 := by
      push_cast
      omega
    have first := h.first_lt
    have placed := h.placeScientific_agree r (by omega) (by omega) digits
    rw [exp, ← rest] at placed
    rw [Precondition.require_of_kept _ zero, Precondition.require_of_kept _ nonempty]
    simp only [start, bind, Except.bind, pure, Except.pure]
    rw [h.moveBack_eq (by omega)]
    simp only []
    rw [h.skipZeros_eq (by omega)]
    exact placed

/-- A text has its place in the row where the digits in a list are laid out as
that text. -/
theorem place_agree (h : row.Holds e) (r : Radix) (size : ExtFloat.Size) (log : Int) :
    Agree row.Shows (row.place r size log) (e.layout r size log) := by
  cases size with
  | tiny => exact h.placeTiny_agree r log
  | moderate => exact h.placeFixed_agree r
  | huge => exact h.placeHuge_agree r

end Row.Holds

/-- The text of a float has its place in a row that holds its digits, whatever
the cells hold before. -/
theorem placeEstimate_agree (b : DigitCells) (x : ExtFloat) (hood : Neighbourhood) (r : Radix)
    (log : Int) : Agree (fun t text => ∃ (row : Row) (e : Expansion),
        Expansion.ofExtFloat x hood r = .ok e ∧ row.Holds e ∧ row.Shows t text)
      (b.placeEstimate x hood r log) (FloatText.ofEstimate x hood r log) := by
  apply (b.ofExtFloat_agree x hood r).bind_of_ok
  intro row e expanded holds
  apply (holds.place_agree r x.size log).mono
  intro t text shows
  exact ⟨row, e, expanded, holds, shows⟩

/-- Whatever the cells hold before, the text is that of the digits in lists. -/
theorem ofEstimate_eq (b : DigitCells) (x : ExtFloat) (hood : Neighbourhood) (r : Radix)
    (log : Int) : b.ofEstimate x hood r log = FloatText.ofEstimate x hood r log := by
  apply (b.placeEstimate_agree x hood r log).map_eq
  rintro t text ⟨row, e, -, -, shows⟩
  exact shows.text_eq

end DigitCells

end RadixText

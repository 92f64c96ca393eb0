import RadixText.FloatText.CellText
import RadixText.Proofs.AnyNeighbourhood
import RadixText.Proofs.DigitRows

/-!
# Texts written from cells

A pen that writes a text from its cells needs exactly the places that were
counted, and reads no cell but those that hold digits of the number.
-/

namespace RadixText

variable {x : ExtFloat} {hood : Neighbourhood} {r : Radix}

namespace CellText

variable {t : CellText} {c : LetterCase}

theorem writeExponent_eq (t : CellText) (c : LetterCase) (pen : Pen) :
    t.writeExponent c pen = pen.putAll (t.text.exponentChars c) := by
  rw [writeExponent, FloatText.exponentChars, text]
  cases t.form with
  | fixed n => rfl
  | scientific e =>
      simp only [Numeral.writeWord_eq, List.cons_append, Pen.putAll_cons, Pen.putAll_append]
      split <;> rfl

/-- Digits in cells are written from the last one on, and each cell is read
once. -/
theorem writeDigits_eq {others count : Nat} (inside : t.first + others + count ≤ DigitCells.size)
    (digits : ∀ d ∈ t.cells.slice (t.first + others) count, d < Radix.largest) (pen : Pen) :
    t.writeDigits c others count pen =
      .ok ((pen.putAll ((t.cells.slice (t.first + others) count).map (digitChar c))).noteRead
        (List.range' (t.first + others) count)) := by
  induction count generalizing pen with
  | zero => rfl
  | succ count ih =>
      rw [DigitCells.slice_concat] at digits ⊢
      have last := digits (t.cells.digitAt (t.first + others + count)) (by simp)
      have more := ih (by omega) fun d mem => digits d (List.mem_append_left _ mem)
      rw [writeDigits, DigitCells.read_eq _ (by omega)]
      change (checkedDigitChar c _ >>= _) = _
      rw [checkedDigitChar_of_lt c last]
      change t.writeDigits c others count _ = _
      -- The last cell is read first, and the record has it behind all others.
      rw [more, Pen.put_noteRead, Pen.putAll_noteRead, Pen.noteRead_noteRead, List.map_append,
        Pen.putAll_append, List.range'_concat, Nat.one_mul]
      rfl

theorem lt_largest (h : t.text.IsWellFormed) {d : Nat} (mem : d ∈ t.text.digits) :
    d < Radix.largest :=
  (h.lt_radix d mem).trans_le t.text.radix.le_thirtySix

theorem writeFraction_eq (h : t.text.IsWellFormed) (inside : t.first + t.count ≤ DigitCells.size)
    (pen : Pen) : t.writeFraction c pen =
      .ok ((pen.putAll (t.text.fractionChars c)).noteRead
        (List.range' (t.first + t.text.wholeCount) (t.count - t.text.wholeCount))) := by
  have count : t.text.digits.length = t.count := DigitCells.length_slice _ _ _
  have le := h.count_le
  rw [writeFraction, FloatText.fractionChars, count]
  split
  case isTrue fractional =>
    have behind : t.text.digits.drop t.text.wholeCount =
        t.cells.slice (t.first + t.text.wholeCount) (t.count - t.text.wholeCount) :=
      DigitCells.drop_slice _ _ _ _
    rw [behind]
    apply writeDigits_eq (by omega)
    intro d mem
    rw [← behind] at mem
    exact lt_largest h (List.mem_of_mem_drop mem)
  case isFalse whole =>
    have zero : t.count - t.text.wholeCount = 0 := by omega
    rw [zero]
    rfl

/-- A text is written in front of the pen, and each of its cells is read once. -/
theorem write_eq (h : t.text.IsWellFormed) (inside : t.first + t.count ≤ DigitCells.size)
    (pen : Pen) : t.write c pen =
      .ok ((pen.putAll (t.text.chars c)).noteRead (List.range' t.first t.count)) := by
  have count : t.text.digits.length = t.count := DigitCells.length_slice _ _ _
  have le := h.count_le
  have front : t.text.digits.take t.text.wholeCount =
      t.cells.slice (t.first + 0) t.text.wholeCount := by
    rw [Nat.add_zero, text, DigitCells.take_slice]
    congr 1
    exact Nat.min_eq_left (count ▸ le)
  have digits : ∀ d ∈ t.cells.slice (t.first + 0) t.text.wholeCount, d < Radix.largest := by
    intro d mem
    rw [← front] at mem
    exact lt_largest h (List.mem_of_mem_take mem)
  have cells : List.range' t.first t.text.wholeCount ++
      List.range' (t.first + t.text.wholeCount) (t.count - t.text.wholeCount) =
        List.range' t.first t.count := by
    rw [List.range'_append_1]
    congr 1
    omega
  rw [write, writeExponent_eq, writeFraction_eq h inside]
  change t.writeDigits c 0 t.text.wholeCount _ = _
  rw [writeDigits_eq (by omega) digits, Pen.put_noteRead, Pen.putAll_noteRead,
    Pen.noteRead_noteRead, Nat.add_zero, cells, FloatText.chars, front, Pen.putAll_append,
    Pen.putAll_append, Pen.putAll_cons]
  rfl

end CellText

namespace DigitCells

/-- Whatever the cells hold before, they hold a certain digit of the radix at a
position once the text of a float is found in them. -/
def StoresDigit (x : ExtFloat) (hood : Neighbourhood) (r : Radix) (log : Int) (pos : Nat) : Prop :=
  ∃ digit < r.val, ∀ b : DigitCells, ∃ t, b.placeEstimate x hood r log = .ok t ∧
    t.cells.read pos = .ok digit

/-- All cells of a row hold digits of its number, whatever they hold before. -/
theorem storesDigit_of_mem {log : Int} {e : Expansion} {text : FloatText} {pos : Nat}
    (expanded : Expansion.ofExtFloat x hood r = .ok e) (close : e.IsClose r x hood)
    (made : FloatText.ofEstimate x hood r log = .ok text)
    (le : middle ≤ pos + e.whole.length) (lt : pos < middle + e.fraction.length) :
    StoresDigit x hood r log pos := by
  -- The leading digit has the same position in every row, so that a position
  -- is one place in the list of all digits.
  obtain ⟨i, position⟩ := Nat.exists_eq_add_of_le (Nat.sub_le_iff_le_add.mpr le)
  have inside : i < (e.whole ++ e.fraction).length := by
    rw [List.length_append]
    omega
  refine ⟨(e.whole ++ e.fraction)[i], close.digits_lt_radix _ (List.getElem_mem inside), ?_⟩
  intro b
  have placed := b.placeEstimate_agree x hood r log
  rw [made] at placed
  obtain ⟨t, done, row, e', expanded', holds, shows⟩ := placed.exists_ok
  obtain rfl := Except.ok.inj (expanded.symm.trans expanded')
  refine ⟨t, done, ?_⟩
  have first : row.first = middle - e.whole.length := by
    rw [← holds.whole.first_add, Nat.add_sub_cancel]
  rw [shows.cells_eq, position, ← first]
  exact holds.read_first_add inside

/-- In any neighbourhood, unless a promise is broken, a text has at most as many
characters as there are cells for it. A pen writes each of them once, to as many
places in front of it as were counted. It reads only cells that hold digits of
the number, whatever they hold before. -/
theorem text_fills_counted_places {log : Int} (b : DigitCells)
    (least : 2 ^ (-1074 : ℤ) ≤ x.value) (most : x.value < 2 ^ 1024) (deep : -1088 ≤ hood.below)
    (kept : ∀ p, b.placeEstimate x hood r log ≠ .error (.broken p)) :
    ∃ t, b.placeEstimate x hood r log = .ok t ∧
      FloatText.ofEstimate x hood r log = .ok t.text ∧ t.text.length ≤ FloatText.maxLength ∧
      ∀ (c : LetterCase) (p : Int), ∃ pen, t.write c (Pen.start p) = .ok pen ∧
        (t.text.chars c).length = t.text.length ∧
        pen.written = (t.text.chars c).mapIdx (fun i ch => (p - t.text.length + i, ch)) ∧
        ∀ pos ∈ pen.read, StoresDigit x hood r log pos := by
  have placed := b.placeEstimate_agree x hood r log
  have kept' : ∀ p, FloatText.ofEstimate x hood r log ≠ .error (.broken p) := by
    intro p broken
    rw [broken] at placed
    exact kept p placed.eq_error
  obtain ⟨e, text, expanded, close, made, wellFormed⟩ :=
    FloatText.exists_isWellFormed least most deep kept'
  rw [made] at placed
  obtain ⟨t, done, row, e', expanded', holds, shows⟩ := placed.exists_ok
  obtain rfl := Except.ok.inj (expanded.symm.trans expanded')
  obtain rfl := shows.text_eq
  have first := shows.first_le
  have last := shows.end_le
  have total := holds.whole.first_add
  have count := holds.count_eq
  have room := holds.count_le
  have size := middle_add_places
  refine ⟨t, done, made, wellFormed.length_le_maxLength, ?_⟩
  intro c p
  have length := wellFormed.length_chars c
  refine ⟨_, CellText.write_eq wellFormed (by omega) _, length, ?_, ?_⟩
  · change ((Pen.start p).putAll (t.text.chars c)).written = _
    rw [Pen.written_putAll, length]
    exact List.append_nil _
  · intro pos mem
    change pos ∈ List.range' t.first t.count ++ ((Pen.start p).putAll (t.text.chars c)).read at mem
    rw [Pen.read_putAll, List.mem_append, List.mem_range'_1] at mem
    obtain ⟨le, lt⟩ := mem.resolve_right List.not_mem_nil
    exact storesDigit_of_mem expanded close made (by omega) (by omega)

/-- A small power of two has one digit in binary, and a pen writes a zero behind
the point and an exponent of six digits. -/
theorem power_of_two_fills_eleven_places :
    (2 : ℚ) ^ (-1074 : ℤ) ≤ (⟨1, -40⟩ : ExtFloat).value ∧
    (⟨1, -40⟩ : ExtFloat).value < 2 ^ 1024 ∧ -1088 ≤ (⟨-41, false⟩ : Neighbourhood).below ∧
    ∃ (r : Radix) (t : CellText) (pen : Pen), r.val = 2 ∧
      DigitCells.placeEstimate ⟨fun _ => 0⟩ ⟨1, -40⟩ ⟨-41, false⟩ r (-40) = .ok t ∧
      t.text.length = 11 ∧ t.write .lower (Pen.start 11) = .ok pen ∧
      pen.written = [(0, '1'), (1, '.'), (2, '0'), (3, 'e'), (4, '-'), (5, '1'), (6, '0'),
        (7, '1'), (8, '0'), (9, '0'), (10, '0')] ∧
      ∀ pos ∈ pen.read, StoresDigit ⟨1, -40⟩ ⟨-41, false⟩ r (-40) pos := by
  have value : (⟨1, -40⟩ : ExtFloat).value = 2 ^ (-40 : ℤ) := by
    rw [ExtFloat.value, UInt64.toNat_one, Nat.cast_one, one_mul]
  have least : (2 : ℚ) ^ (-1074 : ℤ) ≤ (⟨1, -40⟩ : ExtFloat).value := by
    rw [value]
    exact zpow_le_zpow_right₀ (by norm_num) (by decide)
  have most : (⟨1, -40⟩ : ExtFloat).value < 2 ^ 1024 := by
    rw [value, ← zpow_natCast]
    exact zpow_lt_zpow_right₀ (by norm_num) (by decide)
  have deep : -1088 ≤ (⟨-41, false⟩ : Neighbourhood).below := by decide
  have digits : FloatText.ofEstimate ⟨1, -40⟩ ⟨-41, false⟩ ⟨2, by decide, by decide⟩ (-40) =
      .ok ⟨⟨2, by decide, by decide⟩, .scientific (-40), [1]⟩ := by decide +kernel
  have placed := DigitCells.placeEstimate_agree ⟨fun _ => 0⟩ ⟨1, -40⟩ ⟨-41, false⟩
    ⟨2, by decide, by decide⟩ (-40)
  rw [digits] at placed
  obtain ⟨t, done, -⟩ := placed.exists_ok
  have kept : ∀ p, DigitCells.placeEstimate ⟨fun _ => 0⟩ ⟨1, -40⟩ ⟨-41, false⟩
      ⟨2, by decide, by decide⟩ (-40) ≠ .error (.broken p) := by
    intro p broken
    cases done.symm.trans broken
  obtain ⟨t, done, made, -, written⟩ :=
    text_fills_counted_places ⟨fun _ => 0⟩ least most deep kept
  have text := Except.ok.inj (digits.symm.trans made)
  obtain ⟨pen, generated, -, characters, stored⟩ := written .lower 11
  refine ⟨least, most, deep, _, t, pen, rfl, done, ?_, generated, ?_, stored⟩
  · rw [← text]
    decide +kernel
  · rw [characters, ← text]
    decide +kernel

end DigitCells

end RadixText

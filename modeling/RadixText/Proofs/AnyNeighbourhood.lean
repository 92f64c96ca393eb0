import RadixText.Proofs.FloatTexts
import RadixText.Proofs.ScientificLayouts
import RadixText.Proofs.WholeExpansions

/-!
# Texts in any neighbourhood

A neighbourhood may be far narrower than the last bit of a float or wider than
the float itself. Wherever the bits of all quantities have room and some digit is
left, the digits stay within its reaches, and the text strays from them by no
more than its window cuts off.
-/

namespace RadixText

variable {x : ExtFloat} {hood : Neighbourhood} {r : Radix}

namespace Expansion

theorem ofExtFloat_eq_ite (nonzero : x.frac ≠ 0) (hood : Neighbourhood) (r : Radix) :
    ofExtFloat x hood r = if x.exp ≤ 0 then ofFractional x hood r else ofWhole x hood r := by
  rw [ofExtFloat, Precondition.require_of_kept _ nonzero]
  rfl

/-- Where the bits of a fraction have room, the digits of a float are found close
to it. -/
theorem ofExtFloat_isClose (least : 2 ^ (-1074 : ℤ) ≤ x.value) (most : x.value < 2 ^ 1024)
    (deep : -1088 ≤ hood.below) (room : x.exp ≤ 0 → HasRoom x hood) (r : Radix) :
    ∃ e, ofExtFloat x hood r = .ok e ∧ e.IsClose r x hood := by
  have positive : 0 < x.value := lt_of_lt_of_le (by positivity) least
  rw [ofExtFloat_eq_ite (ExtFloat.frac_ne_zero_of_value_pos positive)]
  by_cases nonpos : x.exp ≤ 0
  · have le_exp := ExtFloat.neg_lt_exp least
    obtain ⟨result, place, up, ends, length, made⟩ :=
      ofFractional_eq nonpos (by omega) deep (room nonpos) r
    rw [if_pos nonpos]
    exact ⟨_, made, ends.isClose nonpos length⟩
  · have above : 0 < x.exp := not_le.mp nonpos
    obtain ⟨n, count, up, value, -, length, rounds, made⟩ := ofWhole_eq positive most above r hood
    rw [if_neg nonpos]
    exact ⟨_, made, rounds.isClose above value length⟩

/-- Rounding adds at most one digit in front of the point to those that the bits
of a float allow, however wide the neighbourhood is. -/
theorem length_whole_le {e : Expansion} {bits : Nat} (nonzero : bits ≠ 0) (positive : 0 < x.value)
    (most : x.value < 2 ^ 1024) (small : x.value < 2 ^ bits)
    (expanded : ofExtFloat x hood r = .ok e) (close : e.IsClose r x hood) :
    e.whole.length ≤ bits + 1 := by
  by_cases nonpos : x.exp ≤ 0
  · have value : e.value r ≤ x.value + 1 := by
      rcases lt_or_ge x.value (e.value r) with raised | le
      · have unit : 1 / (r.val : ℚ) ^ e.fraction.length ≤ 1 := by
          rw [div_le_one (r.cast_val_pow_pos _)]
          exact_mod_cast Nat.succ_le_of_lt (r.val_pow_pos e.fraction.length)
        linarith [(close.raised nonpos raised).1]
      · linarith
    have number : r.ofDigits e.whole ≤ 2 ^ bits := by
      have less : (r.ofDigits e.whole : ℚ) < (2 ^ bits + 1 : ℕ) := by
        push_cast
        linarith [ofDigits_whole_le e r]
      exact Nat.lt_add_one_iff.mp (by exact_mod_cast less)
    rw [← close.whole_canonical]
    apply r.length_digits_le (Nat.succ_ne_zero bits)
    calc
      r.ofDigits e.whole ≤ 2 ^ bits := number
      _ < 2 ^ (bits + 1) := Nat.pow_lt_pow_succ (by decide)
      _ ≤ r.val ^ (bits + 1) := r.two_pow_le _
  · obtain ⟨n, count, up, value, -, -, rounds, made⟩ :=
      ofWhole_eq positive most (not_le.mp nonpos) r hood
    rw [ofExtFloat_eq_ite (ExtFloat.frac_ne_zero_of_value_pos positive), if_neg nonpos] at expanded
    obtain rfl := Except.ok.inj (made.symm.trans expanded)
    have number : n < 2 ^ bits := by
      rw [value] at small
      exact_mod_cast small
    exact (length_roundedDigits_le rounds.leading up).trans
      (Nat.succ_le_succ (r.length_digits_le nonzero (number.trans_le (r.two_pow_le bits))))

end Expansion

namespace FloatText

theorem ofEstimate_of_expanded {e : Expansion}
    (expanded : Expansion.ofExtFloat x hood r = .ok e) (log : Int) :
    ofEstimate x hood r log = e.layout r x.size log := by
  simp only [ofEstimate, expanded, bind, Except.bind]

/-- No promise is broken exactly where the bits of a fraction have room and a
tiny number keeps a digit behind the point. -/
theorem ofEstimate_ne_broken_iff {log : Int} (nonzero : x.frac ≠ 0)
    (least : 2 ^ (-1074 : ℤ) ≤ x.value) (most : x.value < 2 ^ 1024) (deep : -1088 ≤ hood.below) :
    (∀ p, ofEstimate x hood r log ≠ .error (.broken p)) ↔
      (x.exp ≤ 0 → Expansion.HasRoom x hood) ∧
      (x.size = .tiny → ∀ e, Expansion.ofExtFloat x hood r = .ok e → e.fraction ≠ []) := by
  constructor
  · intro kept
    refine ⟨?_, ?_⟩
    · intro nonpos
      by_contra room
      apply kept .shiftInRange
      rw [ofEstimate, Expansion.ofExtFloat_eq_ite nonzero, if_pos nonpos,
        Expansion.ofFractional_of_not_hasRoom room]
      rfl
    · intro tiny e expanded empty
      have broken : e.layoutTiny r log = .error (.broken .fractionDigits) := by
        rw [Expansion.layoutTiny, Precondition.require_of_broken _ (not_not.mpr empty)]
        rfl
      have laidOut := ofEstimate_of_expanded expanded log
      rw [tiny] at laidOut
      exact kept _ (laidOut.trans broken)
  · rintro ⟨room, nonempty⟩ p broken
    obtain ⟨e, expanded, close⟩ := Expansion.ofExtFloat_isClose least most deep room r
    rw [ofEstimate_of_expanded expanded] at broken
    cases kind : x.size with
    | tiny =>
        obtain ⟨t, made, -⟩ := close.layoutTiny_isWellFormed (nonempty kind e expanded) log
        rw [kind] at broken
        cases made.symm.trans broken
    | moderate =>
        rw [kind] at broken
        cases broken
    | huge =>
        rw [kind] at broken
        cases broken

/-- In any neighbourhood, unless a promise is broken, there is a text whose parts
fit together. -/
theorem exists_isWellFormed {log : Int} (least : 2 ^ (-1074 : ℤ) ≤ x.value)
    (most : x.value < 2 ^ 1024) (deep : -1088 ≤ hood.below)
    (kept : ∀ p, ofEstimate x hood r log ≠ .error (.broken p)) :
    ∃ (e : Expansion) (t : FloatText), Expansion.ofExtFloat x hood r = .ok e ∧
      e.IsClose r x hood ∧ ofEstimate x hood r log = .ok t ∧ t.IsWellFormed := by
  have positive : 0 < x.value := lt_of_lt_of_le (by positivity) least
  obtain ⟨room, nonempty⟩ := (ofEstimate_ne_broken_iff
    (ExtFloat.frac_ne_zero_of_value_pos positive) least most deep).mp kept
  obtain ⟨e, expanded, close⟩ := Expansion.ofExtFloat_isClose least most deep room r
  suffices laidOut : ∃ t, e.layout r x.size log = .ok t ∧ t.IsWellFormed by
    obtain ⟨t, made, wellFormed⟩ := laidOut
    exact ⟨e, t, expanded, close, (ofEstimate_of_expanded expanded log).trans made, wellFormed⟩
  cases kind : x.size with
  | tiny =>
      obtain ⟨t, made, -, -, wellFormed⟩ :=
        close.layoutTiny_isWellFormed (nonempty kind e expanded) log
      exact ⟨t, made, wellFormed⟩
  | moderate =>
      have small := ExtFloat.lt_two_pow_of_size_eq_moderate kind
      have few := Expansion.length_whole_le (by decide) positive most small expanded close
      exact ⟨_, rfl, close.layoutFixed_isWellFormed (few.trans (by decide))⟩
  | huge => exact ⟨_, rfl, close.layoutHuge_isWellFormed⟩

/-- In any neighbourhood, unless a promise is broken, a text is read as a number
that exceeds the float by less than the reach above. It falls short of the float
by less than the reach below and one unit of the last place in the window, and
by less than the reach below if all digits fit in the window. -/
theorem text_within_any_neighbourhood {log : Int} (c : LetterCase) (nonzero : x.frac ≠ 0)
    (least : 2 ^ (-1074 : ℤ) ≤ x.value) (most : x.value < 2 ^ 1024) (deep : -1088 ≤ hood.below)
    (estimate : x.value < 1 → |log - Int.log r.val x.value| ≤ 1)
    (kept : ∀ p, ofEstimate x hood r log ≠ .error (.broken p)) :
    ∃ (e : Expansion) (t : FloatText) (reading : Reading),
      Expansion.ofExtFloat x hood r = .ok e ∧ ofEstimate x hood r log = .ok t ∧ t.radix = r ∧
      r.readFloat? (t.chars c) = some reading ∧
      x.value - hood.reachBelow - t.windowUnit < reading.value r ∧
      reading.value r < x.value + hood.reachAbove ∧
      (e.FitsWindow t.isScientific → x.value - hood.reachBelow < reading.value r) := by
  have positive : 0 < x.value := lt_of_lt_of_le (by positivity) least
  obtain ⟨room, nonempty⟩ := (ofEstimate_ne_broken_iff nonzero least most deep).mp kept
  obtain ⟨e, expanded, close⟩ := Expansion.ofExtFloat_isClose least most deep room r
  have laidOut := ofEstimate_of_expanded expanded log
  obtain ⟨t, made, cut⟩ :=
    close.layout_isCutOf positive (fun tiny => nonempty tiny e expanded) estimate
  have read := readFloat?_chars c ⟨10, Flags.none⟩ false cut.normal.lt_radix
    (Nat.lt_trans cut.exponent_lt (by decide))
  have value := t.value_reading_eq false
  rw [cut.radix] at read value
  have value' : (t.reading false).value r = t.value := value.trans (one_mul _)
  have below := close.below
  have above := close.above
  have le := cut.value_le
  have lt := cut.lt_add_windowUnit
  refine ⟨e, t, t.reading false, expanded, laidOut.trans made, cut.radix, read, ?_, ?_, ?_⟩
  · rw [value']
    linarith
  · rw [value']
    linarith
  · intro fits
    rw [value', cut.exact fits]
    exact below

/-- One half has no end in radix three. In a neighbourhood narrower than the
window its text falls short by what is cut off. -/
theorem half_in_narrow_neighbourhood :
    (⟨1, -1⟩ : ExtFloat).frac ≠ 0 ∧ 2 ^ (-1074 : ℤ) ≤ (⟨1, -1⟩ : ExtFloat).value ∧
    (⟨1, -1⟩ : ExtFloat).value < 2 ^ 1024 ∧ -1088 ≤ (⟨-130, false⟩ : Neighbourhood).below ∧
    ∃ (r : Radix) (t : FloatText) (reading : Reading), r.val = 3 ∧
      |(⟨1, -1⟩ : ExtFloat).logBelowOne r - Int.log r.val (⟨1, -1⟩ : ExtFloat).value| ≤ 1 ∧
      FloatText.ofExtFloat ⟨1, -1⟩ ⟨-130, false⟩ r = .ok t ∧
      r.readFloat? (t.chars .lower) = some reading ∧
      1 / 2 - 1 / 2 ^ 130 - 1 / 3 ^ 71 < reading.value r ∧
      reading.value r < 1 / 2 + 1 / 2 ^ 130 := by
  have word : (1 : UInt64).toNat = 1 := rfl
  have value : (⟨1, -1⟩ : ExtFloat).value = 1 / 2 := by
    rw [ExtFloat.value, word]
    norm_num
  have least : (2 : ℚ) ^ (-1074 : ℤ) ≤ (⟨1, -1⟩ : ExtFloat).value := by
    rw [value, one_div, ← zpow_neg_one]
    exact zpow_le_zpow_right₀ (by norm_num) (by decide)
  have most : (⟨1, -1⟩ : ExtFloat).value < 2 ^ 1024 := by
    have half : (1 : ℚ) / 2 < 1 := by norm_num
    rw [value]
    exact half.trans_le (one_le_pow₀ (by norm_num))
  have deep : -1088 ≤ (⟨-130, false⟩ : Neighbourhood).below := by decide
  have estimate := ExtFloat.abs_logBelowOne_sub_log_le ⟨3, by decide, by decide⟩ least
  have made : ofExtFloat ⟨1, -1⟩ ⟨-130, false⟩ ⟨3, by decide, by decide⟩ =
      .ok ⟨⟨3, by decide, by decide⟩, .fixed 1, 0 :: List.replicate 71 1⟩ := by decide +kernel
  have kept : ∀ p, ofExtFloat ⟨1, -1⟩ ⟨-130, false⟩ ⟨3, by decide, by decide⟩ ≠
      .error (.broken p) := by
    intro p broken
    cases made.symm.trans broken
  obtain ⟨e, t, reading, -, made', -, read, low, high, -⟩ :=
    text_within_any_neighbourhood .lower (by decide) least most deep estimate kept
  obtain rfl := Except.ok.inj (made.symm.trans made')
  have unit : (⟨⟨3, by decide, by decide⟩, .fixed 1, 0 :: List.replicate 71 1⟩ :
      FloatText).windowUnit = 1 / 3 ^ 71 := by
    rw [windowUnit_fixed]
    norm_num [Expansion.maxDigits]
  have reach : (2 : ℚ) ^ (-130 : ℤ) = 1 / 2 ^ 130 := by norm_num
  refine ⟨by decide, least, most, deep, ⟨3, by decide, by decide⟩, _, reading, rfl,
    estimate (by rw [value]; norm_num), made, read, ?_, ?_⟩
  · rw [value, unit] at low
    exact reach ▸ low
  · rw [value] at high
    exact reach ▸ high

end FloatText

end RadixText

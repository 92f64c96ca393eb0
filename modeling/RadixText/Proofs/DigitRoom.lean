import RadixText.Proofs.AnyNeighbourhood
import RadixText.Proofs.DigitRows

/-!
# Room for digits

The digits behind the point end where their cells do, and those of a word are
few. So only the digits of a whole float may leave the cells, and of those only
binary ones, as its bits have room for more of them than there are cells.
-/

namespace RadixText

/-- The operation does not ask for a digit outside the cells. -/
def KeepsRoom {α : Type} (x : Except Fault α) : Prop := x ≠ .error .digitRoom

namespace KeepsRoom

variable {α β : Type}

theorem ok (a : α) : KeepsRoom (.ok a) := by
  intro h
  cases h

theorem bind {x : Except Fault α} {f : α → Except Fault β} (h : KeepsRoom x)
    (next : ∀ a, KeepsRoom (f a)) : KeepsRoom (x >>= f) := by
  cases x with
  | ok a => exact next a
  | error e => exact fun left => h (congrArg Except.error (Except.error.inj left))

theorem bind_eq_iff {x : Except Fault α} {f : α → Except Fault β} (next : ∀ a, KeepsRoom (f a)) :
    x >>= f = .error .digitRoom ↔ x = .error .digitRoom := by
  cases x with
  | ok a => exact iff_of_false (next a) (ok a)
  | error e =>
      exact ⟨fun h => congrArg Except.error (Except.error.inj h),
        fun h => congrArg Except.error (Except.error.inj h)⟩

theorem require (p : Precondition) (kept : Prop) [Decidable kept] :
    KeepsRoom (p.require kept) := by
  rw [Precondition.require]
  split <;> simp [KeepsRoom]

theorem store (b : Bignum) (ws : List UInt64) : KeepsRoom (b.store ws) := by
  rw [Bignum.store]
  split <;> simp [KeepsRoom]

theorem ofShifted (w : UInt64) (bits : Nat) : KeepsRoom (Bignum.ofShifted w bits) :=
  (require _ _).bind fun _ => store _ _

theorem mul (b : Bignum) (factor : UInt32) : KeepsRoom (b.mul factor) :=
  (store _ _).bind fun _ => store _ _

theorem split (b : Bignum) (bits : Nat) : KeepsRoom (b.split bits) := by
  rw [Bignum.split]
  split
  case isTrue => exact ok _
  case isFalse => exact (require _ _).bind fun _ => (store _ _).bind fun _ => ok _

end KeepsRoom

namespace Expansion

variable {r : Radix} {x : ExtFloat} {hood : Neighbourhood} {n : Nat}

theorem keepsRoom_fractionDigits (r : Radix) (scale room : Nat) (s : Remainder)
    (found : List Nat) : KeepsRoom (fractionDigits r scale room s found) := by
  induction room generalizing s found with
  | zero => exact .ok _
  | succ room ih =>
      rw [fractionDigits]
      split
      case isTrue => exact .ok _
      case isFalse =>
        have next : KeepsRoom (s.next r scale) :=
          (KeepsRoom.mul _ _).bind fun _ => (KeepsRoom.mul _ _).bind fun _ =>
            (KeepsRoom.mul _ _).bind fun _ => (KeepsRoom.split _ _).bind fun _ => .ok _
        refine next.bind ?_
        rintro ⟨digit, s'⟩
        have roundsUp : KeepsRoom (s'.roundsUp scale digit) := by
          rw [Remainder.roundsUp]
          split
          case isTrue => exact (KeepsRoom.store _ _).bind fun _ => .ok _
          case isFalse => exact .ok _
        refine roundsUp.bind ?_
        intro up
        cases up with
        | true => exact .ok _
        | false => exact ih _ _

/-- The digits of a float with an exponent from zero down stay in the cells. -/
theorem keepsRoom_ofFractional (x : ExtFloat) (hood : Neighbourhood) (r : Radix) :
    KeepsRoom (ofFractional x hood r) :=
  (KeepsRoom.ofShifted _ _).bind fun _ => (KeepsRoom.ofShifted _ _).bind fun _ =>
    (KeepsRoom.ofShifted _ _).bind fun _ => (keepsRoom_fractionDigits _ _ _ _ _).bind fun _ =>
      .ok _

theorem keepsRoom_layout (e : Expansion) (r : Radix) (size : ExtFloat.Size) (log : Int) :
    KeepsRoom (e.layout r size log) := by
  cases size with
  | tiny => exact (KeepsRoom.require _ _).bind fun _ => .ok _
  | moderate => exact .ok _
  | huge => exact .ok _

namespace Rounds

variable {count count' : Nat} {up up' : Bool}

/-- Fewer digits fit if more do. -/
theorem fits_of_le (le : count ≤ count')
    (fits : FitsDown r hood n count' ∨ FitsUp r hood n count') :
    FitsDown r hood n count ∨ FitsUp r hood n count := by
  have split := Nat.div_add_mod' (n % r.val ^ count') (r.val ^ count)
  have divides : r.val ^ count ∣ r.val ^ count' := Nat.pow_dvd_pow _ le
  have low : n % r.val ^ count' % r.val ^ count = n % r.val ^ count := Nat.mod_mod_of_dvd n divides
  have less := Nat.mod_lt n (r.val_pow_pos count')
  obtain ⟨k, power⟩ := divides
  rcases fits with down | above
  · left
    rw [FitsDown] at down ⊢
    refine lt_of_le_of_lt ?_ down
    have le : n % r.val ^ count ≤ n % r.val ^ count' := low ▸ Nat.mod_le _ _
    exact_mod_cast le
  · right
    rw [FitsUp] at above ⊢
    refine lt_of_le_of_lt ?_ above
    have quotient : n % r.val ^ count' / r.val ^ count < k := by
      rw [Nat.div_lt_iff_lt_mul (r.val_pow_pos count), Nat.mul_comm, ← power]
      exact less
    have whole := Nat.mul_le_mul_right (r.val ^ count) quotient
    rw [Nat.mul_comm k, ← power, Nat.succ_mul] at whole
    rw [low] at split
    have le : r.val ^ count - n % r.val ^ count ≤ r.val ^ count' - n % r.val ^ count' := by omega
    exact_mod_cast le

theorem fits (h : Rounds r hood n count up) : FitsDown r hood n count ∨ FitsUp r hood n count := by
  cases up with
  | false => exact .inl (h.down rfl).1
  | true => exact .inr (h.up rfl).1

theorem count_le (h : Rounds r hood n count up) (h' : Rounds r hood n count' up') :
    count' ≤ count := by
  by_contra more
  rcases h.longest with last | ⟨down, above⟩
  · have power : r.val ^ (count + 1) ≤ r.val ^ count' :=
      Nat.pow_le_pow_right r.val_pos (by omega)
    have leading := h'.leading
    omega
  · rcases fits_of_le (show count + 1 ≤ count' by omega) h'.fits with fits | fits
    · exact down fits
    · exact above fits

/-- A number is rounded in one way only. -/
theorem unique (h : Rounds r hood n count up) (h' : Rounds r hood n count' up') :
    count = count' ∧ up = up' := by
  obtain rfl : count = count' := Nat.le_antisymm (h'.count_le h) (h.count_le h')
  refine ⟨rfl, ?_⟩
  have sides {up up' : Bool} (h : Rounds r hood n count up) (h' : Rounds r hood n count up')
      (down : up = false) (raised : up' = true) : False := by
    obtain ⟨fitsDown, less⟩ := h.down down
    obtain ⟨fitsUp, more⟩ := h'.up raised
    have prefersDown := less.resolve_left (not_not.mpr fitsUp)
    have prefersUp := more.resolve_left (not_not.mpr fitsDown)
    rw [PrefersDown] at prefersDown
    rw [PrefersUp] at prefersUp
    omega
  cases up with
  | false =>
      cases up' with
      | false => rfl
      | true => exact (sides h h' rfl rfl).elim
  | true =>
      cases up' with
      | false => exact (sides h' h rfl rfl).elim
      | true => rfl

end Rounds

/-- Rounding does not shorten a number. -/
theorem length_le_length_roundedDigits {count : Nat} (leading : r.val ^ count ≤ n) (up : Bool) :
    (r.digits n).length ≤ (roundedDigits r n count up).length := by
  have longer : (r.digits (n / r.val ^ count)).length ≤
      (r.digits (n / r.val ^ count + up.toNat)).length :=
    r.length_digits_mono (Nat.le_add_right _ _)
  have shorter := r.length_digits_div leading
  rw [roundedDigits, List.length_append, List.length_replicate]
  omega

/-- The rounded digits have places exactly if the rounded number is small. -/
theorem length_roundedDigits_le_iff {count places : Nat} (leading : r.val ^ count ≤ n) (up : Bool)
    (places_ne_zero : places ≠ 0) : (roundedDigits r n count up).length ≤ places ↔
      rounded r n count up < r.val ^ places := by
  have digits : r.digits (r.ofDigits (roundedDigits r n count up)) = roundedDigits r n count up :=
    digits_ofDigits_roundedDigits leading
  rw [ofDigits_roundedDigits] at digits
  rw [← digits]
  exact r.length_digits_le_iff places_ne_zero

theorem ofWhole_of_pow_le {b : Bignum} (made : Bignum.ofShifted x.frac x.exp.toNat = .ok b)
    (denotes : b.Denotes n) (many : r.val ^ places ≤ n) : ofWhole x hood r = .error .digitRoom := by
  simp only [ofWhole, made, wholeDigits_of_pow_le denotes many, bind, Except.bind]

/-- With room for its bits a whole float has digits exactly if there are places
for the rounded ones. -/
theorem ofWhole_eq_ite (nonzero : x.frac ≠ 0) (positive : 0 < x.exp) (room : x.exp < 1088)
    (r : Radix) (hood : Neighbourhood) : ∃ n count up, x.value = (n : ℕ) ∧ n < 2 ^ 1151 ∧
      Rounds r hood n count up ∧ ofWhole x hood r =
        if (roundedDigits r n count up).length ≤ places then .ok ⟨roundedDigits r n count up, []⟩
        else .error .digitRoom := by
  obtain ⟨b, made, denotes⟩ := Bignum.ofShifted_denotes x.frac x.exp.toNat
    (by simp only [Bignum.room]; omega)
  have n_lt : x.frac.toNat * 2 ^ x.exp.toNat < 2 ^ 1151 := by
    have bits : 64 + x.exp.toNat ≤ 1151 := by omega
    have less : x.frac.toNat * 2 ^ x.exp.toNat < 2 ^ 64 * 2 ^ x.exp.toNat :=
      Nat.mul_lt_mul_of_pos_right x.frac.toNat_lt (Nat.two_pow_pos _)
    rw [← pow_add] at less
    exact less.trans_le (pow_le_pow_right₀ one_le_two bits)
  have value := value_eq_natCast positive
  have n_ne : x.frac.toNat * 2 ^ x.exp.toNat ≠ 0 :=
    Nat.mul_ne_zero (ExtFloat.toNat_frac_pos nonzero).ne' (Nat.two_pow_pos _).ne'
  set n := x.frac.toNat * 2 ^ x.exp.toNat
  have small : n < Bignum.capacity := n_lt.trans_le (Bignum.two_pow_le_capacity (by decide))
  by_cases few : n < r.val ^ places
  · have found := wholeDigits_of_lt denotes few
    obtain ⟨count, up, rounds, done⟩ := roundWhole_eq_ite r hood n_ne small
      (r.length_digits_le (by decide) few)
    refine ⟨n, count, up, value, n_lt, rounds, ?_⟩
    by_cases fits : (roundedDigits r n count up).length ≤ places
    · simp only [ofWhole, made, found, done, if_pos fits, bind, Except.bind, pure, Except.pure]
    · simp only [ofWhole, made, found, done, if_neg fits, bind, Except.bind]
  · have many := Nat.le_of_not_lt few
    obtain ⟨-, -, run, up, -, -, -, -, -, rounds⟩ := exists_rounds r hood n_ne small
    have length : ¬ (roundedDigits r n run.count up).length ≤ places := by
      intro le
      have digits := (length_le_length_roundedDigits rounds.leading up).trans le
      exact few ((r.length_digits_le_iff (by decide)).mp digits)
    refine ⟨n, run.count, up, value, n_lt, rounds, ?_⟩
    rw [if_neg length, ofWhole_of_pow_le made denotes many]

/-- In all radixes but two the cells are enough for the digits of every number
whose bits have room, also with a carry. -/
theorem length_roundedDigits_le_places {count : Nat} (notTwo : r.val ≠ 2) (n_lt : n < 2 ^ 1151)
    (leading : r.val ^ count ≤ n) (up : Bool) : (roundedDigits r n count up).length ≤ places := by
  have three : 3 ≤ r.val := Nat.lt_of_le_of_ne r.two_le (Ne.symm notTwo)
  have power : 2 ^ 1151 ≤ 3 ^ 727 := by decide +kernel
  have digits : (r.digits n).length ≤ 727 := r.length_digits_le (by decide)
    (n_lt.trans_le (power.trans (pow_le_pow_left₀ (by decide) three 727)))
  calc
    (roundedDigits r n count up).length ≤ (r.digits n).length + 1 :=
      length_roundedDigits_le leading up
    _ ≤ 727 + 1 := Nat.succ_le_succ digits
    _ ≤ places := by decide

theorem ofWhole_eq_digitRoom_iff (nonzero : x.frac ≠ 0) (positive : 0 < x.exp) (r : Radix)
    (hood : Neighbourhood) : ofWhole x hood r = .error .digitRoom ↔
      r.val = 2 ∧ x.exp < 1088 ∧ ∃ n count up, x.value = (n : ℕ) ∧ Rounds r hood n count up ∧
        2 ^ places ≤ rounded r n count up := by
  by_cases room : x.exp < 1088
  · obtain ⟨n, count, up, value, n_lt, rounds, made⟩ :=
      ofWhole_eq_ite nonzero positive room r hood
    have fits := length_roundedDigits_le_iff rounds.leading up (show places ≠ 0 by decide)
    rw [made]
    constructor
    · intro outside
      have many : ¬ (roundedDigits r n count up).length ≤ places := by
        intro le
        rw [if_pos le] at outside
        cases outside
      have two : r.val = 2 := by
        by_contra notTwo
        exact many (length_roundedDigits_le_places notTwo n_lt rounds.leading up)
      rw [fits, two, not_lt] at many
      exact ⟨two, room, n, count, up, value, rounds, many⟩
    · rintro ⟨two, -, n', count', up', value', rounds', many⟩
      obtain rfl : n = n' := by exact_mod_cast value.symm.trans value'
      obtain ⟨rfl, rfl⟩ := rounds.unique rounds'
      rw [← two, ← not_lt, ← fits] at many
      rw [if_neg many]
  · have broken : ofWhole x hood r = .error (.broken .shiftInRange) := by
      rw [ofWhole, Bignum.ofShifted_of_not_room _ (by simp only [Bignum.room]; omega)]
      rfl
    rw [broken]
    simp [room]

end Expansion

namespace DigitCells

open Expansion (Rounds rounded places)

/-- The text is made in the cells as in lists, and no digit outside them is asked
for in between, unless the number is a whole one that is rounded to 1101 binary
digits or more and yet has room for its bits. -/
theorem leaves_cells_iff_binary (b : DigitCells) (x : ExtFloat) (hood : Neighbourhood) (r : Radix)
    (log : Int) : b.ofEstimate x hood r log = FloatText.ofEstimate x hood r log ∧
      (b.ofEstimate x hood r log = .error .digitRoom ↔
        x.frac ≠ 0 ∧ 0 < x.exp ∧ x.exp < 1088 ∧ r.val = 2 ∧ ∃ n count up, x.value = (n : ℕ) ∧
          Rounds r hood n count up ∧ 2 ^ places ≤ rounded r n count up) := by
  have lists := b.ofEstimate_eq x hood r log
  refine ⟨lists, ?_⟩
  rw [lists]
  by_cases nonzero : x.frac ≠ 0
  · rw [FloatText.ofEstimate,
      KeepsRoom.bind_eq_iff fun e => e.keepsRoom_layout r x.size log,
      Expansion.ofExtFloat_eq_ite nonzero]
    by_cases nonpos : x.exp ≤ 0
    · rw [if_pos nonpos]
      have kept : Expansion.ofFractional x hood r ≠ .error .digitRoom :=
        Expansion.keepsRoom_ofFractional x hood r
      simp only [kept, false_iff]
      rintro ⟨-, positive, -⟩
      omega
    · rw [if_neg nonpos, Expansion.ofWhole_eq_digitRoom_iff nonzero (not_le.mp nonpos)]
      constructor
      · rintro ⟨two, room, outside⟩
        exact ⟨nonzero, not_le.mp nonpos, room, two, outside⟩
      · rintro ⟨-, -, room, two, outside⟩
        exact ⟨two, room, outside⟩
  · have broken : FloatText.ofEstimate x hood r log = .error (.broken .nonzero) := by
      rw [FloatText.ofEstimate, Expansion.ofExtFloat, Precondition.require_of_broken _ nonzero]
      rfl
    rw [broken]
    simp [nonzero]

/-- A float of 1151 binary digits has room for its bits. No promise is broken
before its digits leave the cells. -/
theorem binary_number_leaves_cells : Word.topBit ≠ 0 ∧
    (2 : ℚ) ^ (-1074 : ℤ) ≤ (⟨Word.topBit, 1087⟩ : ExtFloat).value ∧
      DigitCells.ofEstimate ⟨fun _ => 0⟩ ⟨Word.topBit, 1087⟩ ⟨1086, false⟩
        ⟨2, by decide, by decide⟩ 0 = .error .digitRoom := by
  refine ⟨by decide, ?_, ?_⟩
  · rw [ExtFloat.value]
    calc
      (2 : ℚ) ^ (-1074 : ℤ) ≤ 1 * 2 ^ (1087 : ℤ) := by
        rw [one_mul]
        exact zpow_le_zpow_right₀ one_le_two (by decide)
      _ ≤ (Word.topBit.toNat : ℚ) * 2 ^ (1087 : ℤ) := by
        apply mul_le_mul_of_nonneg_right
        · exact_mod_cast (show 1 ≤ Word.topBit.toNat by decide)
        · exact zpow_nonneg zero_le_two _
  · obtain ⟨b, made, denotes⟩ := Bignum.ofShifted_denotes Word.topBit 1087 (by decide)
    have many : (⟨2, by decide, by decide⟩ : Radix).val ^ places ≤
        Word.topBit.toNat * 2 ^ 1087 := by decide +kernel
    rw [ofEstimate_eq, FloatText.ofEstimate, Expansion.ofExtFloat_eq_ite (by decide),
      if_neg (by decide), Expansion.ofWhole_of_pow_le made denotes many]
    rfl

end DigitCells

end RadixText

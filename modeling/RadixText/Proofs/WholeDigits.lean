import RadixText.Expansion.Whole
import RadixText.Proofs.Bignums
import RadixText.Proofs.Digits
import RadixText.Value

/-!
# Digits of a whole number

All digits are found, and the run of low digits that is rounded away denotes
the number modulo a power of the radix. The result stays within the reach on
the side to which the run is rounded, and no longer run would do so.
-/

namespace RadixText

/-- Comparison with any power of two is exact. Below one only zero is less. -/
theorem Bignum.comparePowerOfTwo_eq_lt_iff {b : Bignum} {n : Nat} (h : b.Denotes n) (e : Int) :
    b.comparePowerOfTwo e = .lt ↔ (n : ℚ) < 2 ^ e := by
  rcases lt_or_ge e 0 with negative | nonneg
  · rw [comparePowerOfTwo_denotes_of_neg h negative]
    by_cases zero : n = 0
    · simp only [zero, if_true, Nat.cast_zero, true_iff]
      positivity
    · have one : (1 : ℚ) ≤ n := by exact_mod_cast Nat.one_le_iff_ne_zero.mpr zero
      have power : (2 : ℚ) ^ e < 1 := zpow_lt_one_of_neg₀ (by norm_num) negative
      simp only [zero, if_false, reduceCtorEq, false_iff, not_lt]
      linarith
  · obtain ⟨k, rfl⟩ := Int.eq_ofNat_of_zero_le nonneg
    rw [comparePowerOfTwo_denotes h, Nat.compare_eq_lt, zpow_natCast]
    exact_mod_cast Iff.rfl

namespace Radix

variable (r : Radix)

/-- The low digits of a number from the lowest one on, without the leading
digit. -/
theorem dropLast_reverse_digits (n : Nat) :
    (r.digits n).reverse.dropLast =
      if n < r.val then [] else n % r.val :: (r.digits (n / r.val)).reverse.dropLast := by
  by_cases small : n < r.val
  · rw [if_pos small, r.digits_of_lt small]
    rfl
  · rw [if_neg small, r.digits_of_le (Nat.le_of_not_lt small), List.reverse_append,
      List.reverse_singleton, List.singleton_append,
      List.dropLast_cons_of_ne_nil (by simp [r.digits_ne_nil])]

/-- The lowest digit is the remainder of the division by the radix. -/
theorem headD_reverse_digits (n : Nat) : (r.digits n).reverse.headD 0 = n % r.val := by
  by_cases small : n < r.val
  · rw [r.digits_of_lt small, Nat.mod_eq_of_lt small]
    rfl
  · rw [r.digits_of_le (Nat.le_of_not_lt small), List.reverse_append]
    rfl

theorem drop_reverse_digits {n i : Nat} (h : r.val ^ i ≤ n) :
    (r.digits n).reverse.drop i = (r.digits (n / r.val ^ i)).reverse := by
  induction i generalizing n with
  | zero => simp
  | succ i ih =>
      rw [pow_succ] at h
      have further : r.val ^ i ≤ n / r.val := (Nat.le_div_iff_mul_le r.val_pos).mpr h
      have large : r.val ≤ n :=
        Nat.le_trans (Nat.le_mul_of_pos_left _ (r.val_pow_pos i)) h
      rw [r.digits_of_le large, List.reverse_append, List.reverse_singleton,
        List.singleton_append, List.drop_succ_cons, ih further, Nat.div_div_eq_div_mul, pow_succ,
        Nat.mul_comm]

theorem length_digits_succ_le (n : Nat) : (r.digits (n + 1)).length ≤ (r.digits n).length + 1 := by
  apply r.length_digits_le (Nat.succ_ne_zero _)
  have below := r.lt_pow_length_digits n
  have power := r.val_pow_pos (r.digits n).length
  have base := r.two_le
  rw [pow_succ]
  nlinarith

/-- A number with all its digits above a power of the radix has that many
digits more than its quotient. -/
theorem length_digits_div {n i : Nat} (h : r.val ^ i ≤ n) :
    (r.digits (n / r.val ^ i)).length + i = (r.digits n).length := by
  have lengths := congrArg List.length (r.drop_reverse_digits h)
  rw [List.length_drop, List.length_reverse, List.length_reverse] at lengths
  have positive := List.length_pos_of_ne_nil (r.digits_ne_nil (n / r.val ^ i))
  omega

end Radix

namespace Expansion

variable {r : Radix} {hood : Neighbourhood} {n : Nat}

/-- The digits of a number are found if there are enough places. -/
theorem wholeDigits_eq {room : Nat} {b : Bignum} (h : b.Denotes n)
    (enough : n < r.val ^ (room + 1)) (found : List Nat) :
    wholeDigits r (room + 1) b found = .ok (r.digits n ++ found) := by
  induction room generalizing n b found with
  | zero =>
      obtain ⟨quotient, digit, divided, quotientValue, digitValue⟩ :=
        Bignum.divMod_denotes h (UInt32.ofNat r.val)
          (by rw [r.toNat_ofNat32_val]; exact r.val_pos)
      rw [r.toNat_ofNat32_val] at quotientValue digitValue
      rw [zero_add, pow_one] at enough
      have last : quotient.size = 0 := by
        rw [quotientValue.size_eq_zero_iff, Nat.div_eq_of_lt enough]
      rw [wholeDigits, divided]
      change (if quotient.size = 0 then _ else _) = _
      rw [if_pos last, digitValue, Nat.mod_eq_of_lt enough, r.digits_of_lt enough]
      rfl
  | succ room ih =>
      obtain ⟨quotient, digit, divided, quotientValue, digitValue⟩ :=
        Bignum.divMod_denotes h (UInt32.ofNat r.val)
          (by rw [r.toNat_ofNat32_val]; exact r.val_pos)
      rw [r.toNat_ofNat32_val] at quotientValue digitValue
      rw [wholeDigits, divided]
      change (if quotient.size = 0 then _ else _) = _
      by_cases small : n < r.val
      · have last : quotient.size = 0 := by
          rw [quotientValue.size_eq_zero_iff, Nat.div_eq_of_lt small]
        rw [if_pos last, digitValue, Nat.mod_eq_of_lt small, r.digits_of_lt small]
        rfl
      · have large := Nat.le_of_not_lt small
        have more : quotient.size ≠ 0 := by
          have := Nat.div_pos large r.val_pos
          rw [ne_eq, quotientValue.size_eq_zero_iff]
          omega
        have shorter : n / r.val < r.val ^ (room + 1) := by
          rwa [Nat.div_lt_iff_lt_mul r.val_pos, ← pow_succ]
        rw [if_neg more, ih quotientValue shorter, digitValue, r.digits_of_le large,
          List.append_assoc, List.singleton_append]

theorem wholeDigits_of_lt {b : Bignum} (h : b.Denotes n) (few : n < r.val ^ places) :
    wholeDigits r places b [] = .ok (r.digits n) := by
  have all := wholeDigits_eq h few []
  rwa [List.append_nil] at all

/-- Without enough places the digits of a number are not found. -/
theorem wholeDigits_of_pow_le {room : Nat} {b : Bignum} (h : b.Denotes n)
    (few : r.val ^ room ≤ n) (found : List Nat) :
    wholeDigits r room b found = .error .digitRoom := by
  induction room generalizing n b found with
  | zero => rfl
  | succ room ih =>
      obtain ⟨quotient, digit, divided, quotientValue, -⟩ :=
        Bignum.divMod_denotes h (UInt32.ofNat r.val)
          (by rw [r.toNat_ofNat32_val]; exact r.val_pos)
      rw [r.toNat_ofNat32_val] at quotientValue
      have further : r.val ^ room ≤ n / r.val := by
        rwa [Nat.le_div_iff_mul_le r.val_pos, ← pow_succ]
      have more : quotient.size ≠ 0 := by
        have := Nat.lt_of_lt_of_le (r.val_pow_pos room) further
        rw [ne_eq, quotientValue.size_eq_zero_iff]
        omega
      rw [wholeDigits, divided]
      change (if quotient.size = 0 then _ else _) = _
      rw [if_neg more]
      exact ih quotientValue further _

/-- A run of low digits of a number. -/
structure Run.IsOf (run : Run) (r : Radix) (n : Nat) : Prop where
  value_denotes : run.value.Denotes (n % r.val ^ run.count)
  unit_denotes : run.unit.Denotes (r.val ^ run.count)
  leading : r.val ^ run.count ≤ n

/-- The low digits can be dropped within the reach below. -/
def FitsDown (r : Radix) (hood : Neighbourhood) (n count : Nat) : Prop :=
  ((n % r.val ^ count : ℕ) : ℚ) < hood.reachBelow

/-- The low digits can be completed to a unit within the reach above. -/
def FitsUp (r : Radix) (hood : Neighbourhood) (n count : Nat) : Prop :=
  ((r.val ^ count - n % r.val ^ count : ℕ) : ℚ) < hood.reachAbove

/-- The run is less than what it lacks to a unit, or as much behind an even digit. -/
def PrefersDown (r : Radix) (n count digit : Nat) : Prop :=
  n % r.val ^ count < r.val ^ count - n % r.val ^ count ∨
    n % r.val ^ count = r.val ^ count - n % r.val ^ count ∧ digit % 2 = 0

/-- The run is more than what it lacks to a unit, or as much behind an odd digit. -/
def PrefersUp (r : Radix) (n count digit : Nat) : Prop :=
  r.val ^ count - n % r.val ^ count < n % r.val ^ count ∨
    r.val ^ count - n % r.val ^ count = n % r.val ^ count ∧ digit % 2 = 1

namespace Run.IsOf

variable {run : Run}

theorem extend (h : run.IsOf r n) (more : r.val ^ (run.count + 1) ≤ n)
    (small : n < Bignum.capacity) :
    ∃ run', run.extend r (n / r.val ^ run.count % r.val) = .ok run' ∧ run'.IsOf r n ∧
      run'.count = run.count + 1 := by
  have radix := r.toNat_ofNat32_val
  have digit_lt : n / r.val ^ run.count % r.val < r.val := Nat.mod_lt _ r.val_pos
  have digit : (UInt32.ofNat (n / r.val ^ run.count % r.val)).toNat =
      n / r.val ^ run.count % r.val := by
    have := r.le_thirtySix
    rw [UInt32.toNat_ofNat']
    omega
  have unit : r.val ^ run.count * r.val ≤ n := by rwa [← pow_succ]
  have digits : r.val ^ run.count * (n / r.val ^ run.count % r.val) +
      n % r.val ^ run.count = n % r.val ^ (run.count + 1) := by
    rw [Nat.mod_pow_succ, Nat.add_comm]
  have total : n % r.val ^ (run.count + 1) ≤ n := Nat.mod_le _ _
  obtain ⟨share, mulDigit, shareValue⟩ := Bignum.mul_denotes h.unit_denotes
    (UInt32.ofNat (n / r.val ^ run.count % r.val)) (by
      rw [digit]
      exact Nat.lt_of_le_of_lt (Nat.le_trans (Nat.le_add_right _ _) (digits.trans_le total)) small)
  rw [digit] at shareValue
  obtain ⟨value, added, valueValue⟩ := Bignum.add_denotes shareValue h.value_denotes
    (digits.trans_le total |>.trans_lt small)
  obtain ⟨unit', mulUnit, unitValue⟩ := Bignum.mul_denotes h.unit_denotes
    (UInt32.ofNat r.val) (by rw [radix]; omega)
  rw [radix, ← pow_succ] at unitValue
  rw [digits] at valueValue
  refine ⟨⟨run.count + 1, value, unit'⟩, ?_, ⟨valueValue, unitValue, more⟩, rfl⟩
  rw [Run.extend, mulDigit]
  change (share.add run.value >>= _) = _
  rw [added]
  change (run.unit.mul _ >>= _) = _
  rw [mulUnit]
  rfl

theorem mayDrop_iff (h : run.IsOf r n) : run.mayDrop hood = true ↔ FitsDown r hood n run.count := by
  rw [mayDrop, beq_iff_eq, Bignum.comparePowerOfTwo_eq_lt_iff h.value_denotes]
  rfl

theorem complement (h : run.IsOf r n) : ∃ rest, run.complement = .ok rest ∧
    rest.Denotes (r.val ^ run.count - n % r.val ^ run.count) :=
  Bignum.sub_denotes h.unit_denotes h.value_denotes
    (Nat.le_of_lt (Nat.mod_lt _ (r.val_pow_pos _)))

theorem isNegligible (h : run.IsOf r n) (hood : Neighbourhood) :
    ∃ b, run.isNegligible hood = .ok b ∧
      (b = true ↔ FitsDown r hood n run.count ∨ FitsUp r hood n run.count) := by
  rw [Run.isNegligible]
  cases drop : run.mayDrop hood with
  | true => exact ⟨true, rfl, by simp [h.mayDrop_iff.mp drop]⟩
  | false =>
      obtain ⟨rest, subtracted, value⟩ := h.complement
      have keep : ¬ FitsDown r hood n run.count := by
        intro down
        rw [h.mayDrop_iff.mpr down] at drop
        cases drop
      refine ⟨_, by simp only [Bool.false_eq_true, if_false, subtracted]; rfl, ?_⟩
      rw [beq_iff_eq, Bignum.comparePowerOfTwo_eq_lt_iff value]
      exact (or_iff_right keep).symm

/-- The longest negligible run is one, or is the given one, and the next
longer run is not or would hold the leading digit. -/
theorem longest {digits : List Nat} (h : run.IsOf r n) (hood : Neighbourhood)
    (small : n < Bignum.capacity)
    (rest : digits = (r.digits (n / r.val ^ run.count)).reverse.dropLast) :
    ∃ run', Run.longest r hood digits run = .ok run' ∧ run'.IsOf r n ∧
      (run'.count = run.count ∨ FitsDown r hood n run'.count ∨ FitsUp r hood n run'.count) ∧
      (n < r.val ^ (run'.count + 1) ∨
        ¬ FitsDown r hood n (run'.count + 1) ∧ ¬ FitsUp r hood n (run'.count + 1)) := by
  induction digits generalizing run with
  | nil =>
      rw [r.dropLast_reverse_digits] at rest
      split at rest
      case isTrue last =>
        rw [Nat.div_lt_iff_lt_mul (r.val_pow_pos _), Nat.mul_comm, ← pow_succ] at last
        exact ⟨run, rfl, h, .inl rfl, .inl last⟩
      case isFalse => exact absurd rest (by simp)
  | cons digit digits ih =>
      rw [r.dropLast_reverse_digits] at rest
      split at rest
      case isTrue => exact absurd rest (by simp)
      case isFalse more =>
        obtain ⟨rfl, others⟩ := List.cons.inj rest
        rw [Nat.div_lt_iff_lt_mul (r.val_pow_pos _), Nat.mul_comm, ← pow_succ] at more
        obtain ⟨extended, extends_, isOf, count⟩ := h.extend (Nat.le_of_not_lt more) small
        obtain ⟨b, decided, negligible⟩ := isOf.isNegligible hood
        rw [count] at negligible
        rw [Run.longest, extends_]
        change ∃ run', (extended.isNegligible hood >>= _) = _ ∧ _
        rw [decided]
        cases b with
        | true =>
            rw [Nat.div_div_eq_div_mul, ← pow_succ, ← count] at others
            obtain ⟨run', done, isOf', nonempty, most⟩ := ih isOf others
            refine ⟨run', done, isOf', .inr ?_, most⟩
            rcases nonempty with same | nonempty
            · rw [same, count]
              exact negligible.mp rfl
            · exact nonempty
        | false => exact ⟨run, rfl, h, .inl rfl, .inr (by simpa using negligible)⟩

/-- A negligible run is rounded to the side where it fits. Where it fits on
both, the nearer one wins, and on a tie that of the even digit. -/
theorem roundsUp (h : run.IsOf r n) (digit : Nat)
    (negligible : FitsDown r hood n run.count ∨ FitsUp r hood n run.count) :
    ∃ up, run.roundsUp hood digit = .ok up ∧
      (up = false → FitsDown r hood n run.count ∧
        (¬ FitsUp r hood n run.count ∨ PrefersDown r n run.count digit)) ∧
      (up = true → FitsUp r hood n run.count ∧
        (¬ FitsDown r hood n run.count ∨ PrefersUp r n run.count digit)) := by
  obtain ⟨rest, subtracted, value⟩ := h.complement
  have downFits : run.mayDrop hood = true ↔ FitsDown r hood n run.count := h.mayDrop_iff
  have upFits : (rest.comparePowerOfTwo hood.above == .lt) = true ↔ FitsUp r hood n run.count := by
    rw [beq_iff_eq, Bignum.comparePowerOfTwo_eq_lt_iff value]
    rfl
  have order := Bignum.compare_denotes h.value_denotes value
  simp only [Run.roundsUp, subtracted, order, bind, Except.bind, pure, Except.pure]
  rw [PrefersDown, PrefersUp]
  cases cmp : Ord.compare (n % r.val ^ run.count) (r.val ^ run.count - n % r.val ^ run.count) with
  | eq =>
      rw [Nat.compare_eq_eq] at cmp
      refine ⟨_, rfl, ?_, ?_⟩ <;> split <;> intro chosen <;> grind
  | lt =>
      rw [Nat.compare_eq_lt] at cmp
      refine ⟨_, rfl, ?_, ?_⟩ <;> intro chosen <;> grind
  | gt =>
      rw [Nat.compare_eq_gt] at cmp
      refine ⟨_, rfl, ?_, ?_⟩ <;> intro chosen <;> grind

end Run.IsOf

/-- Raising the lowest digit adds one. -/
theorem raiseLowest_digits (r : Radix) (n : Nat) :
    raiseLowest r (r.digits n).reverse = (r.digits (n + 1)).reverse := by
  fun_induction r.digits n with
  | case1 n small =>
      rw [List.reverse_singleton, raiseLowest]
      by_cases room : n + 1 < r.val
      · rw [if_pos room, r.digits_of_lt room]
        rfl
      · have carried : n + 1 = r.val := by omega
        rw [if_neg room, carried, r.digits_of_le (Nat.le_refl _), Nat.div_self r.val_pos,
          Nat.mod_self, r.digits_of_lt r.one_lt_val]
        rfl
  | case2 n large ih =>
      have split := Nat.div_add_mod n r.val
      have digit := Nat.mod_lt n r.val_pos
      have larger : r.val ≤ n + 1 := by omega
      rw [List.reverse_append, List.reverse_singleton, List.singleton_append, raiseLowest,
        r.digits_of_le larger, List.reverse_append, List.reverse_singleton,
        List.singleton_append]
      by_cases room : n % r.val + 1 < r.val
      · have sum : n + 1 = r.val * (n / r.val) + (n % r.val + 1) := by omega
        rw [if_pos room, sum, Nat.mul_add_div r.val_pos, Nat.mul_add_mod,
          Nat.div_eq_of_lt room, Nat.mod_eq_of_lt room,
          Nat.add_zero (n / r.val)]
      · have sum : n + 1 = r.val * (n / r.val + 1) := by
          rw [Nat.mul_add]
          omega
        rw [if_neg room, ih, sum, Nat.mul_div_cancel_left _ r.val_pos, Nat.mul_mod_right]

/-- How the low digits of a number are rounded away. -/
structure Rounds (r : Radix) (hood : Neighbourhood) (n count : Nat) (up : Bool) : Prop where
  leading : r.val ^ count ≤ n
  down : up = false → FitsDown r hood n count ∧
    (¬ FitsUp r hood n count ∨ PrefersDown r n count (n / r.val ^ count % r.val))
  up : up = true → FitsUp r hood n count ∧
    (¬ FitsDown r hood n count ∨ PrefersUp r n count (n / r.val ^ count % r.val))
  longest : n < r.val ^ (count + 1) ∨
    ¬ FitsDown r hood n (count + 1) ∧ ¬ FitsUp r hood n (count + 1)

/-- The digits of a quotient or the next number, with zeros behind. -/
def roundedDigits (r : Radix) (n count : Nat) (up : Bool) : List Nat :=
  r.digits (n / r.val ^ count + up.toNat) ++ List.replicate count 0

theorem length_roundedDigits_le {count : Nat} (leading : r.val ^ count ≤ n) (up : Bool) :
    (roundedDigits r n count up).length ≤ (r.digits n).length + 1 := by
  have shorter := r.length_digits_div leading
  have carried := r.length_digits_succ_le (n / r.val ^ count)
  rw [roundedDigits, List.length_append, List.length_replicate]
  cases up with
  | true =>
      rw [Bool.toNat_true]
      omega
  | false =>
      rw [Bool.toNat_false, Nat.add_zero]
      omega

/-- A run of low digits is chosen, and the side to which it is rounded. -/
theorem exists_rounds (r : Radix) (hood : Neighbourhood) (nonzero : n ≠ 0)
    (small : n < Bignum.capacity) : ∃ zero one run up,
      Bignum.ofWord 0 = .ok zero ∧ Bignum.ofWord 1 = .ok one ∧
      Run.longest r hood (r.digits n).reverse.dropLast ⟨0, zero, one⟩ = .ok run ∧
      (run.count = 0 → up = false) ∧
      (run.count ≠ 0 →
        run.roundsUp hood (((r.digits n).reverse.drop run.count).headD 0) = .ok up) ∧
      Rounds r hood n run.count up := by
  obtain ⟨zero, zeroMade, zeroValue⟩ := Bignum.ofWord_denotes 0
  obtain ⟨one, oneMade, oneValue⟩ := Bignum.ofWord_denotes 1
  have start : (⟨0, zero, one⟩ : Run).IsOf r n :=
    ⟨by simpa [Nat.mod_one] using zeroValue, by simpa using oneValue,
      by simpa using Nat.one_le_iff_ne_zero.mpr nonzero⟩
  obtain ⟨run, found, isOf, nonempty, most⟩ := start.longest hood small
    (show (r.digits n).reverse.dropLast = _ by simp)
  by_cases empty : run.count = 0
  · have fits : FitsDown r hood n 0 := by
      simp only [FitsDown, pow_zero, Nat.mod_one, Nat.cast_zero, Neighbourhood.reachBelow]
      positivity
    have less : PrefersDown r n 0 (n / r.val ^ 0 % r.val) := by
      left
      rw [pow_zero, Nat.mod_one]
      decide
    refine ⟨zero, one, run, false, zeroMade, oneMade, found, fun _ => rfl,
      fun more => absurd empty more, isOf.leading, ?_, by simp, most⟩
    rw [empty]
    exact fun _ => ⟨fits, .inr less⟩
  · have negligible := nonempty.resolve_left empty
    obtain ⟨up, decided, down, raised⟩ := isOf.roundsUp
      (((r.digits n).reverse.drop run.count).headD 0) negligible
    rw [r.drop_reverse_digits isOf.leading, r.headD_reverse_digits] at down raised
    exact ⟨zero, one, run, up, zeroMade, oneMade, found, fun zero => absurd zero empty,
      fun _ => decided, isOf.leading, down, raised, most⟩

/-- The digits of a number are rounded within the reaches of the neighbourhood,
if there are enough places for the result. -/
theorem roundWhole_eq_ite (r : Radix) (hood : Neighbourhood) (nonzero : n ≠ 0)
    (small : n < Bignum.capacity) (length : (r.digits n).length ≤ places) :
    ∃ count up, Rounds r hood n count up ∧ roundWhole r hood (r.digits n) =
      if (roundedDigits r n count up).length ≤ places then .ok (roundedDigits r n count up)
      else .error .digitRoom := by
  obtain ⟨zero, one, run, up, zeroMade, oneMade, found, kept, decided, rounds⟩ :=
    exists_rounds r hood nonzero small
  refine ⟨run.count, up, rounds, ?_⟩
  simp only [roundWhole, zeroMade, oneMade, found, bind, Except.bind, pure, Except.pure]
  by_cases empty : run.count = 0
  · have digits : roundedDigits r n run.count up = r.digits n := by
      simp [roundedDigits, empty, kept empty]
    rw [if_pos empty, digits, if_pos length]
  · have raised : (if up = true then raiseLowest r ((r.digits n).reverse.drop run.count)
        else (r.digits n).reverse.drop run.count) =
          (r.digits (n / r.val ^ run.count + up.toNat)).reverse := by
      rw [r.drop_reverse_digits rounds.leading]
      cases up with
      | true => exact raiseLowest_digits r _
      | false => rfl
    rw [if_neg empty, decided empty]
    simp only [raised, List.reverse_reverse]
    rfl

/-- With one place to spare there are enough. -/
theorem roundWhole_eq (r : Radix) (hood : Neighbourhood) (nonzero : n ≠ 0)
    (small : n < Bignum.capacity) (length : (r.digits n).length + 1 ≤ places) :
    ∃ count up, Rounds r hood n count up ∧
      roundWhole r hood (r.digits n) = .ok (roundedDigits r n count up) := by
  obtain ⟨count, up, rounds, made⟩ := roundWhole_eq_ite r hood nonzero small
    (Nat.le_trans (Nat.le_succ _) length)
  refine ⟨count, up, rounds, ?_⟩
  rw [made, if_pos (Nat.le_trans (length_roundedDigits_le rounds.leading up) length)]

end Expansion

end RadixText

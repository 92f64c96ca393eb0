import Mathlib.Tactic.Linarith
import Mathlib.Tactic.Ring
import RadixText.Expansion.Fraction
import RadixText.Proofs.Bignums
import RadixText.Proofs.Digits

/-!
# Digits of a fraction

After some digits the remainder holds what they leave of the fraction, and the
reaches have grown by the same power of the radix. The digits end at the first
place where they leave less than the reach below, or where the last one can be
rounded up within the reach above. Rounded up they exceed the fraction by less
than one unit of the last place.
-/

namespace RadixText.Expansion

variable {r : Radix} {scale fraction above below : Nat}

/-- What the digits up to a place leave of a fraction that is scaled by a power
of two. -/
def restAt (r : Radix) (scale fraction place : Nat) : Nat :=
  fraction * r.val ^ place % 2 ^ scale

/-- The digits up to a place, as a number. -/
def digitsAt (r : Radix) (scale fraction place : Nat) : Nat :=
  fraction * r.val ^ place / 2 ^ scale

/-- The digits up to a place leave less than the reach below. -/
def SpentAt (r : Radix) (scale fraction below place : Nat) : Prop :=
  restAt r scale fraction place < below * r.val ^ place

/-- The digits up to a place leave more than a half, or a half behind an odd
digit, and the reach above goes beyond the next digit. -/
def RaisedAt (r : Radix) (scale fraction above place : Nat) : Prop :=
  (2 ^ scale < 2 * restAt r scale fraction place ∨
      2 ^ scale = 2 * restAt r scale fraction place ∧
        digitsAt r scale fraction place % r.val % 2 = 1) ∧
    2 ^ scale < restAt r scale fraction place + above * r.val ^ place

/-- What is left after some digits, in reverse, of a fraction that is scaled by
a power of two together with its reaches. -/
structure Remainder.Follows (s : Remainder) (r : Radix) (scale fraction above below : Nat)
    (found : List Nat) : Prop where
  rest_denotes : s.rest.Denotes (restAt r scale fraction found.length)
  above_denotes : s.above.Denotes (above * r.val ^ found.length)
  below_denotes : s.below.Denotes (below * r.val ^ found.length)
  digits : r.ofDigits found.reverse = digitsAt r scale fraction found.length
  lt_radix : ∀ d ∈ found, d < r.val
  unspent : ∀ k < found.length, ¬ SpentAt r scale fraction below k

/-- The first place at which the digits of a fraction may end. -/
structure StopsAt (r : Radix) (scale fraction above below place : Nat) (up : Bool) : Prop where
  unspent : ∀ k < place, ¬ SpentAt r scale fraction below k
  unraised : ∀ k < place, 0 < k → ¬ RaisedAt r scale fraction above k
  down : up = false → SpentAt r scale fraction below place ∧
    (0 < place → ¬ RaisedAt r scale fraction above place)
  up : up = true → 0 < place ∧ RaisedAt r scale fraction above place

/-- The number of digits in reverse and a carry in front of them, in units of
the last place. -/
def scaledValue (r : Radix) (result : List Nat × Bool) : Nat :=
  result.2.toNat * r.val ^ result.1.length + r.ofDigits result.1.reverse

/-- The digits are those up to a place, the last one possibly rounded up. Then
zeros at the end may be missing, and the last digit is not zero. -/
structure EndsAt (r : Radix) (scale fraction above below : Nat) (result : List Nat × Bool)
    (place : Nat) (up : Bool) : Prop where
  stops : StopsAt r scale fraction above below place up
  lt_radix : ∀ d ∈ result.1, d < r.val
  length_le : result.1.length ≤ place
  value : scaledValue r result * r.val ^ (place - result.1.length) =
    digitsAt r scale fraction place + up.toNat
  down : up = false → result.1.length = place ∧ result.2 = false
  up : up = true → result.1.head? ≠ some 0

/-- Digits that leave less of the fraction than the reach below and than one
unit of the last place. -/
def RoundedDown (r : Radix) (scale fraction below : Nat) (result : List Nat × Bool) : Prop :=
  scaledValue r result * 2 ^ scale ≤ fraction * r.val ^ result.1.length ∧
    fraction * r.val ^ result.1.length <
      scaledValue r result * 2 ^ scale + below * r.val ^ result.1.length ∧
    fraction * r.val ^ result.1.length < (scaledValue r result + 1) * 2 ^ scale

/-- Digits that exceed the fraction by less than the reach above and than one
unit of the last place. The last of them is not zero. -/
def RoundedUp (r : Radix) (scale fraction above : Nat) (result : List Nat × Bool) : Prop :=
  fraction * r.val ^ result.1.length < scaledValue r result * 2 ^ scale ∧
    scaledValue r result * 2 ^ scale < (fraction + above) * r.val ^ result.1.length ∧
    scaledValue r result * 2 ^ scale < fraction * r.val ^ result.1.length + 2 ^ scale ∧
    result.1.head? ≠ some 0

section Places

variable {place : Nat} {up : Bool} {result : List Nat × Bool}

theorem restAt_lt (r : Radix) (scale fraction place : Nat) :
    restAt r scale fraction place < 2 ^ scale :=
  Nat.mod_lt _ (Nat.two_pow_pos scale)

/-- The digits up to a place and what they leave make up the fraction. -/
theorem digitsAt_add_restAt (r : Radix) (scale fraction place : Nat) :
    digitsAt r scale fraction place * 2 ^ scale + restAt r scale fraction place =
      fraction * r.val ^ place :=
  Nat.div_add_mod' _ _

/-- One more place holds the digits before, and what was left times the radix. -/
theorem fraction_mul_pow_succ (r : Radix) (scale fraction place : Nat) :
    fraction * r.val ^ (place + 1) = restAt r scale fraction place * r.val +
      2 ^ scale * (digitsAt r scale fraction place * r.val) := by
  rw [pow_succ, ← Nat.mul_assoc, ← digitsAt_add_restAt r scale]
  ring

theorem restAt_succ (r : Radix) (scale fraction place : Nat) :
    restAt r scale fraction (place + 1) =
      restAt r scale fraction place * r.val % 2 ^ scale := by
  rw [restAt, fraction_mul_pow_succ r scale, Nat.add_mul_mod_self_left]

theorem digitsAt_succ (r : Radix) (scale fraction place : Nat) :
    digitsAt r scale fraction (place + 1) = digitsAt r scale fraction place * r.val +
      restAt r scale fraction place * r.val / 2 ^ scale := by
  rw [digitsAt, fraction_mul_pow_succ r scale, Nat.add_mul_div_left _ _ (Nat.two_pow_pos scale),
    Nat.add_comm]

theorem RaisedAt.restAt_pos (h : RaisedAt r scale fraction above place) :
    0 < restAt r scale fraction place := by
  have power := Nat.two_pow_pos scale
  rcases h.1 with more | ⟨half, -⟩ <;> omega

/-- At a place that is not spent the reach below is less than one. -/
theorem below_mul_pow_lt (unspent : ¬ SpentAt r scale fraction below place) :
    below * r.val ^ place < 2 ^ scale :=
  Nat.lt_of_le_of_lt (Nat.le_of_not_lt unspent) (restAt_lt r scale fraction place)

namespace EndsAt

theorem needed (h : EndsAt r scale fraction above below result place up) {k : Nat}
    (lt : k < result.1.length) : below * r.val ^ k < 2 ^ scale :=
  below_mul_pow_lt (h.stops.unspent k (Nat.lt_of_lt_of_le lt h.length_le))

/-- Digits that leave a remainder below the reach are rounded down. -/
theorem roundedDown (h : EndsAt r scale fraction above below result place false) :
    RoundedDown r scale fraction below result := by
  have length := (h.down rfl).1
  have value := h.value
  have spent := (h.stops.down rfl).1
  have split := digitsAt_add_restAt r scale fraction place
  have bound := restAt_lt r scale fraction place
  rw [length, Nat.sub_self, pow_zero, Nat.mul_one, Bool.toNat_false, Nat.add_zero] at value
  rw [SpentAt] at spent
  rw [RoundedDown, value, length, Nat.add_mul]
  refine ⟨?_, ?_, ?_⟩ <;> omega

/-- A digit that is rounded up exceeds the fraction by what is missing to a
full unit. -/
theorem roundedUp (h : EndsAt r scale fraction above below result place true) :
    RoundedUp r scale fraction above result := by
  have power : r.val ^ place = r.val ^ result.1.length * r.val ^ (place - result.1.length) := by
    rw [← pow_add, Nat.add_sub_cancel' h.length_le]
  have dropped := r.val_pow_pos (place - result.1.length)
  have raised := (h.stops.up rfl).2
  have positive := raised.restAt_pos
  have beyond := raised.2
  have split := digitsAt_add_restAt r scale fraction place
  have bound := restAt_lt r scale fraction place
  have total : scaledValue r result * 2 ^ scale * r.val ^ (place - result.1.length) =
      digitsAt r scale fraction place * 2 ^ scale + 2 ^ scale := by
    rw [Nat.mul_right_comm, h.value, Bool.toNat_true]
    ring
  have scaled : fraction * r.val ^ result.1.length * r.val ^ (place - result.1.length) =
      digitsAt r scale fraction place * 2 ^ scale + restAt r scale fraction place := by
    rw [split, power, Nat.mul_assoc]
  refine ⟨?_, ?_, ?_, h.up rfl⟩
  · apply Nat.lt_of_mul_lt_mul_right (a := r.val ^ (place - result.1.length))
    omega
  · apply Nat.lt_of_mul_lt_mul_right (a := r.val ^ (place - result.1.length))
    rw [total, Nat.mul_assoc, ← power, Nat.add_mul, ← split]
    omega
  · apply Nat.lt_of_mul_lt_mul_right (a := r.val ^ (place - result.1.length))
    have : 2 ^ scale ≤ 2 ^ scale * r.val ^ (place - result.1.length) :=
      Nat.le_mul_of_pos_right _ dropped
    rw [total, Nat.add_mul, scaled]
    omega

theorem rounded (h : EndsAt r scale fraction above below result place up) :
    RoundedDown r scale fraction below result ∨ RoundedUp r scale fraction above result := by
  cases up with
  | false => exact .inl h.roundedDown
  | true => exact .inr h.roundedUp

/-- Without a fraction there is no carry. -/
theorem carry_eq_false (h : EndsAt r scale 0 above below result place up) : result.2 = false := by
  cases up with
  | false => exact (h.down rfl).2
  | true =>
      have positive := (h.stops.up rfl).2.restAt_pos
      simp [restAt] at positive

end EndsAt

end Places

/-- Seven bits are free above every scale. -/
theorem two_pow_scale_mul_le (size : scale ≤ 1145) : 2 ^ scale * 128 ≤ Bignum.capacity := by
  have power := Bignum.two_pow_le_capacity (k := scale + 7) (by omega)
  rwa [pow_add] at power

/-- A fraction below one is a remainder after no digits. -/
theorem Remainder.follows_nil {s : Remainder} (rest : s.rest.Denotes fraction)
    (hAbove : s.above.Denotes above) (hBelow : s.below.Denotes below)
    (small : fraction < 2 ^ scale) : s.Follows r scale fraction above below [] where
  rest_denotes := by simpa [restAt, Nat.mod_eq_of_lt small] using rest
  above_denotes := by simpa using hAbove
  below_denotes := by simpa using hBelow
  digits := by simp [digitsAt, Nat.div_eq_of_lt small]
  lt_radix := by simp
  unspent := by simp

namespace Remainder.Follows

variable {s : Remainder} {found : List Nat}

theorem isSpent_iff (h : s.Follows r scale fraction above below found) :
    s.isSpent = true ↔ SpentAt r scale fraction below found.length := by
  rw [isSpent, Bignum.compare_denotes h.rest_denotes h.below_denotes, beq_iff_eq,
    Nat.compare_eq_lt, SpentAt]

/-- A remainder that is not spent gives a digit and the remainder behind it. -/
theorem next (h : s.Follows r scale fraction above below found) (left : s.isSpent = false)
    (reach : above ≤ 2 * below) (size : scale ≤ 1145) :
    ∃ digit s', s.next r scale = .ok (digit, s') ∧
      s'.Follows r scale fraction above below (digit :: found) := by
  have radix := r.toNat_ofNat32_val
  have largest := r.le_thirtySix
  have unspent : ¬ SpentAt r scale fraction below found.length := by
    rw [← h.isSpent_iff, left]
    exact Bool.false_ne_true
  have rest_lt := restAt_lt r scale fraction found.length
  have capacity := two_pow_scale_mul_le size
  have grown {n : Nat} (small : n < 2 * 2 ^ scale) :
      n * (UInt32.ofNat r.val).toNat < Bignum.capacity := by
    rw [radix]
    nlinarith
  have below_lt := below_mul_pow_lt unspent
  have above_le : above * r.val ^ found.length ≤ 2 * (below * r.val ^ found.length) := by
    rw [← Nat.mul_assoc]
    exact Nat.mul_le_mul_right _ reach
  obtain ⟨rest', mulRest, restValue⟩ := Bignum.mul_denotes h.rest_denotes _ (grown (by omega))
  obtain ⟨above', mulAbove, aboveValue⟩ := Bignum.mul_denotes h.above_denotes _ (grown (by omega))
  obtain ⟨below', mulBelow, belowValue⟩ := Bignum.mul_denotes h.below_denotes _ (grown (by omega))
  rw [radix] at restValue aboveValue belowValue
  rw [Nat.mul_assoc, ← pow_succ] at aboveValue belowValue
  obtain ⟨digit, rest'', split, digitValue, splitValue⟩ :=
    Bignum.split_denotes restValue scale (by rw [pow_add]; nlinarith)
  refine ⟨digit.toNat, ⟨rest'', above', below'⟩, ?_, ?_, aboveValue, belowValue, ?_, ?_, ?_⟩
  · rw [Remainder.next, mulRest]
    change (s.above.mul _ >>= _) = _
    rw [mulAbove]
    change (s.below.mul _ >>= _) = _
    rw [mulBelow]
    change (rest'.split scale >>= _) = _
    rw [split]
    rfl
  · rw [List.length_cons, restAt_succ]
    exact splitValue
  · rw [List.reverse_cons, Radix.ofDigits_concat, List.length_cons, digitsAt_succ, digitValue,
      h.digits]
  · intro d mem
    rcases List.mem_cons.mp mem with rfl | mem
    · rw [digitValue, Nat.div_lt_iff_lt_mul (Nat.two_pow_pos scale), Nat.mul_comm]
      exact Nat.mul_lt_mul_of_pos_left rest_lt r.val_pos
    · exact h.lt_radix d mem
  · intro k lt
    rcases Nat.lt_succ_iff_lt_or_eq.mp lt with lt | rfl
    · exact h.unspent k lt
    · exact unspent

/-- Whether a digit is rounded up and ends the fraction is decided exactly. -/
theorem roundsUp {digit : Nat} (h : s.Follows r scale fraction above below (digit :: found))
    (reach : above ≤ 2 * below) (positive : 0 < below) (size : scale ≤ 1145) :
    ∃ up, s.roundsUp scale digit = .ok up ∧
      (up = true ↔ RaisedAt r scale fraction above (found.length + 1)) := by
  have rest := h.rest_denotes
  have aboveValue := h.above_denotes
  have last : digitsAt r scale fraction (found.length + 1) % r.val = digit := by
    have digits := h.digits
    rw [List.reverse_cons, Radix.ofDigits_concat, List.length_cons] at digits
    rw [← digits, Nat.mul_add_mod_self_right, Nat.mod_eq_of_lt (h.lt_radix _ List.mem_cons_self)]
  rw [List.length_cons] at rest aboveValue
  have below_lt := below_mul_pow_lt (h.unspent found.length (by simp))
  have rest_lt := restAt_lt r scale fraction (found.length + 1)
  rw [RaisedAt, last]
  set n := restAt r scale fraction (found.length + 1)
  have fits : n + above * r.val ^ (found.length + 1) < Bignum.capacity := by
    have capacity := two_pow_scale_mul_le size
    have grown : above * r.val ^ (found.length + 1) ≤ 72 * (below * r.val ^ found.length) := by
      calc
        above * r.val ^ (found.length + 1) ≤ 2 * below * (r.val ^ found.length * 36) := by
          rw [pow_succ]
          exact Nat.mul_le_mul reach (Nat.mul_le_mul_left _ r.le_thirtySix)
        _ = 72 * (below * r.val ^ found.length) := by ring
    omega
  obtain ⟨sum, added, sumValue⟩ := Bignum.add_denotes rest aboveValue fits
  -- A positive reach below one leaves room for a half.
  have scale_pos : 1 ≤ scale := by
    by_contra small
    have zero : scale = 0 := by omega
    have := Nat.mul_pos positive (r.val_pow_pos found.length)
    rw [zero, pow_zero] at below_lt
    omega
  have doubled : 2 ^ scale = 2 * 2 ^ (scale - 1) := by
    rw [← pow_succ', Nat.sub_add_cancel scale_pos]
  have exponent : ((scale : Int) - 1) = ((scale - 1 : Nat) : Int) := by omega
  rw [Remainder.roundsUp]
  simp only [exponent, Bignum.comparePowerOfTwo_denotes rest, Nat.compare_eq_gt,
    Nat.compare_eq_eq]
  split
  case isTrue half =>
    refine ⟨_, by rw [added]; rfl, ?_⟩
    rw [Bignum.comparePowerOfTwo_denotes sumValue, beq_iff_eq, Nat.compare_eq_gt]
    omega
  case isFalse less =>
    refine ⟨false, rfl, ?_⟩
    simp only [Bool.false_eq_true, false_iff, not_and]
    omega

end Remainder.Follows

/-- Raising the last digit adds one unit of its place, whatever digits are
dropped. -/
theorem raiseLast_value {ds : List Nat} (below : ∀ d ∈ ds, d < r.val) :
    (raiseLast r ds).1.length ≤ ds.length ∧ (∀ d ∈ (raiseLast r ds).1, d < r.val) ∧
      (raiseLast r ds).1.head? ≠ some 0 ∧
      scaledValue r (raiseLast r ds) * r.val ^ (ds.length - (raiseLast r ds).1.length) =
        r.ofDigits ds.reverse + 1 := by
  induction ds with
  | nil => simp [raiseLast, scaledValue]
  | cons d ds ih =>
      have digit := below d List.mem_cons_self
      rw [raiseLast]
      by_cases room : d + 1 < r.val
      · rw [if_pos room]
        refine ⟨Nat.le_refl _, ?_, by simp, ?_⟩
        · intro e mem
          rcases List.mem_cons.mp mem with rfl | mem
          · exact room
          · exact below e (List.mem_cons_of_mem d mem)
        · simp only [scaledValue, Bool.toNat_false, List.reverse_cons, Radix.ofDigits_concat,
            List.length_cons, Nat.sub_self, pow_zero]
          ring
      · rw [if_neg room]
        obtain ⟨length, all, last, value⟩ := ih fun e mem => below e (List.mem_cons_of_mem d mem)
        refine ⟨Nat.le_succ_of_le length, all, last, ?_⟩
        have carried : d + 1 = r.val := by omega
        rw [List.length_cons, Nat.succ_sub length, pow_succ, ← Nat.mul_assoc, value,
          List.reverse_cons, Radix.ofDigits_concat, Nat.add_assoc, carried]
        ring

namespace Remainder.Follows

variable {s : Remainder} {found : List Nat}

/-- Digits that leave a remainder below the reach are the last ones. -/
theorem endsAt_of_isSpent (h : s.Follows r scale fraction above below found)
    (unraised : ∀ k ≤ found.length, 0 < k → ¬ RaisedAt r scale fraction above k)
    (spent : s.isSpent = true) :
    EndsAt r scale fraction above below (found, false) found.length false where
  stops := {
    unspent := h.unspent
    unraised := fun k lt => unraised k lt.le
    down := fun _ => ⟨h.isSpent_iff.mp spent, unraised _ (Nat.le_refl _)⟩
    up := by simp }
  lt_radix := h.lt_radix
  length_le := Nat.le_refl _
  value := by simp [scaledValue, h.digits]
  down := fun _ => ⟨rfl, rfl⟩
  up := by simp

/-- A digit that is rounded up is the last one. -/
theorem endsAt_raiseLast (h : s.Follows r scale fraction above below found)
    (length_pos : 0 < found.length)
    (unraised : ∀ k < found.length, 0 < k → ¬ RaisedAt r scale fraction above k)
    (raised : RaisedAt r scale fraction above found.length) :
    EndsAt r scale fraction above below (raiseLast r found) found.length true := by
  obtain ⟨length, all, last, value⟩ := raiseLast_value h.lt_radix
  exact {
    stops := ⟨h.unspent, unraised, by simp, fun _ => ⟨length_pos, raised⟩⟩
    lt_radix := all
    length_le := length
    value := by rw [value, h.digits, Bool.toNat_true]
    down := by simp
    up := fun _ => last }

end Remainder.Follows

/-- As long as the room is enough to tell the reach from one, the digits of a
fraction are found and end at the first place where they may. -/
theorem fractionDigits_endsAt (reach : above ≤ 2 * below) (positive : 0 < below)
    (size : scale ≤ 1145) {room : Nat} {s : Remainder} {found : List Nat}
    (h : s.Follows r scale fraction above below found)
    (unraised : ∀ k ≤ found.length, 0 < k → ¬ RaisedAt r scale fraction above k)
    (enough : 2 ^ scale ≤ below * r.val ^ (found.length + room)) :
    ∃ result place up, fractionDigits r scale room s found = .ok result ∧
      EndsAt r scale fraction above below result place up ∧ place ≤ found.length + room := by
  induction room generalizing s found with
  | zero =>
      have spent : s.isSpent = true := by
        rw [h.isSpent_iff]
        exact Nat.lt_of_lt_of_le (restAt_lt _ _ _ _) enough
      exact ⟨(found, false), _, _, rfl, h.endsAt_of_isSpent unraised spent, Nat.le_refl _⟩
  | succ room ih =>
      rw [fractionDigits]
      cases spent : s.isSpent with
      | true =>
          exact ⟨(found, false), _, _, rfl, h.endsAt_of_isSpent unraised spent,
            Nat.le_add_right _ _⟩
      | false =>
          obtain ⟨digit, s', step, follows⟩ := h.next spent reach size
          obtain ⟨up, decided, raised⟩ := follows.roundsUp reach positive size
          simp only [Bool.false_eq_true, if_false, step]
          change ∃ result place up, (s'.roundsUp scale digit >>= _) = _ ∧ _
          rw [decided]
          cases up with
          | true =>
              refine ⟨raiseLast r (digit :: found), _, _, rfl,
                follows.endsAt_raiseLast (Nat.succ_pos _) ?_ (raised.mp rfl), ?_⟩
              · intro k lt
                exact unraised k (Nat.le_of_lt_succ lt)
              · rw [List.length_cons]
                omega
          | false =>
              have length : (digit :: found).length = found.length + 1 := rfl
              obtain ⟨result, place, up, done, ends, le⟩ := ih follows (by
                intro k le
                rcases Nat.le_succ_iff.mp le with le | rfl
                · exact unraised k le
                · intro _ raised'
                  exact absurd (raised.mpr raised') Bool.false_ne_true) (by
                rwa [length, Nat.add_assoc, Nat.add_comm 1])
              refine ⟨result, place, up, done, ends, ?_⟩
              omega

end RadixText.Expansion

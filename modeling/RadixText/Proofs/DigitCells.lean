import RadixText.FloatText.DigitCells
import RadixText.Proofs.Agreement
import RadixText.Proofs.WholeDigits

/-!
# Digits in cells and in lists

Writing digits to cells and walking over them there does the same as working on
lists of digits, up to a digit for which there is no cell.
-/

namespace RadixText

namespace DigitCells

open Expansion (places)

variable {b : DigitCells} {r : Radix} {pos count : Nat}

theorem middle_add_places : middle + places = size := by decide

theorem read_eq (b : DigitCells) (h : pos < size) : b.read pos = .ok (b.digitAt pos) := by
  rw [read, dif_pos h, digitAt, dif_pos h]

/-- A cell is written, and the others keep what they hold. -/
theorem exists_write (b : DigitCells) (h : pos < size) (digit : Nat) :
    ∃ b', b.write pos digit = .ok b' ∧ b'.digitAt pos = digit ∧
      ∀ p ≠ pos, b'.digitAt p = b.digitAt p := by
  refine ⟨_, by rw [write, dif_pos h], ?_, ?_⟩
  · rw [digitAt, dif_pos h]
    exact Function.update_self _ _ _
  · intro p other
    rw [digitAt, digitAt]
    split
    · exact Function.update_of_ne (by simpa using other) _ _
    · rfl

theorem write_before_zero (b : DigitCells) (digit : Nat) :
    b.write (before 0) digit = .error .digitRoom := by
  rw [write, dif_neg (by decide)]

@[simp] theorem slice_zero (b : DigitCells) (pos : Nat) : b.slice pos 0 = [] := rfl

theorem slice_succ (b : DigitCells) (pos count : Nat) :
    b.slice pos (count + 1) = b.digitAt pos :: b.slice (pos + 1) count := by
  rw [slice, slice, List.range'_succ, List.map_cons]

theorem slice_concat (b : DigitCells) (pos count : Nat) :
    b.slice pos (count + 1) = b.slice pos count ++ [b.digitAt (pos + count)] := by
  rw [slice, slice, List.range'_concat, List.map_append, Nat.one_mul]
  rfl

@[simp] theorem length_slice (b : DigitCells) (pos count : Nat) :
    (b.slice pos count).length = count := by
  rw [slice, List.length_map, List.length_range']

theorem slice_append (b : DigitCells) (pos count more : Nat) :
    b.slice pos (count + more) = b.slice pos count ++ b.slice (pos + count) more := by
  rw [slice, slice, slice, ← List.map_append, List.range'_append_1]

theorem take_slice (b : DigitCells) (pos count most : Nat) :
    (b.slice pos count).take most = b.slice pos (min most count) := by
  rcases Nat.le_total count most with le | le
  · rw [List.take_of_length_le (by rwa [length_slice]), Nat.min_eq_right le]
  · obtain ⟨more, rfl⟩ := Nat.exists_eq_add_of_le le
    rw [Nat.min_eq_left le, slice_append, List.take_left' (b.length_slice pos most)]

theorem drop_slice (b : DigitCells) (pos count dropped : Nat) :
    (b.slice pos count).drop dropped = b.slice (pos + dropped) (count - dropped) := by
  rcases Nat.le_total count dropped with le | le
  · rw [List.drop_eq_nil_of_le (by rwa [length_slice]), Nat.sub_eq_zero_of_le le, slice_zero]
  · obtain ⟨more, rfl⟩ := Nat.exists_eq_add_of_le le
    rw [slice_append, List.drop_left' (b.length_slice pos dropped), Nat.add_sub_cancel_left]

/-- Cells that keep what they hold give the same digits. -/
theorem slice_congr {b' : DigitCells}
    (same : ∀ p, pos ≤ p → p < pos + count → b'.digitAt p = b.digitAt p) :
    b'.slice pos count = b.slice pos count := by
  apply List.map_congr_left
  intro p mem
  obtain ⟨le, lt⟩ := List.mem_range'_1.mp mem
  exact same p le lt

/-- The last of some digits in cells. -/
theorem slice_eq_concat {ds : List Nat} {d : Nat} (h : b.slice pos (count + 1) = ds ++ [d]) :
    b.slice pos count = ds ∧ b.digitAt (pos + count) = d := by
  rw [slice_concat] at h
  obtain ⟨front, last⟩ := List.append_inj' h rfl
  exact ⟨front, List.singleton_inj.mp last⟩

section Fraction

/-- Cells hold the digits of a fraction in reverse. -/
def HoldsFraction (b : DigitCells) (found : List Nat) : Prop :=
  found.length ≤ places ∧ b.slice middle found.length = found.reverse

/-- Raising the last digit in the cells is raising it in the list. -/
theorem raiseLast_eq {found : List Nat} (holds : b.HoldsFraction found) :
    ∃ b', b.raiseLast r found.length =
        .ok (b', (Expansion.raiseLast r found).1.length, (Expansion.raiseLast r found).2) ∧
      b'.HoldsFraction (Expansion.raiseLast r found).1 := by
  induction found with
  | nil => exact ⟨b, rfl, holds⟩
  | cons d ds ih =>
      obtain ⟨room, digits⟩ := holds
      rw [List.length_cons] at room digits
      rw [List.reverse_cons] at digits
      obtain ⟨front, last⟩ := slice_eq_concat digits
      have inside : middle + ds.length < size := by
        have := middle_add_places
        omega
      rw [List.length_cons, raiseLast, read_eq b inside, last, Expansion.raiseLast]
      change ∃ b', (if d + 1 < r.val then b.write (middle + ds.length) (d + 1) >>= _ else _) = _ ∧ _
      split
      case isTrue =>
        obtain ⟨b', written, new, others⟩ := b.exists_write inside (d + 1)
        refine ⟨b', by rw [written]; rfl, ?_, ?_⟩
        · exact room
        · rw [List.length_cons, slice_concat, new, List.reverse_cons, ← front,
            slice_congr fun p _ lt => others p (by omega)]
      case isFalse => exact ih ⟨by omega, front⟩

/-- The digits of a fraction are found in cells as in lists. -/
theorem fractionDigits_agree {scale left : Nat} {s : Expansion.Remainder} {found : List Nat}
    (room : found.length + left = places) (holds : b.HoldsFraction found) :
    Agree (fun cells digits => cells.2 = (digits.1.length, digits.2) ∧
        cells.1.HoldsFraction digits.1)
      (b.fractionDigits r scale s found.length)
      (Expansion.fractionDigits r scale left s found) := by
  have row := middle_add_places
  induction left generalizing b s found with
  | zero =>
      rw [fractionDigits, if_pos (.inr (by omega))]
      exact .ok ⟨rfl, holds⟩
  | succ left ih =>
      have inside : middle + found.length < size := by omega
      rw [fractionDigits, Expansion.fractionDigits]
      by_cases spent : s.isSpent = true
      · rw [if_pos (.inl spent), if_pos spent]
        exact .ok ⟨rfl, holds⟩
      · rw [if_neg (not_or.mpr ⟨spent, not_le.mpr inside⟩), if_neg spent]
        apply Agree.bind_same
        rintro ⟨digit, s'⟩ -
        obtain ⟨b', written, new, others⟩ := b.exists_write inside digit
        have more : b'.HoldsFraction (digit :: found) := by
          refine ⟨by rw [List.length_cons]; omega, ?_⟩
          rw [List.length_cons, slice_concat, new, List.reverse_cons, ← holds.2,
            slice_congr fun p _ lt => others p (by omega)]
        change Agree _ (b.write _ _ >>= _) _
        rw [written]
        change Agree _ (s'.roundsUp scale digit >>= _) (s'.roundsUp scale digit >>= _)
        apply Agree.bind_same
        intro up _
        cases up with
        | true =>
            obtain ⟨b'', raised, holds'⟩ := raiseLast_eq (r := r) more
            rw [List.length_cons] at raised
            simp only [if_true, raised]
            exact .ok ⟨rfl, holds'⟩
        | false => exact ih (by rw [List.length_cons]; omega) more

end Fraction

section Whole

variable {first : Nat} {ds : List Nat}

/-- Cells hold the digits of a whole number from a position up to the middle. -/
structure HoldsWhole (b : DigitCells) (first : Nat) (ds : List Nat) : Prop where
  nonempty : ds ≠ []
  first_add : first + ds.length = middle
  digits : b.slice first ds.length = ds

/-- The digits of a word are written to cells that have room for them. The cells
from the position on keep what they hold. -/
theorem wordDigits_eq (n : Nat) (room : (r.digits n).length ≤ first) (inside : first ≤ size) :
    ∃ b', b.wordDigits r first n = .ok (b', first - (r.digits n).length) ∧
      b'.slice (first - (r.digits n).length) (r.digits n).length = r.digits n ∧
      ∀ p, first ≤ p → b'.digitAt p = b.digitAt p := by
  induction n using Nat.strong_induction_on generalizing b first with
  | _ n ih =>
      have length_pos := List.length_pos_of_ne_nil (r.digits_ne_nil n)
      have below : before first = first - 1 := if_neg (by omega)
      obtain ⟨b', written, new, others⟩ :=
        b.exists_write (show first - 1 < size by omega) (n % r.val)
      rw [wordDigits, below, written]
      change ∃ b', (if n / r.val = 0 then _ else _) = _ ∧ _
      by_cases small : n < r.val
      · rw [r.digits_of_lt small]
        rw [if_pos (Nat.div_eq_of_lt small)]
        refine ⟨b', rfl, ?_, ?_⟩
        · rw [List.length_singleton, slice_succ, slice_zero, new, Nat.mod_eq_of_lt small]
        · intro p le
          exact others p (by omega)
      · have large := Nat.le_of_not_lt small
        have positive := Nat.div_pos large r.val_pos
        have smaller : n / r.val < n :=
          Nat.div_lt_self (Nat.lt_of_lt_of_le r.val_pos large) r.one_lt_val
        have length : (r.digits n).length = (r.digits (n / r.val)).length + 1 := by
          rw [r.digits_of_le large, List.length_append, List.length_singleton]
        obtain ⟨b'', done, front, kept⟩ := ih (n / r.val) smaller (b := b')
          (show (r.digits (n / r.val)).length ≤ first - 1 by omega) (by omega)
        have place : first - 1 - (r.digits (n / r.val)).length = first - (r.digits n).length := by
          omega
        rw [place] at done front
        rw [if_neg positive.ne', done]
        refine ⟨b'', rfl, ?_, ?_⟩
        · have last : first - (r.digits n).length + (r.digits (n / r.val)).length = first - 1 := by
            omega
          rw [length, slice_concat, ← length, front, last, kept _ (Nat.le_refl _), new,
            ← r.digits_of_le large]
        · intro p le
          rw [kept p (by omega), others p (by omega)]

/-- The digits of a whole number are found in cells as in lists. -/
theorem wholeDigits_agree {number : Bignum} {n : Nat} (denotes : number.Denotes n)
    (room : first + ds.length = middle) (holds : b.slice first ds.length = ds) :
    Agree (fun cells digits => cells.1.HoldsWhole cells.2 digits)
      (wholeDigits r first number b) (Expansion.wholeDigits r first number ds) := by
  induction first generalizing number n b ds with
  | zero =>
      obtain ⟨quotient, digit, divided, -, -⟩ := Bignum.divMod_denotes denotes
        (UInt32.ofNat r.val) (by rw [r.toNat_ofNat32_val]; exact r.val_pos)
      rw [wholeDigits, divided]
      change Agree _ (b.write (before 0) digit.toNat >>= fun b' => .ok (b', before 0)) _
      rw [write_before_zero]
      exact .error .digitRoom
  | succ first ih =>
      obtain ⟨quotient, digit, divided, quotientDenotes, -⟩ := Bignum.divMod_denotes denotes
        (UInt32.ofNat r.val) (by rw [r.toNat_ofNat32_val]; exact r.val_pos)
      have row := middle_add_places
      obtain ⟨b', written, new, others⟩ :=
        b.exists_write (show first < size by omega) digit.toNat
      have holds' : b'.slice first (digit.toNat :: ds).length = digit.toNat :: ds := by
        rw [List.length_cons, slice_succ, new, slice_congr fun p le _ => others p (by omega),
          holds]
      have room' : first + (digit.toNat :: ds).length = middle := by
        rw [List.length_cons]
        omega
      rw [wholeDigits, Expansion.wholeDigits, divided]
      change Agree _ (b.write first digit.toNat >>= _) (if quotient.size = 0 then _ else _)
      rw [written]
      change Agree _ (if quotient.size = 0 then _ else _) _
      by_cases last : quotient.size = 0
      · rw [if_pos last, if_pos last]
        exact .ok ⟨List.cons_ne_nil _ _, room', holds'⟩
      · rw [if_neg last, if_neg last]
        exact ih quotientDenotes room' holds'

end Whole

section Rounding

variable {hood : Neighbourhood} {first : Nat} {ds : List Nat}

theorem count_of_extend {run run' : Expansion.Run} {digit : Nat}
    (h : run.extend r digit = .ok run') : run'.count = run.count + 1 := by
  obtain ⟨share, -, added⟩ := bind_eq_ok_iff.mp h
  obtain ⟨value, -, grown⟩ := bind_eq_ok_iff.mp added
  obtain ⟨unit, -, made⟩ := bind_eq_ok_iff.mp grown
  obtain rfl := pure_eq_ok_iff.mp made
  rfl

/-- A run is not made longer than by all digits that are left. -/
theorem count_of_longest {digits : List Nat} {run run' : Expansion.Run}
    (h : Expansion.Run.longest r hood digits run = .ok run') :
    run'.count ≤ run.count + digits.length := by
  induction digits generalizing run with
  | nil =>
      obtain rfl := Except.ok.inj h
      exact Nat.le_refl _
  | cons digit digits ih =>
      obtain ⟨extended, extends_, h⟩ := bind_eq_ok_iff.mp h
      obtain ⟨negligible, -, h⟩ := bind_eq_ok_iff.mp h
      have count := count_of_extend extends_
      rw [List.length_cons]
      cases negligible with
      | true =>
          have le := ih h
          omega
      | false =>
          obtain rfl := pure_eq_ok_iff.mp h
          omega

/-- The longest run is found in cells as in lists. -/
theorem longestRun_eq {digits : List Nat} {run : Expansion.Run}
    (room : pos + digits.length + run.count = middle)
    (holds : b.slice pos digits.length = digits.reverse) :
    longestRun r hood b digits.length run = Expansion.Run.longest r hood digits run := by
  have row := middle_add_places
  induction digits generalizing run with
  | nil => rfl
  | cons digit digits ih =>
      rw [List.length_cons] at room holds ⊢
      rw [List.reverse_cons] at holds
      obtain ⟨front, last⟩ := slice_eq_concat holds
      have place : middle - 1 - run.count = pos + digits.length := by omega
      rw [longestRun, place, read_eq b (by omega), last]
      apply Agree.eq
      change Agree Eq (run.extend r digit >>= _) (run.extend r digit >>= _)
      apply Agree.bind_same
      intro extended made
      have count := count_of_extend made
      apply Agree.bind_same
      intro negligible _
      cases negligible with
      | true =>
          rw [if_pos rfl, ih (by omega) front]
          exact .refl _
      | false => exact .ok rfl

/-- Zeros are written, and the other cells keep what they hold. -/
theorem exists_clear (b : DigitCells) (inside : pos + count ≤ size) :
    ∃ b', b.clear pos count = .ok b' ∧ b'.slice pos count = List.replicate count 0 ∧
      ∀ p, p < pos ∨ pos + count ≤ p → b'.digitAt p = b.digitAt p := by
  induction count generalizing b pos with
  | zero => exact ⟨b, rfl, rfl, fun _ _ => rfl⟩
  | succ count ih =>
      obtain ⟨b', written, new, others⟩ := b.exists_write (show pos < size by omega) 0
      obtain ⟨b'', cleared, zeros, kept⟩ := ih b' (show pos + 1 + count ≤ size by omega)
      refine ⟨b'', ?_, ?_, ?_⟩
      · rw [clear, written]
        exact cleared
      · rw [slice_succ, zeros, kept pos (by omega), new, List.replicate_succ]
      · intro p outside
        rw [kept p (by omega), others p (by omega)]

theorem raiseLowest_ne_nil (r : Radix) (ds : List Nat) : Expansion.raiseLowest r ds ≠ [] := by
  cases ds with
  | nil => simp [Expansion.raiseLowest]
  | cons d ds =>
      rw [Expansion.raiseLowest]
      split <;> simp

theorem raiseLowest_succ (inside : first + count < size) : raiseLowest r b first (count + 1) =
    if b.digitAt (first + count) + 1 < r.val then
      (b.write (first + count) (b.digitAt (first + count) + 1)).map (·, first)
    else b.write (first + count) 0 >>= fun b => raiseLowest r b first count := by
  rw [raiseLowest, read_eq b inside]
  rfl

/-- The number of some digits in cells is raised as in a list that starts with
the lowest one, if there is a cell for a carry out of the leading digit. -/
theorem raiseLowest_cases {kept : List Nat} (inside : first + kept.length ≤ size)
    (holds : b.slice first kept.length = kept.reverse) :
    ((Expansion.raiseLowest r kept).length ≤ first + kept.length → ∃ b' first',
      raiseLowest r b first kept.length = .ok (b', first') ∧
      first' + (Expansion.raiseLowest r kept).length = first + kept.length ∧
      b'.slice first' (Expansion.raiseLowest r kept).length =
        (Expansion.raiseLowest r kept).reverse ∧
      ∀ p, first + kept.length ≤ p → b'.digitAt p = b.digitAt p) ∧
    (first + kept.length < (Expansion.raiseLowest r kept).length →
      raiseLowest r b first kept.length = .error .digitRoom) := by
  induction kept generalizing b with
  | nil =>
      rw [Expansion.raiseLowest, List.length_singleton, List.length_nil, Nat.add_zero] at *
      refine ⟨?_, ?_⟩
      · intro cell
        have below : before first = first - 1 := if_neg (by omega)
        obtain ⟨b', written, new, others⟩ := b.exists_write (show first - 1 < size by omega) 1
        refine ⟨b', first - 1, ?_, by omega, ?_, fun p le => others p (by omega)⟩
        · rw [raiseLowest, below, written]
          rfl
        · rw [slice_succ, new]
          rfl
      · intro noCell
        obtain rfl : first = 0 := by omega
        rw [raiseLowest, write_before_zero]
        rfl
  | cons digit digits ih =>
      rw [List.length_cons] at inside holds
      rw [List.reverse_cons] at holds
      obtain ⟨front, last⟩ := slice_eq_concat holds
      have position : first + digits.length < size := by omega
      rw [List.length_cons, raiseLowest_succ position, last, Expansion.raiseLowest]
      by_cases room : digit + 1 < r.val
      · obtain ⟨b', written, new, others⟩ := b.exists_write position (digit + 1)
        rw [if_pos room, if_pos room, List.length_cons, written]
        refine ⟨fun _ => ⟨b', first, rfl, rfl, ?_, fun p le => others p (by omega)⟩, ?_⟩
        · rw [slice_concat, new, List.reverse_cons, ← front,
            slice_congr fun p _ lt => others p (by omega)]
        · intro less
          omega
      · obtain ⟨b', written, new, others⟩ := b.exists_write position 0
        have front' : b'.slice first digits.length = digits.reverse := by
          rw [← front, slice_congr fun p _ lt => others p (by omega)]
        obtain ⟨fits, overflows⟩ := ih (b := b') (by omega) front'
        rw [if_neg room, if_neg room, List.length_cons, written]
        refine ⟨?_, fun less => overflows (by omega)⟩
        intro le
        obtain ⟨b'', first', raised, length, digits', same⟩ := fits (by omega)
        refine ⟨b'', first', raised, by omega, ?_, ?_⟩
        · have zero : first' + (Expansion.raiseLowest r digits).length =
              first + digits.length := length
          rw [slice_concat, digits', zero, same _ (Nat.le_refl _), new, List.reverse_cons]
        · intro p lt
          rw [same p (by omega), others p (by omega)]

theorem HoldsWhole.of_append {front back : List Nat} (nonempty : front ≠ [])
    (total : first + front.length + back.length = middle)
    (digits : b.slice first front.length = front)
    (rest : b.slice (first + front.length) back.length = back) :
    b.HoldsWhole first (front ++ back) where
  nonempty := List.append_ne_nil_of_left_ne_nil nonempty _
  first_add := by rw [List.length_append, ← Nat.add_assoc, total]
  digits := by rw [List.length_append, slice_append, digits, rest]

/-- A run of digits is rounded away in cells as in lists. -/
theorem roundAway_agree {run : Expansion.Run} {kept : List Nat} (nonempty : kept ≠ [])
    (length : first + kept.length + run.count = middle)
    (holds : b.slice first kept.length = kept.reverse) :
    Agree (fun cells digits => cells.1.HoldsWhole cells.2 digits)
      (do
        let digit ← b.read (middle - 1 - run.count)
        let up ← run.roundsUp hood digit
        let b ← b.clear (middle - run.count) run.count
        if up then raiseLowest r b first (middle - run.count - first) else return (b, first))
      (do
        let up ← run.roundsUp hood (kept.headD 0)
        let raised := if up then Expansion.raiseLowest r kept else kept
        let rounded := raised.reverse ++ List.replicate run.count 0
        if rounded.length ≤ places then return rounded else throw .digitRoom) := by
  have row := middle_add_places
  have half : middle = places := rfl
  have length_pos := List.length_pos_of_ne_nil nonempty
  have position : middle - 1 - run.count = first + (kept.length - 1) := by omega
  have top : middle - run.count = first + kept.length := by omega
  have last : b.digitAt (first + (kept.length - 1)) = kept.headD 0 := by
    obtain ⟨d, ds, rfl⟩ := List.exists_cons_of_ne_nil nonempty
    exact (slice_eq_concat (holds.trans List.reverse_cons)).2
  rw [position, read_eq b (by omega), last, top, Nat.add_sub_cancel_left]
  change Agree _ (run.roundsUp hood (kept.headD 0) >>= _) _
  apply Agree.bind_same
  intro up _
  obtain ⟨b', cleared, zeros, others⟩ :=
    b.exists_clear (show first + kept.length + run.count ≤ size by omega)
  have holds' : b'.slice first kept.length = kept.reverse := by
    rw [← holds, slice_congr fun p _ lt => others p (.inl lt)]
  have count : (List.replicate run.count 0).length = run.count := List.length_replicate
  have total (digits : List Nat) :
      (digits.reverse ++ List.replicate run.count 0).length = digits.length + run.count := by
    rw [List.length_append, List.length_reverse, count]
  rw [cleared]
  cases up with
  | false =>
      change Agree _ (.ok (b', first)) (if (kept.reverse ++ List.replicate run.count 0).length ≤
        places then .ok (kept.reverse ++ List.replicate run.count 0) else .error .digitRoom)
      rw [total, if_pos (by omega)]
      refine .ok (.of_append (by simpa using nonempty) ?_ ?_ ?_)
      · rw [List.length_reverse, count, length]
      · rw [List.length_reverse, holds']
      · rw [List.length_reverse, count, zeros]
  | true =>
      obtain ⟨fits, overflows⟩ := raiseLowest_cases (r := r) (b := b') (by omega) holds'
      change Agree _ (raiseLowest r b' first kept.length)
        (if ((Expansion.raiseLowest r kept).reverse ++ List.replicate run.count 0).length ≤ places
          then .ok ((Expansion.raiseLowest r kept).reverse ++ List.replicate run.count 0)
          else .error .digitRoom)
      rw [total]
      by_cases room : (Expansion.raiseLowest r kept).length + run.count ≤ places
      · obtain ⟨b'', first', raised, sum, front, same⟩ := fits (by omega)
        rw [if_pos room, raised]
        refine .ok (.of_append ?_ ?_ ?_ ?_)
        · exact mt List.reverse_eq_nil_iff.mp (raiseLowest_ne_nil r kept)
        · rw [List.length_reverse, count, sum, length]
        · rw [List.length_reverse, front]
        · rw [List.length_reverse, count, sum, slice_congr fun p le _ => same p le, zeros]
      · rw [if_neg room, overflows (by omega)]
        exact .error .digitRoom

/-- The digits of a whole number are rounded in cells as in lists. -/
theorem roundWhole_agree (holds : b.HoldsWhole first ds) :
    Agree (fun cells digits => cells.1.HoldsWhole cells.2 digits)
      (roundWhole r hood b first) (Expansion.roundWhole r hood ds) := by
  have length_pos := List.length_pos_of_ne_nil holds.nonempty
  have room := holds.first_add
  have count : middle - first - 1 = ds.reverse.dropLast.length := by
    rw [List.length_dropLast, List.length_reverse]
    omega
  -- All digits but the leading one, from the lowest on.
  have low : b.slice (first + 1) ds.reverse.dropLast.length = ds.reverse.dropLast.reverse := by
    have digits := holds.digits
    obtain ⟨d, rest, rfl⟩ := List.exists_cons_of_ne_nil holds.nonempty
    rw [List.length_cons, slice_succ] at digits
    rw [List.reverse_cons, List.dropLast_concat, List.length_reverse, List.reverse_reverse]
    exact (List.cons.inj digits).2
  rw [roundWhole, Expansion.roundWhole, count]
  apply Agree.bind_same
  intro zero _
  apply Agree.bind_same
  intro one _
  have longest : longestRun r hood b ds.reverse.dropLast.length ⟨0, zero, one⟩ =
      Expansion.Run.longest r hood ds.reverse.dropLast ⟨0, zero, one⟩ :=
    longestRun_eq (by simp only; omega) low
  simp only [longest]
  apply Agree.bind_same
  intro run found
  have shorter := count_of_longest found
  simp only [Nat.zero_add, ← count] at shorter
  by_cases empty : run.count = 0
  · rw [if_pos empty, if_pos empty]
    exact .ok holds
  · rw [if_neg empty, if_neg empty]
    have length : (ds.reverse.drop run.count).length = ds.length - run.count := by
      rw [List.length_drop, List.length_reverse]
    apply roundAway_agree
    · exact List.ne_nil_of_length_pos (by omega)
    · omega
    · have front := b.take_slice first ds.length (ds.length - run.count)
      rw [holds.digits, Nat.min_eq_left (Nat.sub_le _ _)] at front
      rw [length, List.drop_reverse, List.reverse_reverse, ← front]

end Rounding

end DigitCells

end RadixText

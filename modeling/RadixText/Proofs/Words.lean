import Mathlib.Algebra.Order.Ring.Nat
import Mathlib.Tactic.Linarith
import Mathlib.Tactic.Ring
import RadixText.Bignum.Words

/-!
# Arithmetic on lists of words is exact

Each operation is measured by the natural numbers that its words denote. Words
without a zero at the top are told apart by their count first.
-/

namespace RadixText.Words

theorem size_eq : UInt64.size = 2 ^ 64 := rfl

theorem toNat_append (ws vs : List UInt64) :
    toNat (ws ++ vs) = toNat ws + UInt64.size ^ ws.length * toNat vs := by
  induction ws with
  | nil => simp
  | cons w ws ih =>
      rw [List.cons_append, toNat_cons, ih, toNat_cons, List.length_cons, pow_succ]
      ring

theorem toNat_lt (ws : List UInt64) : toNat ws < UInt64.size ^ ws.length := by
  induction ws with
  | nil => simp
  | cons w ws ih =>
      have word : w.toNat < UInt64.size := w.toNat_lt
      rw [toNat_cons, List.length_cons, pow_succ, Nat.mul_comm _ UInt64.size]
      calc
        w.toNat + UInt64.size * toNat ws < UInt64.size * (toNat ws + 1) := by
          rw [Nat.mul_succ]
          omega
        _ ≤ UInt64.size * UInt64.size ^ ws.length := Nat.mul_le_mul_left _ ih

theorem toNat_replicate_zero_append (n : Nat) (ws : List UInt64) :
    toNat (List.replicate n 0 ++ ws) = UInt64.size ^ n * toNat ws := by
  induction n with
  | zero => simp
  | succ n ih =>
      rw [List.replicate_succ, List.cons_append, toNat_cons, ih, pow_succ]
      simp only [UInt64.toNat_zero]
      ring

/-- A power of two splits into whole words and a part of one. -/
theorem two_pow_eq (bits : Nat) :
    2 ^ bits = UInt64.size ^ (bits / 64) * 2 ^ (bits % 64) := by
  rw [size_eq, ← pow_mul, ← pow_add, Nat.div_add_mod]

/-! ## Trimmed words -/

theorem isTrimmed_nil : IsTrimmed [] := by
  simp [IsTrimmed]

theorem IsTrimmed.tail {w : UInt64} {ws : List UInt64} (h : IsTrimmed (w :: ws)) :
    IsTrimmed ws := by
  cases ws with
  | nil => exact isTrimmed_nil
  | cons v vs => simpa [IsTrimmed, List.getLast?_cons_cons] using h

theorem isTrimmed_cons {w : UInt64} {ws : List UInt64} (h : IsTrimmed ws) (ne : ws ≠ []) :
    IsTrimmed (w :: ws) := by
  cases ws with
  | nil => exact absurd rfl ne
  | cons v vs => simpa [IsTrimmed, List.getLast?_cons_cons] using h

theorem isTrimmed_singleton {w : UInt64} : IsTrimmed [w] ↔ w ≠ 0 := by
  simp [IsTrimmed]

/-- The top word of trimmed words counts at least its place. -/
theorem IsTrimmed.pow_le_toNat {w : UInt64} {ws : List UInt64} (h : IsTrimmed (w :: ws)) :
    UInt64.size ^ ws.length ≤ toNat (w :: ws) := by
  induction ws generalizing w with
  | nil =>
      have positive : w.toNat ≠ 0 := fun zero =>
        isTrimmed_singleton.mp h (UInt64.toNat_inj.mp zero)
      simpa using Nat.one_le_iff_ne_zero.mpr positive
  | cons v vs ih =>
      have rest := ih h.tail
      rw [toNat_cons, List.length_cons, pow_succ, Nat.mul_comm _ UInt64.size]
      exact Nat.le_add_left_of_le (Nat.mul_le_mul_left _ rest)

theorem IsTrimmed.toNat_lt_pow_iff {ws : List UInt64} (h : IsTrimmed ws) (n : Nat) :
    toNat ws < UInt64.size ^ n ↔ ws.length ≤ n := by
  constructor
  · intro below
    cases ws with
    | nil => exact Nat.zero_le n
    | cons w ws =>
        by_contra long
        have place := h.pow_le_toNat
        have power : UInt64.size ^ n ≤ UInt64.size ^ ws.length :=
          Nat.pow_le_pow_right (by decide) (by simp only [List.length_cons] at long; omega)
        omega
  · intro short
    exact Nat.lt_of_lt_of_le (toNat_lt ws) (Nat.pow_le_pow_right (by decide) short)

theorem IsTrimmed.eq_nil_iff {ws : List UInt64} (h : IsTrimmed ws) : ws = [] ↔ toNat ws = 0 := by
  have short := h.toNat_lt_pow_iff 0
  rw [pow_zero, Nat.lt_one_iff, Nat.le_zero, List.length_eq_zero_iff] at short
  exact short.symm

/-! ## Shifts -/

theorem toNat_shiftLeft {w : UInt64} {n : Nat} (h : n < 64) :
    (w <<< UInt64.ofNat n).toNat = w.toNat * 2 ^ n % UInt64.size := by
  rw [UInt64.toNat_shiftLeft, UInt64.toNat_ofNat', Nat.mod_eq_of_lt (a := n) (by omega),
    Nat.mod_eq_of_lt h, Nat.shiftLeft_eq]

theorem toNat_shiftRight {w : UInt64} {n : Nat} (h : n < 64) :
    (w >>> UInt64.ofNat n).toNat = w.toNat / 2 ^ n := by
  rw [UInt64.toNat_shiftRight, UInt64.toNat_ofNat', Nat.mod_eq_of_lt (a := n) (by omega),
    Nat.mod_eq_of_lt h, Nat.shiftRight_eq_div_pow]

theorem toNat_one_shiftLeft {n : Nat} (h : n < 64) :
    ((1 : UInt64) <<< UInt64.ofNat n).toNat = 2 ^ n := by
  rw [toNat_shiftLeft h, UInt64.toNat_one, Nat.one_mul]
  exact Nat.mod_eq_of_lt (Nat.pow_lt_pow_right (by decide) h)

/-- A mask of low bits keeps the remainder by a power of two. -/
theorem toNat_and_mask {n : Nat} (h : n < 64) (w : UInt64) :
    (w &&& ((1 : UInt64) <<< UInt64.ofNat n - 1)).toNat = w.toNat % 2 ^ n := by
  have bit := toNat_one_shiftLeft h
  have le : (1 : UInt64) ≤ 1 <<< UInt64.ofNat n := by
    rw [UInt64.le_iff_toNat_le, bit]
    exact Nat.two_pow_pos n
  rw [UInt64.toNat_and, UInt64.toNat_sub_of_le _ _ le, bit, UInt64.toNat_one,
    Nat.and_two_pow_sub_one_eq_mod]

theorem ofNat_eq_zero_iff {n : Nat} (h : n < 64) : UInt64.ofNat n = 0 ↔ n = 0 := by
  rw [← UInt64.toNat_inj, UInt64.toNat_ofNat', Nat.mod_eq_of_lt (by omega)]
  rfl

theorem sub_ofNat {n : Nat} (h : n < 64) : 64 - UInt64.ofNat n = UInt64.ofNat (64 - n) := by
  apply UInt64.toNat_inj.mp
  rw [UInt64.toNat_sub_of_le]
  · rw [UInt64.toNat_ofNat', UInt64.toNat_ofNat', Nat.mod_eq_of_lt (by omega),
      Nat.mod_eq_of_lt (by omega)]
    rfl
  · rw [UInt64.le_iff_toNat_le, UInt64.toNat_ofNat', Nat.mod_eq_of_lt (by omega)]
    exact Nat.le_of_lt h

/-- The size of a word is the product of two powers. -/
theorem size_split {n : Nat} (h : n ≤ 64) : UInt64.size = 2 ^ n * 2 ^ (64 - n) := by
  rw [size_eq, ← pow_add, Nat.add_sub_cancel' h]

theorem length_shifted (w : UInt64) (bits : Nat) :
    (shifted w bits).length = bits / 64 + 2 := by
  simp [shifted]

/-- Shifting up multiplies by a power of two. -/
theorem toNat_shifted (w : UInt64) (bits : Nat) :
    toNat (shifted w bits) = w.toNat * 2 ^ bits := by
  have part : bits % 64 < 64 := Nat.mod_lt _ (by decide)
  have word : w.toNat < UInt64.size := w.toNat_lt
  rw [shifted, toNat_replicate_zero_append, two_pow_eq bits, Nat.mul_left_comm]
  congr 1
  simp only [toNat_cons, toNat_nil, Nat.mul_zero, Nat.add_zero, toNat_shiftLeft part]
  by_cases aligned : bits % 64 = 0
  · rw [if_pos ((ofNat_eq_zero_iff part).mpr aligned), aligned, pow_zero, Nat.mul_one,
      Nat.mod_eq_of_lt word]
    rfl
  · have high : 64 - bits % 64 < 64 := by omega
    rw [if_neg (mt (ofNat_eq_zero_iff part).mp aligned), sub_ofNat part, toNat_shiftRight high]
    have split := size_split (Nat.le_of_lt part)
    have quotient : w.toNat * 2 ^ (bits % 64) / UInt64.size = w.toNat / 2 ^ (64 - bits % 64) := by
      rw [split, Nat.mul_comm w.toNat]
      exact Nat.mul_div_mul_left _ _ (Nat.two_pow_pos _)
    rw [← quotient]
    exact Nat.mod_add_div _ _

/-! ## Sums and products -/

/-- Multiplying by a word and adding a carry is exact. -/
theorem toNat_mulAdd (factor carry : UInt64) (ws : List UInt64) :
    toNat (mulAdd factor carry ws) = toNat ws * factor.toNat + carry.toNat := by
  induction ws generalizing carry with
  | nil =>
      by_cases zero : carry = 0
      · rw [mulAdd, if_pos zero, zero]
        simp
      · rw [mulAdd, if_neg zero]
        simp
  | cons w ws ih =>
      have product := Word.toNat_mul w factor
      have wordBound : w.toNat < UInt64.size := w.toNat_lt
      have factorBound : factor.toNat < UInt64.size := factor.toNat_lt
      have carryBound : carry.toNat < UInt64.size := carry.toNat_lt
      have lowBound : (Word.mul w factor).lo.toNat < UInt64.size := (Word.mul w factor).lo.toNat_lt
      have most : w.toNat * factor.toNat ≤ (UInt64.size - 1) * (UInt64.size - 1) :=
        Nat.mul_le_mul (by omega) (by omega)
      rw [UInt128.toNat] at product
      -- The high word of a product is never full, so a carry into it never wraps.
      have high : (Word.mul w factor).hi.toNat + 1 < UInt64.size := by
        simp only [UInt64.size] at *
        omega
      have sum : ((Word.mul w factor).lo + carry).toNat =
          ((Word.mul w factor).lo.toNat + carry.toNat) % UInt64.size := UInt64.toNat_add _ _
      rw [mulAdd, toNat_cons, ih, toNat_cons, sum]
      by_cases wraps : (Word.mul w factor).lo + carry < (Word.mul w factor).lo
      · have one : ((Word.mul w factor).hi + 1).toNat = (Word.mul w factor).hi.toNat + 1 := by
          rw [UInt64.toNat_add, UInt64.toNat_one]
          exact Nat.mod_eq_of_lt high
        rw [if_pos wraps, one]
        rw [UInt64.lt_iff_toNat_lt, sum] at wraps
        have value : ((Word.mul w factor).lo.toNat + carry.toNat) % UInt64.size + UInt64.size =
            (Word.mul w factor).lo.toNat + carry.toNat := by
          simp only [UInt64.size] at *
          omega
        linarith
      · rw [if_neg wraps]
        rw [UInt64.lt_iff_toNat_lt, sum] at wraps
        have value : ((Word.mul w factor).lo.toNat + carry.toNat) % UInt64.size =
            (Word.mul w factor).lo.toNat + carry.toNat := by
          simp only [UInt64.size] at *
          omega
        linarith

/-- A product that fits in a count of words has no more words. -/
theorem length_mulAdd_le {factor carry : UInt64} {ws : List UInt64} {n : Nat}
    (length : ws.length ≤ n) (fits : toNat (mulAdd factor carry ws) < UInt64.size ^ n) :
    (mulAdd factor carry ws).length ≤ n := by
  induction ws generalizing carry n with
  | nil =>
      by_cases zero : carry = 0
      · simp [mulAdd, zero]
      · rw [mulAdd, if_neg zero] at fits ⊢
        exact ((isTrimmed_singleton.mpr zero).toNat_lt_pow_iff n).mp fits
  | cons w ws ih =>
      obtain ⟨n, rfl⟩ : ∃ m, n = m + 1 := ⟨n - 1, by simp only [List.length_cons] at length; omega⟩
      rw [mulAdd] at fits ⊢
      rw [toNat_cons, pow_succ, Nat.mul_comm _ UInt64.size] at fits
      rw [List.length_cons]
      refine Nat.succ_le_succ (ih (by simpa using length) ?_)
      exact Nat.lt_of_mul_lt_mul_left (Nat.lt_of_le_of_lt (Nat.le_add_left _ _) fits)

theorem toNat_increment (ws : List UInt64) : toNat (increment ws) = toNat ws + 1 := by
  induction ws with
  | nil => rfl
  | cons w ws ih =>
      have word := w.toNat_lt
      have sum : (w + 1).toNat = (w.toNat + 1) % UInt64.size := UInt64.toNat_add w 1
      by_cases wraps : w + 1 = 0
      · rw [wraps, UInt64.toNat_zero] at sum
        rw [increment, if_pos wraps, toNat_cons, toNat_cons, ih, UInt64.toNat_zero]
        simp only [UInt64.size] at *
        omega
      · have nonzero : (w + 1).toNat ≠ 0 := by
          intro zero
          exact wraps (UInt64.toNat_inj.mp zero)
        rw [increment, if_neg wraps, toNat_cons, toNat_cons, sum]
        simp only [UInt64.size] at *
        omega

/-- One word of a sum: the wrapped word and the carry make up the exact sum. -/
theorem carry_value (w v : UInt64) (carry : Bool) :
    (if carry then w + v + 1 else w + v).toNat +
        UInt64.size * (if carry then decide ((if carry then w + v + 1 else w + v) ≤ w)
          else decide ((if carry then w + v + 1 else w + v) < w)).toNat =
      w.toNat + v.toNat + carry.toNat := by
  have first := w.toNat_lt
  have second := v.toNat_lt
  cases carry with
  | false =>
      have sum := UInt64.toNat_add w v
      simp only [Bool.false_eq_true, if_false, Bool.toNat_false]
      by_cases wraps : w + v < w
      · rw [decide_eq_true wraps, Bool.toNat_true]
        rw [UInt64.lt_iff_toNat_lt] at wraps
        simp only [UInt64.size] at *
        omega
      · rw [decide_eq_false wraps, Bool.toNat_false]
        rw [UInt64.lt_iff_toNat_lt] at wraps
        simp only [UInt64.size] at *
        omega
  | true =>
      have sum := UInt64.toNat_add (w + v) 1
      rw [UInt64.toNat_add w v, UInt64.toNat_one] at sum
      simp only [if_true, Bool.toNat_true]
      by_cases wraps : w + v + 1 ≤ w
      · rw [decide_eq_true wraps, Bool.toNat_true]
        rw [UInt64.le_iff_toNat_le] at wraps
        simp only [UInt64.size] at *
        omega
      · rw [decide_eq_false wraps, Bool.toNat_false]
        rw [UInt64.le_iff_toNat_le] at wraps
        simp only [UInt64.size] at *
        omega

theorem toNat_headD_tail (ws : List UInt64) :
    (ws.headD 0).toNat + UInt64.size * toNat ws.tail = toNat ws := by
  cases ws <;> simp

theorem toNat_addCarry (carry : Bool) (ws vs : List UInt64) :
    toNat (addCarry carry ws vs) = toNat ws + toNat vs + carry.toNat := by
  induction vs generalizing carry ws with
  | nil => cases carry <;> simp [addCarry, toNat_increment]
  | cons v vs ih =>
      have word := carry_value (ws.headD 0) v carry
      have split := toNat_headD_tail ws
      rw [addCarry, toNat_cons, ih, toNat_cons]
      linarith

theorem isTrimmed_increment {ws : List UInt64} (h : IsTrimmed ws) : IsTrimmed (increment ws) := by
  induction ws with
  | nil => exact isTrimmed_singleton.mpr (by decide)
  | cons w ws ih =>
      by_cases wraps : w + 1 = 0
      · rw [increment, if_pos wraps]
        apply isTrimmed_cons (ih h.tail)
        intro empty
        have positive := toNat_increment ws
        rw [empty] at positive
        exact absurd positive (Nat.succ_ne_zero _).symm
      · rw [increment, if_neg wraps]
        cases ws with
        | nil => exact isTrimmed_singleton.mpr wraps
        | cons v vs => exact isTrimmed_cons h.tail (List.cons_ne_nil _ _)

/-- Sums of trimmed words need no trimming. -/
theorem isTrimmed_addCarry (carry : Bool) {ws vs : List UInt64} (hw : IsTrimmed ws)
    (hv : IsTrimmed vs) : IsTrimmed (addCarry carry ws vs) := by
  induction vs generalizing carry ws with
  | nil =>
      cases carry with
      | false => simpa [addCarry] using hw
      | true => simpa [addCarry] using isTrimmed_increment hw
  | cons v vs ih =>
      have tail : IsTrimmed ws.tail := by
        cases ws with
        | nil => exact isTrimmed_nil
        | cons w ws => exact hw.tail
      have value := toNat_addCarry carry ws (v :: vs)
      have place := hv.pow_le_toNat
      rw [addCarry] at value ⊢
      generalize hsum : addCarry _ ws.tail vs = sum at value ⊢
      have rest : IsTrimmed sum := hsum ▸ ih _ tail hv.tail
      cases sum with
      | nil =>
          apply isTrimmed_singleton.mpr
          intro zero
          rw [zero, toNat_cons, toNat_nil, UInt64.toNat_zero] at value
          have := Nat.pow_pos (n := vs.length) (show 0 < UInt64.size by decide)
          omega
      | cons u us => exact isTrimmed_cons rest (List.cons_ne_nil _ _)

/-! ## Differences -/

theorem length_decrement (ws : List UInt64) : (decrement ws).1.length = ws.length := by
  induction ws with
  | nil => rfl
  | cons w ws ih =>
      by_cases zero : w = 0
      · rw [decrement, if_pos zero]
        exact congrArg Nat.succ ih
      · rw [decrement, if_neg zero]
        rfl

/-- A borrow that is left counts the place above the top word. -/
theorem toNat_decrement (ws : List UInt64) :
    toNat (decrement ws).1 + 1 =
      toNat ws + UInt64.size ^ ws.length * (decrement ws).2.toNat := by
  induction ws with
  | nil => rfl
  | cons w ws ih =>
      have word := w.toNat_lt
      by_cases zero : w = 0
      · have wrapped : (w - 1).toNat = UInt64.size - 1 := by rw [zero]; rfl
        rw [decrement, if_pos zero]
        change (w - 1).toNat + UInt64.size * toNat (decrement ws).1 + 1 = _ +
          _ * (decrement ws).2.toNat
        rw [wrapped, toNat_cons, zero, UInt64.toNat_zero, List.length_cons, pow_succ]
        have place : UInt64.size - 1 + 1 = UInt64.size := rfl
        nlinarith [ih, place]
      · have positive : w.toNat ≠ 0 := by
          intro toNat_eq_zero
          exact zero (UInt64.toNat_inj.mp toNat_eq_zero)
        have less : (w - 1).toNat = w.toNat - 1 := by
          rw [UInt64.toNat_sub_of_le]
          · rfl
          · rw [UInt64.le_iff_toNat_le, UInt64.toNat_one]
            omega
        rw [decrement, if_neg zero]
        change (w - 1).toNat + UInt64.size * toNat ws + 1 = _ + _ * 0
        rw [less, toNat_cons]
        omega

/-- One word of a difference: a borrow counts the size of a word. -/
theorem borrow_value (w v : UInt64) (borrow : Bool) :
    (if borrow then w - v - 1 else w - v).toNat + v.toNat + borrow.toNat =
      w.toNat + UInt64.size * (if borrow then decide (w ≤ v) else decide (w < v)).toNat := by
  have first := w.toNat_lt
  have second := v.toNat_lt
  cases borrow with
  | false =>
      have difference := UInt64.toNat_sub w v
      simp only [Bool.false_eq_true, if_false, Bool.toNat_false]
      by_cases below : w < v
      · rw [decide_eq_true below, Bool.toNat_true]
        rw [UInt64.lt_iff_toNat_lt] at below
        simp only [UInt64.size] at *
        omega
      · rw [decide_eq_false below, Bool.toNat_false]
        rw [UInt64.lt_iff_toNat_lt] at below
        simp only [UInt64.size] at *
        omega
  | true =>
      have difference := UInt64.toNat_sub (w - v) 1
      rw [UInt64.toNat_sub w v, UInt64.toNat_one] at difference
      simp only [if_true, Bool.toNat_true]
      by_cases below : w ≤ v
      · rw [decide_eq_true below, Bool.toNat_true]
        rw [UInt64.le_iff_toNat_le] at below
        simp only [UInt64.size] at *
        omega
      · rw [decide_eq_false below, Bool.toNat_false]
        rw [UInt64.le_iff_toNat_le] at below
        simp only [UInt64.size] at *
        omega

theorem toNat_subBorrow (borrow : Bool) (ws vs : List UInt64) :
    toNat (subBorrow borrow ws vs).1 + toNat vs + borrow.toNat =
      toNat ws + UInt64.size ^ (subBorrow borrow ws vs).1.length *
        (subBorrow borrow ws vs).2.toNat := by
  induction vs generalizing borrow ws with
  | nil =>
      cases borrow with
      | false => simp [subBorrow]
      | true =>
          simp only [subBorrow, if_true, length_decrement]
          exact toNat_decrement ws
  | cons v vs ih =>
      have word := borrow_value (ws.headD 0) v borrow
      have split := toNat_headD_tail ws
      rw [subBorrow]
      generalize (if borrow then decide (ws.headD 0 ≤ v) else decide (ws.headD 0 < v)) = next
        at word ⊢
      have rest := ih next ws.tail
      generalize subBorrow next ws.tail vs = result at rest ⊢
      obtain ⟨words, out⟩ := result
      simp only [toNat_cons, List.length_cons, pow_succ] at rest ⊢
      nlinarith [rest, word, split]

/-- Taking away a number that is not larger leaves no borrow. -/
theorem subBorrow_of_le {ws vs : List UInt64} (h : toNat vs ≤ toNat ws) :
    (subBorrow false ws vs).2 = false ∧
      toNat (subBorrow false ws vs).1 = toNat ws - toNat vs := by
  have value := toNat_subBorrow false ws vs
  have bound := toNat_lt (subBorrow false ws vs).1
  cases borrow : (subBorrow false ws vs).2 with
  | true =>
      rw [borrow, Bool.toNat_true, Bool.toNat_false] at value
      omega
  | false =>
      rw [borrow, Bool.toNat_false] at value
      exact ⟨rfl, by omega⟩

end RadixText.Words

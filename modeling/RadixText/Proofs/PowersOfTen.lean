import RadixText.ExtFloat.PowerOfTen
import RadixText.Proofs.Words
import RadixText.Value

/-!
# Scaling by powers of ten

Every entry of the table is its power of ten rounded to nearest. From any entry
the search walks to one that brings a float into the window of exponents, and
the product with it misses the scaled number by less than one of its last place.
-/

namespace RadixText

namespace PowerOfTen

variable {exp : Int} {i : Fin tableSize}

/-- Entries differ from their powers of ten by half a unit of the last place at
most. Both sides are taken times the powers with negative exponents. -/
theorem table_rounds : ∀ i : Fin tableSize,
    let power := table[i]
    let k := exponentAt i
    let number := power.frac.toNat * (2 ^ power.exp.toNat * 10 ^ (-k).toNat)
    let ten := 10 ^ k.toNat * 2 ^ (-power.exp).toNat
    let unit := 2 ^ power.exp.toNat * 10 ^ (-k).toNat
    2 * number ≤ 2 * ten + unit ∧ 2 * ten ≤ 2 * number + unit := by
  decide +kernel

/-- The exponents of neighbouring entries differ by less than the window is
wide. -/
theorem table_gap : ∀ i j : Fin tableSize, j.val = i.val + 1 →
    table[i].exp ≤ table[j].exp ∧ table[j].exp ≤ table[i].exp + 28 := by
  decide +kernel

theorem start_in_table {exp : Int} (lowest : -1137 ≤ exp) (highest : exp ≤ 960) :
    ∃ i : Fin tableSize, (estimate exp - firstExponent).tdiv exponentStep = i.val := by
  have start : 0 ≤ (estimate exp - firstExponent).tdiv exponentStep ∧
      (estimate exp - firstExponent).tdiv exponentStep < tableSize := by
    simp only [estimate, firstExponent, exponentStep, tableSize, logTwo, Int.tdiv_eq_ediv,
      Int.sign]
    split <;> split <;> omega
  obtain ⟨n, hn⟩ := Int.eq_ofNat_of_zero_le start.1
  exact ⟨⟨n, by omega⟩, hn⟩

/-- The exponent of a product with an entry. -/
def reached (exp : Int) (i : Fin tableSize) : Int := exp + table[i].exp + 64

theorem search_succ (exp : Int) (fuel : Nat) (i : Fin tableSize) :
    search exp (fuel + 1) i.val =
      if reached exp i < -60 then search exp fuel (i.val + 1)
      else if -32 < reached exp i then search exp fuel (i.val - 1)
      else .ok (table[i], exponentAt i) := by
  have nonneg : 0 ≤ (i.val : Int) := by omega
  have found : entry i.val = .ok table[i] := by
    rw [entry, Array.getElem?_eq_getElem]
    rfl
  rw [search, Precondition.require_of_kept _ nonneg]
  simp only [bind, Except.bind, Int.toNat_natCast, found]
  rfl

/-- The search ends at an entry that brings the exponent into the window. -/
def Finds (exp : Int) (result : Except Fault (ExtFloat × Int)) : Prop :=
  ∃ i : Fin tableSize, result = .ok (table[i], exponentAt i) ∧
    -60 ≤ reached exp i ∧ reached exp i ≤ -32

/-- The last entry is never too small, the first one never too large. -/
theorem table_ends : ∀ i : Fin tableSize,
    (i.val + 1 = tableSize → table[i].exp = 1066) ∧ (i.val = 0 → table[i].exp = -1220) := by
  decide +kernel

/-- From an entry that is not too large the search walks up. No step leads past
the window. -/
theorem search_up (lowest : -1137 ≤ exp) (fuel : Nat) (le : reached exp i ≤ -32)
    (enough : tableSize ≤ i.val + fuel) : Finds exp (search exp fuel i.val) := by
  induction fuel generalizing i with
  | zero => exact absurd i.isLt (by omega)
  | succ fuel ih =>
      rw [search_succ]
      by_cases small : reached exp i < -60
      · have next : i.val + 1 < tableSize := by
          by_contra last
          have := (table_ends i).1 (by omega)
          simp only [reached] at small
          omega
        have gap := table_gap i ⟨i.val + 1, next⟩ rfl
        rw [if_pos small]
        apply ih (i := ⟨i.val + 1, next⟩)
        · simp only [reached] at small ⊢
          omega
        · dsimp only
          omega
      · rw [if_neg small, if_neg (by omega)]
        exact ⟨i, rfl, by omega, le⟩

/-- From an entry that is not too small the search walks down. -/
theorem search_down (highest : exp ≤ 960) (fuel : Nat) (ge : -60 ≤ reached exp i)
    (enough : i.val < fuel) : Finds exp (search exp fuel i.val) := by
  induction fuel generalizing i with
  | zero => exact absurd enough (Nat.not_lt_zero _)
  | succ fuel ih =>
      rw [search_succ, if_neg (by omega)]
      by_cases large : -32 < reached exp i
      · have previous : i.val - 1 + 1 = i.val := by
          by_contra first
          have := (table_ends i).2 (by omega)
          simp only [reached] at large
          omega
        have gap := table_gap ⟨i.val - 1, by omega⟩ i previous.symm
        have index : (i.val : Int) - 1 = (i.val - 1 : Nat) := by omega
        rw [if_pos large, index]
        apply ih (i := ⟨i.val - 1, by omega⟩)
        · simp only [reached] at large ⊢
          omega
        · dsimp only
          omega
      · rw [if_neg large]
        exact ⟨i, rfl, ge, by omega⟩

/-- Wherever in the table the search starts, it finds an entry. -/
theorem search_finds (lowest : -1137 ≤ exp) (highest : exp ≤ 960) {fuel : Nat}
    (enough : tableSize ≤ fuel) (i : Fin tableSize) : Finds exp (search exp fuel i.val) := by
  rcases le_or_gt (reached exp i) (-32) with le | gt
  · exact search_up lowest fuel le (by omega)
  · exact search_down highest fuel (by omega) (Nat.lt_of_lt_of_le i.isLt enough)

theorem find_finds (lowest : -1137 ≤ exp) (highest : exp ≤ 960) : Finds exp (find exp) := by
  obtain ⟨i, start⟩ := start_in_table lowest highest
  rw [find, start]
  exact search_finds lowest highest (Nat.le_succ _) i

/-- A power with an integer exponent as a quotient of powers with natural
ones. -/
theorem zpow_eq_div {b : ℚ} (n : ℤ) (h : b ≠ 0) : b ^ n = b ^ n.toNat / b ^ (-n).toNat := by
  have split : n = n.toNat - ((-n).toNat : ℤ) := by omega
  conv_lhs => rw [split, zpow_sub₀ h, zpow_natCast, zpow_natCast]

/-- An entry is its power of ten rounded to nearest. -/
theorem abs_table_sub_le (i : Fin tableSize) :
    |table[i].value - 10 ^ exponentAt i| ≤ 2 ^ table[i].exp / 2 := by
  obtain ⟨most, least⟩ := table_rounds i
  rw [ExtFloat.value, zpow_eq_div table[i].exp (by norm_num),
    zpow_eq_div (exponentAt i) (by norm_num)]
  generalize table[i].frac.toNat = frac at *
  generalize table[i].exp.toNat = a at *
  generalize (-table[i].exp).toNat = b at *
  generalize (exponentAt i).toNat = c at *
  generalize (-exponentAt i).toNat = d at *
  have most' : (2 : ℚ) * (frac * (2 ^ a * 10 ^ d)) ≤ 2 * (10 ^ c * 2 ^ b) + 2 ^ a * 10 ^ d := by
    exact_mod_cast most
  have least' : (2 : ℚ) * (10 ^ c * 2 ^ b) ≤ 2 * (frac * (2 ^ a * 10 ^ d)) + 2 ^ a * 10 ^ d := by
    exact_mod_cast least
  have positive : (0 : ℚ) < 2 ^ b * 10 ^ d := by positivity
  have difference : (frac : ℚ) * (2 ^ a / 2 ^ b) - 10 ^ c / 10 ^ d =
      (frac * (2 ^ a * 10 ^ d) - 10 ^ c * 2 ^ b) / (2 ^ b * 10 ^ d) := by
    field_simp
  have unit : (2 : ℚ) ^ a / 2 ^ b / 2 = 2 ^ a * 10 ^ d / 2 / (2 ^ b * 10 ^ d) := by
    field_simp
  rw [difference, unit, abs_div, abs_of_pos positive, div_le_div_iff_of_pos_right positive, abs_le]
  constructor <;> linarith

end PowerOfTen

namespace ExtFloat

variable (x y : ExtFloat)

/-- The upper word of a product never wraps when it is rounded up. -/
theorem toNat_frac_mul :
    (x.mul y).frac.toNat = (x.frac.toNat * y.frac.toNat + 2 ^ 63) / 2 ^ 64 := by
  have product := Word.toNat_mul x.frac y.frac
  have low : (Word.mul x.frac y.frac).lo.toNat < 2 ^ 64 := UInt64.toNat_lt _
  have most : x.frac.toNat * y.frac.toNat ≤ (2 ^ 64 - 1) * (2 ^ 64 - 1) :=
    Nat.mul_le_mul (Nat.le_pred_of_lt x.frac.toNat_lt) (Nat.le_pred_of_lt y.frac.toNat_lt)
  have half : ((Word.mul x.frac y.frac).lo >>> 63).toNat =
      (Word.mul x.frac y.frac).lo.toNat / 2 ^ 63 :=
    Words.toNat_shiftRight (n := 63) (by decide)
  rw [UInt128.toNat, UInt64.size] at product
  simp only [mul, UInt64.toNat_add, half]
  omega

/-- A product is rounded to nearest. -/
theorem abs_mul_sub_le : |(x.mul y).value - x.value * y.value| ≤ 2 ^ (x.mul y).exp / 2 := by
  have frac := toNat_frac_mul x y
  have exp : (x.mul y).exp = x.exp + y.exp + (64 : ℕ) := rfl
  have unit : (0 : ℚ) < 2 ^ (x.exp + y.exp) := by positivity
  have split : (2 : ℚ) ^ (x.mul y).exp = 2 ^ 64 * 2 ^ (x.exp + y.exp) := by
    rw [exp, zpow_add₀ (by norm_num) (x.exp + y.exp), zpow_natCast, mul_comm]
  have product : x.value * y.value =
      (x.frac.toNat * y.frac.toNat : ℕ) * 2 ^ (x.exp + y.exp) := by
    rw [value, value, zpow_add₀ (by norm_num)]
    push_cast
    ring
  obtain ⟨most, least⟩ : (x.mul y).frac.toNat * 2 ^ 64 ≤ x.frac.toNat * y.frac.toNat + 2 ^ 63 ∧
      x.frac.toNat * y.frac.toNat ≤ (x.mul y).frac.toNat * 2 ^ 64 + 2 ^ 63 := by omega
  have most' : ((x.mul y).frac.toNat : ℚ) * 2 ^ 64 ≤
      (x.frac.toNat * y.frac.toNat : ℕ) + 2 ^ 63 := by
    exact_mod_cast most
  have least' : ((x.frac.toNat * y.frac.toNat : ℕ) : ℚ) ≤
      (x.mul y).frac.toNat * 2 ^ 64 + 2 ^ 63 := by
    exact_mod_cast least
  have difference : (x.mul y).value - x.value * y.value =
      ((x.mul y).frac.toNat * 2 ^ 64 - (x.frac.toNat * y.frac.toNat : ℕ)) *
        2 ^ (x.exp + y.exp) := by
    rw [value, split, product]
    ring
  rw [difference, abs_mul, abs_of_pos unit, split, mul_div_right_comm]
  gcongr
  rw [abs_le]
  constructor <;> linarith

/-- A power of ten brings a float into the window of exponents, and their
product is the scaled number but for less than one of its last place. -/
structure IsScaledBy (w c : ExtFloat) (k : Int) : Prop where
  exp_ge : -60 ≤ (w.mul c).exp
  exp_le : (w.mul c).exp ≤ -32
  frac_eq : (w.mul c).frac.toNat = (w.frac.toNat * c.frac.toNat + 2 ^ 63) / 2 ^ 64
  frac_ge : 2 ^ 62 ≤ (w.mul c).frac.toNat
  close : |(w.mul c).value - w.value * 10 ^ k| < 2 ^ (w.mul c).exp

/-- A normalized float is scaled by each entry in the window. -/
theorem isScaledBy_table {w : ExtFloat} (normalized : 2 ^ 63 ≤ w.frac.toNat)
    {i : Fin PowerOfTen.tableSize} (ge : -60 ≤ PowerOfTen.reached w.exp i)
    (le : PowerOfTen.reached w.exp i ≤ -32) :
    w.IsScaledBy PowerOfTen.table[i] (PowerOfTen.exponentAt i) where
  exp_ge := ge
  exp_le := le
  frac_eq := toNat_frac_mul w _
  frac_ge := by
    have top : 2 ^ 63 ≤ PowerOfTen.table[i].frac.toNat :=
      PowerOfTen.topBit_le_of_mem_table (Array.getElem_mem _)
    have product := Nat.mul_le_mul normalized top
    rw [toNat_frac_mul]
    omega
  close := by
    have rounded := abs_mul_sub_le w PowerOfTen.table[i]
    have entry := PowerOfTen.abs_table_sub_le i
    have word : (w.frac.toNat : ℚ) < 2 ^ 64 := by exact_mod_cast w.frac.toNat_lt
    have unit : (0 : ℚ) < 2 ^ PowerOfTen.table[i].exp := by positivity
    have split : (2 : ℚ) ^ (w.mul PowerOfTen.table[i]).exp =
        2 ^ 64 * 2 ^ w.exp * 2 ^ PowerOfTen.table[i].exp := by
      have exp : (w.mul PowerOfTen.table[i]).exp =
          (64 : ℕ) + w.exp + PowerOfTen.table[i].exp := by
        change w.exp + PowerOfTen.table[i].exp + 64 = _
        omega
      rw [exp, zpow_add₀ (by norm_num), zpow_add₀ (by norm_num), zpow_natCast]
    have range : w.value < 2 ^ 64 * 2 ^ w.exp := mul_lt_mul_of_pos_right word (by positivity)
    have nonneg : 0 ≤ w.value := by
      rw [value]
      positivity
    calc
      |(w.mul PowerOfTen.table[i]).value - w.value * 10 ^ PowerOfTen.exponentAt i| ≤
          |(w.mul PowerOfTen.table[i]).value - w.value * PowerOfTen.table[i].value| +
            |w.value * PowerOfTen.table[i].value - w.value * 10 ^ PowerOfTen.exponentAt i| :=
        abs_sub_le _ _ _
      _ = |(w.mul PowerOfTen.table[i]).value - w.value * PowerOfTen.table[i].value| +
            w.value * |PowerOfTen.table[i].value - 10 ^ PowerOfTen.exponentAt i| := by
        rw [← mul_sub, abs_mul, abs_of_nonneg nonneg]
      _ ≤ 2 ^ (w.mul PowerOfTen.table[i]).exp / 2 +
            w.value * (2 ^ PowerOfTen.table[i].exp / 2) := by gcongr
      _ < 2 ^ (w.mul PowerOfTen.table[i]).exp / 2 +
            2 ^ 64 * 2 ^ w.exp * (2 ^ PowerOfTen.table[i].exp / 2) := by gcongr
      _ = 2 ^ (w.mul PowerOfTen.table[i]).exp := by
        rw [split]
        ring

end ExtFloat

namespace PowerOfTen

/-- For each normalized float with an exponent of the 64-bit format the search
finds an entry of the table that scales it. It would do so from any entry that
it started at, so that it does not hang on the quality of the estimate. -/
theorem find_scales_normalized {w : ExtFloat} (normalized : Word.topBit ≤ w.frac)
    (lowest : -1137 ≤ w.exp) (highest : w.exp ≤ 960) :
    (∃ i c, find w.exp = .ok (c, exponentAt i) ∧ table[i]? = some c ∧
      w.IsScaledBy c (exponentAt i)) ∧
    ∀ start < tableSize, ∃ i c, search w.exp (tableSize + 1) start = .ok (c, exponentAt i) ∧
      table[i]? = some c ∧ w.IsScaledBy c (exponentAt i) := by
  have scaled {result : Except Fault (ExtFloat × Int)} (finds : Finds w.exp result) :
      ∃ i c, result = .ok (c, exponentAt i) ∧ table[i]? = some c ∧
        w.IsScaledBy c (exponentAt i) := by
    obtain ⟨i, found, ge, le⟩ := finds
    exact ⟨i, table[i], found, Array.getElem?_eq_getElem _,
      ExtFloat.isScaledBy_table normalized ge le⟩
  refine ⟨scaled (find_finds lowest highest), ?_⟩
  intro start inTable
  exact scaled (search_finds lowest highest (Nat.le_succ _) ⟨start, inTable⟩)

/-- The smallest number of the 64-bit format is scaled by the largest power that
is ever needed, also when the search starts at the table's first entry. -/
theorem find_scales_smallest :
    ∃ w c : ExtFloat, Word.topBit ≤ w.frac ∧ w.value = 2 ^ (-1074 : ℤ) ∧
      find w.exp = .ok (c, 324) ∧ search w.exp (tableSize + 1) 0 = .ok (c, 324) ∧
      w.IsScaledBy c 324 := by
  have found : find (-1137) = .ok (⟨11392378155556871081, 1013⟩, 324) := by decide +kernel
  have walked : search (-1137) (tableSize + 1) 0 =
      .ok (⟨11392378155556871081, 1013⟩, 324) := by decide +kernel
  obtain ⟨⟨i, c, finds, -, scaled⟩, -⟩ :=
    find_scales_normalized (w := ⟨Word.topBit, -1137⟩) (by decide) (by decide) (by decide)
  have same := Except.ok.inj (finds.symm.trans found)
  rw [Prod.mk.injEq] at same
  obtain ⟨rfl, power⟩ := same
  rw [power] at scaled
  refine ⟨⟨Word.topBit, -1137⟩, _, by decide, ?_, found, walked, scaled⟩
  have top : Word.topBit.toNat = 2 ^ 63 := rfl
  rw [ExtFloat.value, top, Nat.cast_pow, Nat.cast_two, ← zpow_natCast,
    ← zpow_add₀ (by norm_num)]
  rfl

end PowerOfTen

end RadixText

import RadixText.Numeral.Wide
import RadixText.Proofs.Numerals

/-!
# Numerals of two words are plain numerals

The chunk of a radix is its largest power in a word. Division by it is exact,
the digits of a remainder fill its width, and two divisions leave a number of
one word.
-/

namespace RadixText

namespace Chunk

variable {r : Radix} {radix : UInt64}

/-- Growing multiplies power and exponent alike. -/
theorem toNat_grow (hr : radix.toNat = r.val) (fuel : Nat) {power : UInt64} {step : Nat}
    (hp : power.toNat = r.val ^ step) :
    (grow radix fuel power step).1.toNat = r.val ^ (grow radix fuel power step).2 := by
  induction fuel generalizing power step with
  | zero => exact hp
  | succ fuel ih =>
      by_cases fits : power ≤ Word.allOnes / radix
      · rw [grow, if_pos fits]
        apply ih
        rw [UInt64.le_iff_toNat_le, UInt64.toNat_div, hr, Nat.le_div_iff_mul_le r.val_pos] at fits
        rw [UInt64.toNat_mul, hr, Nat.mod_eq_of_lt (Nat.lt_of_le_of_lt fits (by decide)), hp,
          pow_succ]
      · rw [grow, if_neg fits]
        exact hp

/-- Growing ends at a power whose next one leaves the word. -/
theorem le_grow_mul (hr : radix.toNat = r.val) {fuel : Nat} {power : UInt64} {step : Nat}
    (hp : 2 ^ 64 ≤ power.toNat * 2 ^ fuel) :
    2 ^ 64 ≤ (grow radix fuel power step).1.toNat * r.val := by
  induction fuel generalizing power step with
  | zero =>
      have := power.toNat_lt
      omega
  | succ fuel ih =>
      by_cases fits : power ≤ Word.allOnes / radix
      · rw [grow, if_pos fits]
        apply ih
        rw [UInt64.le_iff_toNat_le, UInt64.toNat_div, hr, Nat.le_div_iff_mul_le r.val_pos] at fits
        rw [UInt64.toNat_mul, hr, Nat.mod_eq_of_lt (Nat.lt_of_le_of_lt fits (by decide))]
        calc
          2 ^ 64 ≤ power.toNat * 2 ^ (fuel + 1) := hp
          _ = power.toNat * 2 * 2 ^ fuel := by ring
          _ ≤ power.toNat * r.val * 2 ^ fuel :=
            Nat.mul_le_mul_right _ (Nat.mul_le_mul_left _ r.two_le)
      · rw [grow, if_neg fits]
        rw [UInt64.le_iff_toNat_le, UInt64.toNat_div, hr, Nat.le_div_iff_mul_le r.val_pos] at fits
        exact Nat.lt_of_not_le fits

end Chunk

namespace Radix

variable (r : Radix)

theorem toNat_chunk_divisor : r.chunk.divisor.toNat = r.val ^ r.chunk.step :=
  Chunk.toNat_grow r.toNat_ofNat_val 64 (by rw [r.toNat_ofNat_val, pow_one])

/-- The next power of the radix leaves the word. -/
theorem le_chunk_divisor_mul : 2 ^ 64 ≤ r.chunk.divisor.toNat * r.val :=
  Chunk.le_grow_mul r.toNat_ofNat_val
    (Nat.le_mul_of_pos_left _ (by rw [r.toNat_ofNat_val]; exact r.val_pos))

theorem chunk_divisor_pos : 0 < r.chunk.divisor.toNat := by
  rw [r.toNat_chunk_divisor]
  exact r.val_pow_pos _

theorem chunk_step_ne_zero : r.chunk.step ≠ 0 := by
  intro zero
  have large := r.le_chunk_divisor_mul
  have small := r.le_thirtySix
  rw [r.toNat_chunk_divisor, zero, pow_zero, Nat.one_mul] at large
  omega

end Radix

namespace UInt128

/-- The quotient by a divisor above the high word is exact in one word. -/
theorem divModWord_value {x : UInt128} {d : Chunk} (h : x.hi < d.divisor) :
    ∃ q s, x.divModWord d = .ok (q, s) ∧ q.toNat = x.toNat / d.divisor.toNat ∧
      s.toNat = x.toNat % d.divisor.toNat := by
  have below : x.hi.toNat < d.divisor.toNat := h
  have positive : 0 < d.divisor.toNat := Nat.zero_lt_of_lt below
  have low : x.lo.toNat < 2 ^ 64 := x.lo.toNat_lt
  have quotient : x.toNat / d.divisor.toNat < 2 ^ 64 := by
    rw [Nat.div_lt_iff_lt_mul positive, toNat, UInt64.size, Nat.mul_comm (2 ^ 64)]
    have := Nat.mul_le_mul_right (2 ^ 64) below
    omega
  have value : (UInt64.ofNat (x.toNat / d.divisor.toNat)).toNat =
      x.toNat / d.divisor.toNat := by
    rw [UInt64.toNat_ofNat', Nat.mod_eq_of_lt quotient]
  refine ⟨_, x.lo - UInt64.ofNat (x.toNat / d.divisor.toNat) * d.divisor, ?_, value, ?_⟩
  · rw [divModWord, Precondition.require_of_kept _ h]
    rfl
  · have rest : x.toNat % d.divisor.toNat < 2 ^ 64 :=
      Nat.lt_trans (Nat.mod_lt _ positive) d.divisor.toNat_lt
    have split := Nat.div_add_mod x.toNat d.divisor.toNat
    rw [UInt64.toNat_sub, UInt64.toNat_mul, value,
      Nat.mul_comm (x.toNat / d.divisor.toNat)]
    simp only [toNat, UInt64.size] at split rest ⊢
    omega

theorem divMod_value (x : UInt128) {d : Chunk} (h : 0 < d.divisor.toNat) :
    ∃ q s, x.divMod d = .ok (q, s) ∧ q.toNat = x.toNat / d.divisor.toNat ∧
      s.toNat = x.toNat % d.divisor.toNat := by
  have high : (x.hi - x.hi / d.divisor * d.divisor).toNat = x.hi.toNat % d.divisor.toNat := by
    have split := Nat.div_add_mod' x.hi.toNat d.divisor.toNat
    have word := x.hi.toNat_lt
    rw [UInt64.toNat_sub, UInt64.toNat_mul, UInt64.toNat_div]
    omega
  have below : x.hi - x.hi / d.divisor * d.divisor < d.divisor := by
    rw [UInt64.lt_iff_toNat_lt, high]
    exact Nat.mod_lt _ h
  obtain ⟨q, s, divided, quotient, rest⟩ :=
    divModWord_value (x := ⟨x.hi - x.hi / d.divisor * d.divisor, x.lo⟩) below
  have split : x.toNat = d.divisor.toNat * (x.hi.toNat / d.divisor.toNat * UInt64.size) +
      (x.hi.toNat % d.divisor.toNat * UInt64.size + x.lo.toNat) := by
    rw [toNat]
    conv_lhs => rw [← Nat.div_add_mod x.hi.toNat d.divisor.toNat]
    ring
  simp only [toNat, high] at quotient rest
  refine ⟨⟨x.hi / d.divisor, q⟩, s, ?_, ?_, ?_⟩
  · rw [divMod, divided]
    rfl
  · rw [split, Nat.mul_add_div h, ← quotient, ← UInt64.toNat_div, toNat]
  · rw [split, Nat.mul_add_mod, rest]

theorem hi_eq_zero_iff (x : UInt128) : x.hi = 0 ↔ x.toNat < 2 ^ 64 := by
  have low : x.lo.toNat < 2 ^ 64 := x.lo.toNat_lt
  rw [← UInt64.toNat_inj, toNat, UInt64.size]
  change x.hi.toNat = 0 ↔ _
  omega

theorem toNat_of_hi_eq_zero {x : UInt128} (h : x.hi = 0) : x.toNat = x.lo.toNat := by
  rw [toNat, h]
  exact (congrArg (· + x.lo.toNat) (Nat.zero_mul _)).trans (Nat.zero_add _)

end UInt128

namespace Numeral

variable (r : Radix) (c : LetterCase)

/-- A word below the power of the radix for a width is written in that width. -/
theorem padded_of_lt {n : Nat} {v : UInt64} (hn : n ≠ 0) (h : v.toNat < r.val ^ n) :
    padded r c n v = .ok (List.replicate (n - (r.plainNumeral c v.toNat).length) '0' ++
      r.plainNumeral c v.toNat) := by
  have text : ofWord r c v.toBitVec = r.plainNumeral c v.toNat :=
    ofWord_eq_plainNumeral r c (by decide) v.toBitVec
  have fits : (r.plainNumeral c v.toNat).length ≤ n := by
    rw [Radix.plainNumeral, List.length_map]
    exact r.length_digits_le hn h
  simp only [padded, text, Precondition.require_of_kept _ fits]
  rfl

/-- Front digits and a chunk at full width make up the digits of the whole. -/
theorem plainNumeral_append_padding {n q s : Nat} (hn : n ≠ 0) (hq : q ≠ 0)
    (h : s < r.val ^ n) :
    r.plainNumeral c q ++ (List.replicate (n - (r.plainNumeral c s).length) '0' ++
      r.plainNumeral c s) = r.plainNumeral c (q * r.val ^ n + s) := by
  have zero : digitChar c 0 = '0' := by cases c <;> rfl
  rw [Radix.plainNumeral, Radix.plainNumeral, Radix.plainNumeral, List.length_map, ← zero,
    ← List.map_replicate, ← List.map_append, ← List.map_append,
    r.digits_mul_pow_add hq (r.length_digits_le hn h)]

theorem ofWord_lo {v : UInt128} (single : v.hi = 0) :
    ofWord r c v.lo.toBitVec = r.plainNumeral c v.toNat := by
  rw [ofWord_eq_plainNumeral r c (by decide), UInt128.toNat_of_hi_eq_zero single]
  rfl

/-- The lowest digits of a number are cut off as a chunk, with zeros in front
up to its full width, and the quotient is left of the number. -/
structure CutsOff (v upper : UInt128) (rest : UInt64) (low : List Char) : Prop where
  divided : v.divMod r.chunk = .ok (upper, rest)
  written : padded r c r.chunk.step rest = .ok low
  padding : low = List.replicate (r.chunk.step - (r.plainNumeral c rest.toNat).length) '0' ++
    r.plainNumeral c rest.toNat
  quotient : upper.toNat = v.toNat / r.chunk.divisor.toNat
  remainder : rest.toNat = v.toNat % r.chunk.divisor.toNat
  text : r.plainNumeral c upper.toNat ++ low = r.plainNumeral c v.toNat

/-- A number of two words has a lowest chunk. -/
theorem exists_cutsOff {v : UInt128} (wide : v.hi ≠ 0) :
    ∃ upper rest low, CutsOff r c v upper rest low := by
  obtain ⟨upper, rest, divided, quotient, remainder⟩ := v.divMod_value r.chunk_divisor_pos
  have large : 2 ^ 64 ≤ v.toNat := by
    rw [ne_eq, UInt128.hi_eq_zero_iff] at wide
    omega
  have below : rest.toNat < r.val ^ r.chunk.step := by
    rw [remainder, ← r.toNat_chunk_divisor]
    exact Nat.mod_lt _ r.chunk_divisor_pos
  have nonzero : upper.toNat ≠ 0 := by
    rw [quotient]
    exact Nat.ne_of_gt (Nat.div_pos
      (Nat.le_of_lt (Nat.lt_of_lt_of_le r.chunk.divisor.toNat_lt large)) r.chunk_divisor_pos)
  have whole : upper.toNat * r.val ^ r.chunk.step + rest.toNat = v.toNat := by
    rw [quotient, remainder, ← r.toNat_chunk_divisor, Nat.div_add_mod']
  refine ⟨upper, rest, _, divided, padded_of_lt r c r.chunk_step_ne_zero below, rfl, quotient,
    remainder, ?_⟩
  rw [plainNumeral_append_padding r c r.chunk_step_ne_zero nonzero below, whole]

/-- Two chunks leave one word. The square of the divisor misses the full range
by at most the square of the radix. -/
theorem hi_eq_zero_of_chunks {v top : UInt128}
    (quotient : top.toNat = v.toNat / r.chunk.divisor.toNat / r.chunk.divisor.toNat) :
    top.hi = 0 := by
  have range := Nat.mul_le_mul r.le_chunk_divisor_mul r.le_chunk_divisor_mul
  have radix : r.val * r.val ≤ 36 * 36 := Nat.mul_le_mul r.le_thirtySix r.le_thirtySix
  rw [UInt128.hi_eq_zero_iff, quotient, Nat.div_div_eq_div_mul]
  apply Nat.div_lt_of_lt_mul
  calc
    v.toNat < 2 ^ 64 * 2 ^ 64 := v.toNat_lt
    _ ≤ r.chunk.divisor.toNat * r.val * (r.chunk.divisor.toNat * r.val) := range
    _ = r.chunk.divisor.toNat * r.chunk.divisor.toNat * (r.val * r.val) := by ring
    _ ≤ r.chunk.divisor.toNat * r.chunk.divisor.toNat * 2 ^ 64 :=
      Nat.mul_le_mul_left _ (Nat.le_trans radix (by decide))

/-- One chunk is enough where the quotient has one word. -/
theorem ofUInt128_of_cutsOff {v upper : UInt128} {rest : UInt64} {low : List Char}
    (wide : v.hi ≠ 0) (chunk : CutsOff r c v upper rest low) (short : upper.hi = 0) :
    ofUInt128 r c v = .ok (ofWord r c upper.lo.toBitVec ++ low) := by
  simp only [ofUInt128, wide, if_false, chunk.divided, bind, Except.bind, chunk.written, short,
    if_true]
  rfl

/-- Otherwise a second chunk is cut off the quotient. -/
theorem ofUInt128_of_cutsOff_of_cutsOff {v upper top : UInt128} {rest rest' : UInt64}
    {low middle : List Char} (wide : v.hi ≠ 0) (chunk : CutsOff r c v upper rest low)
    (wide' : upper.hi ≠ 0) (chunk' : CutsOff r c upper top rest' middle) :
    top.hi = 0 ∧ ofUInt128 r c v = .ok (ofWord r c top.lo.toBitVec ++ middle ++ low) := by
  have short : top.hi = 0 := by
    apply hi_eq_zero_of_chunks r (v := v)
    rw [chunk'.quotient, chunk.quotient]
  refine ⟨short, ?_⟩
  simp only [ofUInt128, wide, if_false, chunk.divided, bind, Except.bind, chunk.written, wide',
    chunk'.divided, chunk'.written, Precondition.require_of_kept _ short]
  rfl

/-- The numeral of a two-word number consists of the plain digits of its
number. No chunk overflows its width and two divisions suffice. -/
theorem ofUInt128_eq_plainNumeral (v : UInt128) :
    ofUInt128 r c v = .ok (r.plainNumeral c v.toNat) := by
  by_cases single : v.hi = 0
  · rw [ofUInt128, if_pos single, ofWord_lo r c single]
  · obtain ⟨upper, rest, low, chunk⟩ := exists_cutsOff r c single
    by_cases short : upper.hi = 0
    · rw [ofUInt128_of_cutsOff r c single chunk short, ofWord_lo r c short, chunk.text]
    · obtain ⟨top, rest', middle, chunk'⟩ := exists_cutsOff r c short
      obtain ⟨topShort, text⟩ := ofUInt128_of_cutsOff_of_cutsOff r c single chunk short chunk'
      rw [text, ofWord_lo r c topShort, chunk'.text, chunk.text]

/-- A two-word number is written with the digits of plain repeated division,
without a leading zero besides that of zero. A number of one word is written as
that word. Any other is a word followed by one or two chunks, each of them
padded to its full width. -/
theorem two_word_numeral_by_chunks (v : UInt128) : ∃ text digits,
    ofUInt128 r c v = .ok text ∧ text = digits.map (digitChar c) ∧
    digits = r.digits (v.hi.toNat * 2 ^ 64 + v.lo.toNat) ∧ (∀ d ∈ digits, d < r.val) ∧
    (digits.head? = some 0 → digits = [0]) ∧
    r.ofDigits digits = v.hi.toNat * 2 ^ 64 + v.lo.toNat ∧
    if v.hi = 0 then text = ofWord r c v.lo.toBitVec
    else ∃ upper rest low, CutsOff r c v upper rest low ∧ low.length = r.chunk.step ∧
      if upper.hi = 0 then text = ofWord r c upper.lo.toBitVec ++ low
      else ∃ top rest' middle, CutsOff r c upper top rest' middle ∧
        middle.length = r.chunk.step ∧ top.hi = 0 ∧
        text = ofWord r c top.lo.toBitVec ++ middle ++ low := by
  refine ⟨_, r.digits v.toNat, ofUInt128_eq_plainNumeral r c v, rfl, rfl, ?_, ?_,
    r.ofDigits_digits _, ?_⟩
  · intro d mem
    exact r.lt_of_mem_digits mem
  · intro zero
    exact r.digits_eq_of_head_eq_zero zero
  · split
    case isTrue single => exact (ofWord_lo r c single).symm
    case isFalse wide =>
      obtain ⟨upper, rest, low, chunk⟩ := exists_cutsOff r c wide
      refine ⟨upper, rest, low, chunk, length_of_padded r c chunk.written, ?_⟩
      split
      case isTrue short => rw [ofWord_lo r c short, chunk.text]
      case isFalse wide' =>
        obtain ⟨top, rest', middle, chunk'⟩ := exists_cutsOff r c wide'
        obtain ⟨topShort, -⟩ := ofUInt128_of_cutsOff_of_cutsOff r c wide chunk wide' chunk'
        refine ⟨top, rest', middle, chunk', length_of_padded r c chunk'.written, topShort, ?_⟩
        rw [ofWord_lo r c topShort, chunk'.text, chunk.text]

end Numeral

end RadixText

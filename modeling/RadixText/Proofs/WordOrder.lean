import RadixText.Proofs.Words

/-!
# Order and quotients of lists of words

Trimmed words are compared by count, then from the top down. Dividing by a
half word and cutting at a bit are exact.
-/

namespace RadixText.Words

theorem compare_eq_compare_toNat (w v : UInt64) : compare w v = compare w.toNat v.toNat := by
  simp only [compare, compareOfLessAndEq, UInt64.lt_iff_toNat_lt, UInt64.toNat_inj]

/-- The word above the others decides unless it is the same. -/
theorem compare_add_mul {a b x y s : Nat} (ha : a < s) (hb : b < s) :
    compare (a + s * x) (b + s * y) = (compare x y).then (compare a b) := by
  rcases Nat.lt_trichotomy x y with less | rfl | more
  · rw [Nat.compare_eq_lt.mpr less]
    apply Nat.compare_eq_lt.mpr
    have := Nat.mul_le_mul_left s less
    rw [Nat.mul_succ] at this
    omega
  · rw [Nat.compare_eq_eq.mpr rfl]
    change _ = compare a b
    rcases Nat.lt_trichotomy a b with below | rfl | above
    · rw [Nat.compare_eq_lt.mpr below, Nat.compare_eq_lt]
      omega
    · rw [Nat.compare_eq_eq.mpr rfl, Nat.compare_eq_eq.mpr rfl]
    · rw [Nat.compare_eq_gt.mpr above, Nat.compare_eq_gt]
      omega
  · rw [Nat.compare_eq_gt.mpr more]
    apply Nat.compare_eq_gt.mpr
    have := Nat.mul_le_mul_left s more
    rw [Nat.mul_succ] at this
    omega

theorem compareFromTop_eq {ws vs : List UInt64} (h : ws.length = vs.length) :
    compareFromTop ws vs = compare (toNat ws) (toNat vs) := by
  induction ws generalizing vs with
  | nil =>
      rw [List.eq_nil_of_length_eq_zero h.symm]
      rfl
  | cons w ws ih =>
      cases vs with
      | nil => exact absurd h (Nat.succ_ne_zero _)
      | cons v vs =>
          rw [compareFromTop, ih (Nat.succ.inj h), toNat_cons, toNat_cons,
            compare_add_mul w.toNat_lt v.toNat_lt, compare_eq_compare_toNat]

/-- Fewer trimmed words denote a smaller number. -/
theorem toNat_lt_of_length_lt {ws vs : List UInt64} (hv : IsTrimmed vs)
    (h : ws.length < vs.length) : toNat ws < toNat vs := by
  by_contra le
  have short := (hv.toNat_lt_pow_iff ws.length).mp
    (Nat.lt_of_le_of_lt (Nat.le_of_not_lt le) (toNat_lt ws))
  omega

theorem compareTrimmed_eq {ws vs : List UInt64} (hw : IsTrimmed ws) (hv : IsTrimmed vs) :
    compareTrimmed ws vs = compare (toNat ws) (toNat vs) := by
  rw [compareTrimmed]
  rcases Nat.lt_trichotomy ws.length vs.length with less | same | more
  · rw [Nat.compare_eq_lt.mpr less, Nat.compare_eq_lt.mpr (toNat_lt_of_length_lt hv less)]
    rfl
  · rw [Nat.compare_eq_eq.mpr same]
    exact compareFromTop_eq same
  · rw [Nat.compare_eq_gt.mpr more, Nat.compare_eq_gt.mpr (toNat_lt_of_length_lt hw more)]
    rfl

theorem toNat_eq_zero_iff (ws : List UInt64) : toNat ws = 0 ↔ ws.all (· == 0) = true := by
  induction ws with
  | nil => simp
  | cons w ws ih =>
      have zero : w.toNat = 0 ↔ w = 0 := by
        rw [← UInt64.toNat_inj]
        rfl
      have size : UInt64.size ≠ 0 := by decide
      simp [← ih, zero, size]

/-- A top word decides, unless it is equal and all words below it are zero. -/
theorem compare_concat (low : List UInt64) (top bit : UInt64) :
    (compare top bit).then (if low.all (· == 0) then .eq else .gt) =
      compare (toNat (low ++ [top])) (UInt64.size ^ low.length * bit.toNat) := by
  have lowBound := toNat_lt low
  rw [← Nat.zero_add (UInt64.size ^ low.length * bit.toNat), toNat_append, toNat_cons, toNat_nil,
    Nat.mul_zero, Nat.add_zero, compare_add_mul lowBound (Nat.zero_lt_of_lt lowBound),
    compare_eq_compare_toNat]
  congr 1
  by_cases zero : toNat low = 0
  · rw [if_pos ((toNat_eq_zero_iff low).mp zero), zero]
    rfl
  · rw [if_neg (mt (toNat_eq_zero_iff low).mpr zero)]
    exact (Nat.compare_eq_gt.mpr (Nat.pos_of_ne_zero zero)).symm

/-- Trimmed words compare with a power of two as their number does. -/
theorem comparePowerOfTwo_natCast {ws : List UInt64} (hw : IsTrimmed ws) (k : Nat) :
    comparePowerOfTwo ws k = compare (toNat ws) (2 ^ k) := by
  have part : k % 64 < 64 := Nat.mod_lt _ (by decide)
  have bitBound : 2 ^ (k % 64) < UInt64.size := Nat.pow_lt_pow_right (by decide) part
  rw [comparePowerOfTwo, if_neg (by omega), Int.toNat_natCast, two_pow_eq k]
  dsimp only
  rcases Nat.lt_trichotomy ws.length (k / 64 + 1) with less | same | more
  · have below : toNat ws < UInt64.size ^ (k / 64) * 2 ^ (k % 64) :=
      Nat.lt_of_lt_of_le ((hw.toNat_lt_pow_iff _).mpr (Nat.le_of_lt_succ less))
        (Nat.le_mul_of_pos_right _ (Nat.two_pow_pos _))
    rw [Nat.compare_eq_lt.mpr less, Nat.compare_eq_lt.mpr below]
    rfl
  · obtain ⟨low, top, rfl⟩ : ∃ low top, ws = low ++ [top] := by
      rcases List.eq_nil_or_concat ws with rfl | ⟨low, top, split⟩
      · simp at same
      · exact ⟨low, top, by simp [split]⟩
    have length : low.length = k / 64 := by simpa using same
    have getTop : (low ++ [top]).getD low.length 0 = top := by simp
    have takeLow : (low ++ [top]).take low.length = low := by simp
    rw [Nat.compare_eq_eq.mpr same, ← length, getTop, takeLow, ← toNat_one_shiftLeft part,
      ← compare_concat]
    rfl
  · have above : UInt64.size ^ (k / 64) * 2 ^ (k % 64) < toNat ws := by
      have place : UInt64.size ^ (k / 64 + 1) ≤ toNat ws := by
        by_contra less
        have := (hw.toNat_lt_pow_iff _).mp (Nat.lt_of_not_le less)
        omega
      refine Nat.lt_of_lt_of_le ?_ place
      rw [pow_succ]
      exact Nat.mul_lt_mul_of_pos_left bitBound (Nat.pow_pos (by decide))
    rw [Nat.compare_eq_gt.mpr more, Nat.compare_eq_gt.mpr above]
    rfl

theorem comparePowerOfTwo_of_neg {ws : List UInt64} (hw : IsTrimmed ws) {e : Int} (h : e < 0) :
    comparePowerOfTwo ws e = if toNat ws = 0 then .lt else .gt := by
  rw [comparePowerOfTwo, if_pos h]
  by_cases zero : toNat ws = 0
  · rw [if_pos zero, hw.eq_nil_iff.mpr zero]
    rfl
  · have nonempty : ws.isEmpty = false := by
      rw [List.isEmpty_eq_false_iff]
      exact mt hw.eq_nil_iff.mp zero
    rw [if_neg zero, nonempty]
    rfl

/-! ## Division -/

/-- Dividing two half words in a row divides the word that follows a
remainder. -/
theorem divHalves_value {rest w divisor high low : UInt64} (h : rest.toNat < divisor.toNat)
    (small : divisor.toNat < 4294967296) (hh : high = Word.ofHalves rest (Word.highHalf w))
    (hl : low = Word.ofHalves (high % divisor) (Word.lowHalf w)) :
    (Word.ofHalves (high / divisor) (low / divisor)).toNat =
        (rest.toNat * UInt64.size + w.toNat) / divisor.toNat ∧
      (low % divisor).toNat = (rest.toNat * UInt64.size + w.toNat) % divisor.toNat := by
  have word : w.toNat < 4294967296 * 4294967296 := w.toNat_lt
  have positive : 0 < divisor.toNat := Nat.zero_lt_of_lt h
  have topHalf : w.toNat / 4294967296 < 4294967296 := Nat.div_lt_of_lt_mul word
  have bottomHalf : w.toNat % 4294967296 < 4294967296 := Nat.mod_lt _ (by decide)
  have highValue : high.toNat = rest.toNat * 4294967296 + w.toNat / 4294967296 := by
    rw [hh, Word.toNat_ofHalves (by omega) (by rwa [Word.toNat_highHalf]), Word.toNat_highHalf]
  have highRest : high.toNat % divisor.toNat < divisor.toNat := Nat.mod_lt _ positive
  have lowValue : low.toNat = high.toNat % divisor.toNat * 4294967296 + w.toNat % 4294967296 := by
    rw [hl, Word.toNat_ofHalves (by rw [UInt64.toNat_mod]; omega) (by rwa [Word.toNat_lowHalf]),
      Word.toNat_lowHalf, UInt64.toNat_mod]
  have quotientBelow {a b : Nat} (ha : a < divisor.toNat) (hb : b < 4294967296) :
      (a * 4294967296 + b) / divisor.toNat < 4294967296 := by
    rw [Nat.div_lt_iff_lt_mul positive, Nat.mul_comm 4294967296]
    have := Nat.mul_le_mul_right 4294967296 ha
    omega
  have highQuotient : (high / divisor).toNat < 4294967296 := by
    rw [UInt64.toNat_div, highValue]
    exact quotientBelow h topHalf
  have lowQuotient : (low / divisor).toNat < 4294967296 := by
    rw [UInt64.toNat_div, lowValue]
    exact quotientBelow highRest bottomHalf
  have whole : rest.toNat * UInt64.size + w.toNat =
      divisor.toNat * (high.toNat / divisor.toNat * 4294967296) + low.toNat :=
    calc
      rest.toNat * UInt64.size + w.toNat =
          rest.toNat * (4294967296 * 4294967296) +
            (4294967296 * (w.toNat / 4294967296) + w.toNat % 4294967296) := by
        rw [Nat.div_add_mod]
      _ = high.toNat * 4294967296 + w.toNat % 4294967296 := by
        rw [highValue]
        ring
      _ = (divisor.toNat * (high.toNat / divisor.toNat) + high.toNat % divisor.toNat) *
            4294967296 + w.toNat % 4294967296 := by rw [Nat.div_add_mod]
      _ = divisor.toNat * (high.toNat / divisor.toNat * 4294967296) + low.toNat := by
        rw [lowValue]
        ring
  constructor
  · rw [Word.toNat_ofHalves highQuotient lowQuotient, UInt64.toNat_div, UInt64.toNat_div, whole,
      Nat.mul_add_div positive]
  · rw [UInt64.toNat_mod, whole, Nat.mul_add_mod]

theorem divMod_value {divisor : UInt64} (positive : 0 < divisor.toNat)
    (small : divisor.toNat < 4294967296) (ws : List UInt64) :
    toNat (divMod divisor ws).1 = toNat ws / divisor.toNat ∧
      (divMod divisor ws).2.toNat = toNat ws % divisor.toNat := by
  induction ws with
  | nil => simp [divMod]
  | cons w ws ih =>
      obtain ⟨quotients, rest⟩ := ih
      have below : (divMod divisor ws).2.toNat < divisor.toNat := by
        rw [rest]
        exact Nat.mod_lt _ positive
      obtain ⟨quotient, rest'⟩ := divHalves_value (w := w) below small rfl rfl
      have whole : toNat (w :: ws) = divisor.toNat * (UInt64.size * (toNat ws / divisor.toNat)) +
          ((divMod divisor ws).2.toNat * UInt64.size + w.toNat) := by
        have split := Nat.div_add_mod (toNat ws) divisor.toNat
        rw [toNat_cons, rest]
        conv_lhs => rw [← split]
        ring
      rw [divMod, whole, Nat.mul_add_div positive, Nat.mul_add_mod]
      refine ⟨?_, rest'⟩
      rw [toNat_cons, quotients, ← quotient]
      exact Nat.add_comm _ _

/-! ## Cutting at a bit -/

/-- The low part of a word and the words above it, cut at a bit of the word. -/
theorem mod_two_pow_mul {part w rest : Nat} (h : part ≤ 64) :
    (w + UInt64.size * rest) % 2 ^ part = w % 2 ^ part := by
  rw [size_split h, Nat.mul_assoc, Nat.add_mul_mod_self_left]

/-- A word and the low bits of the next one, moved down together. -/
theorem toNat_shiftRight_or {part : Nat} (h : part < 64) (w : UInt64) (rest : List UInt64) :
    (w >>> UInt64.ofNat part ||| if UInt64.ofNat part = 0 then 0
      else rest.headD 0 <<< (64 - UInt64.ofNat part)).toNat =
      (w.toNat + UInt64.size * toNat rest) / 2 ^ part % UInt64.size := by
  have power := Nat.two_pow_pos part
  have word : w.toNat < UInt64.size := w.toNat_lt
  by_cases aligned : part = 0
  · rw [if_pos ((ofNat_eq_zero_iff h).mpr aligned), aligned, pow_zero, Nat.div_one,
      Nat.add_mul_mod_self_left, Nat.mod_eq_of_lt word]
    simp
  · have high : 64 - part < 64 := by omega
    have size := size_split (Nat.le_of_lt h)
    have headWord : (rest.headD 0).toNat % 2 ^ part = toNat rest % 2 ^ part := by
      rw [← toNat_headD_tail rest, mod_two_pow_mul (Nat.le_of_lt h)]
    have shiftedBound : w.toNat / 2 ^ part < 2 ^ (64 - part) := by
      rw [Nat.div_lt_iff_lt_mul power, Nat.mul_comm, ← size]
      exact word
    have shiftedHead : (rest.headD 0 <<< UInt64.ofNat (64 - part)).toNat =
        (toNat rest % 2 ^ part) <<< (64 - part) := by
      rw [toNat_shiftLeft high, Nat.shiftLeft_eq, size, Nat.mul_mod_mul_right, headWord]
    rw [if_neg (mt (ofNat_eq_zero_iff h).mp aligned), sub_ofNat h, UInt64.toNat_or,
      toNat_shiftRight h, shiftedHead, Nat.or_comm,
      ← Nat.shiftLeft_add_eq_or_of_lt shiftedBound, Nat.shiftLeft_eq]
    rw [size, Nat.mul_assoc, Nat.add_mul_div_left _ _ power,
      Nat.mul_comm (2 ^ part) (2 ^ (64 - part)), Nat.mod_mul,
      Nat.add_mul_mod_self_left, Nat.mod_eq_of_lt shiftedBound,
      Nat.add_mul_div_left _ _ (Nat.two_pow_pos _), Nat.div_eq_of_lt shiftedBound,
      Nat.zero_add]
    ring

/-- What a cut leaves below, and the word above it. -/
theorem split_value (bits : Nat) (ws : List UInt64) :
    toNat (split bits ws).2 = toNat ws % 2 ^ bits ∧
      (split bits ws).1.toNat = toNat ws / 2 ^ bits % UInt64.size := by
  have part : bits % 64 < 64 := Nat.mod_lt _ (by decide)
  have pieces := List.take_append_drop (bits / 64) ws
  cases drop : ws.drop (bits / 64) with
  | nil =>
      have short : ws.length ≤ bits / 64 := List.drop_eq_nil_iff.mp drop
      have below : toNat ws < 2 ^ bits := by
        rw [two_pow_eq]
        exact Nat.lt_of_lt_of_le
          (Nat.lt_of_lt_of_le (toNat_lt ws) (Nat.pow_le_pow_right (by decide) short))
          (Nat.le_mul_of_pos_right _ (Nat.two_pow_pos _))
      simp only [split, drop, Nat.mod_eq_of_lt below, Nat.div_eq_of_lt below]
      exact ⟨trivial, rfl⟩
  | cons w rest =>
      have long : bits / 64 ≤ ws.length := by
        have := congrArg List.length drop
        rw [List.length_drop, List.length_cons] at this
        omega
      have length : (ws.take (bits / 64)).length = bits / 64 := List.length_take_of_le long
      have lowBound := toNat_lt (ws.take (bits / 64))
      rw [length] at lowBound
      have value : toNat ws = toNat (ws.take (bits / 64)) +
          UInt64.size ^ (bits / 64) * (w.toNat + UInt64.size * toNat rest) := by
        conv_lhs => rw [← pieces, drop, toNat_append, length, toNat_cons]
      constructor
      · simp only [split, drop]
        rw [toNat_append, length, toNat_cons, toNat_nil, Nat.mul_zero, Nat.add_zero,
          toNat_and_mask part, value, two_pow_eq bits, Nat.mod_mul, Nat.add_mul_mod_self_left,
          Nat.mod_eq_of_lt lowBound, Nat.add_mul_div_left _ _ (Nat.zero_lt_of_lt lowBound),
          Nat.div_eq_of_lt lowBound, Nat.zero_add, mod_two_pow_mul (Nat.le_of_lt part)]
      · simp only [split, drop]
        rw [toNat_shiftRight_or part, value, two_pow_eq bits, ← Nat.div_div_eq_div_mul,
          Nat.add_mul_div_left _ _ (Nat.zero_lt_of_lt lowBound), Nat.div_eq_of_lt lowBound,
          Nat.zero_add]

end RadixText.Words

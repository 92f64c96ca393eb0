import RadixText.Bignum.Basic
import RadixText.Proofs.WordOrder

/-!
# Multi-word numbers denote natural numbers

Every operation on well-formed numbers gives a well-formed number that denotes
the exact result, as long as that result fits in the cells.
-/

namespace RadixText.Bignum

/-- The number is well formed and denotes a given one. -/
def Denotes (b : Bignum) (n : Nat) : Prop := b.WellFormed ∧ b.toNat = n

/-- The numbers below it fit in the cells. -/
def capacity : Nat := UInt64.size ^ room

theorem two_pow_le_capacity {k : Nat} (h : k ≤ 1152) : 2 ^ k ≤ capacity := by
  rw [capacity, Words.size_eq, ← pow_mul]
  exact Nat.pow_le_pow_right (by decide) (Nat.le_trans h (by decide))

theorem length_words_of_size_le {b : Bignum} (h : b.size ≤ room) : b.words.length = b.size := by
  rw [words, List.length_take, b.length_cells]
  exact Nat.min_eq_left h

namespace Denotes

variable {b : Bignum} {n : Nat}

theorem isTrimmed (h : b.Denotes n) : Words.IsTrimmed b.words := h.1.2

theorem toNat_words (h : b.Denotes n) : Words.toNat b.words = n := h.2

theorem length_words (h : b.Denotes n) : b.words.length = b.size :=
  length_words_of_size_le h.1.1

theorem length_words_le (h : b.Denotes n) : b.words.length ≤ room := by
  rw [h.length_words]
  exact h.1.1

theorem size_eq_zero_iff (h : b.Denotes n) : b.size = 0 ↔ n = 0 := by
  rw [← h.length_words, List.length_eq_zero_iff, h.isTrimmed.eq_nil_iff, h.toNat_words]

end Denotes

/-- Trimmed words whose number fits are stored. -/
theorem store_of_isTrimmed (b : Bignum) {ws : List UInt64} (trimmed : Words.IsTrimmed ws)
    (fits : Words.toNat ws < capacity) :
    ∃ b', b.store ws = .ok b' ∧ b'.Denotes (Words.toNat ws) := by
  have length : ws.length ≤ room := (trimmed.toNat_lt_pow_iff room).mp fits
  obtain ⟨b', stored⟩ : ∃ b', b.store ws = .ok b' := ⟨_, by rw [store, dif_pos length]⟩
  have words := words_of_store stored
  refine ⟨b', stored, ⟨?_, words.symm ▸ trimmed⟩, ?_⟩
  · rw [(size_of_store stored).1]
    exact length
  · rw [toNat, words]

theorem store_trim (b : Bignum) {ws : List UInt64} {n : Nat} (value : Words.toNat ws = n)
    (fits : n < capacity) : ∃ b', b.store (Words.trim ws) = .ok b' ∧ b'.Denotes n := by
  have stored := b.store_of_isTrimmed (Words.isTrimmed_trim ws) (by rwa [Words.toNat_trim, value])
  rwa [Words.toNat_trim, value] at stored

/-- Words whose number does not fit are refused. -/
theorem store_of_capacity_le (b : Bignum) {ws : List UInt64} (h : capacity ≤ Words.toNat ws) :
    b.store ws = .error (.broken .bignumRoom) := by
  have long : ¬ ws.length ≤ room := by
    intro short
    have below := Nat.lt_of_lt_of_le (Words.toNat_lt ws)
      (Nat.pow_le_pow_right (by decide : 0 < UInt64.size) short)
    exact Nat.not_lt_of_le h below
  rw [store, dif_neg long]

theorem setShifted_denotes (b : Bignum) (w : UInt64) (bits : Nat) (h : bits / 64 + 2 ≤ room) :
    ∃ b', b.setShifted w bits = .ok b' ∧ b'.Denotes (w.toNat * 2 ^ bits) := by
  have value := Words.toNat_shifted w bits
  have fits : w.toNat * 2 ^ bits < capacity := by
    rw [← value]
    refine Nat.lt_of_lt_of_le (Words.toNat_lt _) (Nat.pow_le_pow_right (by decide) ?_)
    rwa [Words.length_shifted]
  rw [setShifted, Precondition.require_of_kept _ h]
  exact b.store_trim value fits

theorem ofShifted_denotes (w : UInt64) (bits : Nat) (h : bits / 64 + 2 ≤ room) :
    ∃ b, ofShifted w bits = .ok b ∧ b.Denotes (w.toNat * 2 ^ bits) :=
  zero.setShifted_denotes w bits h

theorem ofShifted_of_not_room (w : UInt64) {bits : Nat} (h : ¬ bits / 64 + 2 ≤ room) :
    ofShifted w bits = .error (.broken .shiftInRange) := by
  rw [ofShifted, setShifted, Precondition.require_of_broken _ h]
  rfl

theorem denotes_of_ofShifted {w : UInt64} {bits : Nat} {b : Bignum}
    (h : ofShifted w bits = .ok b) : b.Denotes (w.toNat * 2 ^ bits) := by
  by_cases room : bits / 64 + 2 ≤ Bignum.room
  · obtain ⟨b', made, denotes⟩ := ofShifted_denotes w bits room
    rw [h] at made
    rwa [Except.ok.inj made]
  · rw [ofShifted_of_not_room w room] at h
    cases h

theorem ofWord_denotes (w : UInt64) : ∃ b, ofWord w = .ok b ∧ b.Denotes w.toNat := by
  have shifted := ofShifted_denotes w 0 (by decide)
  rwa [pow_zero, Nat.mul_one] at shifted

variable {b other : Bignum} {n m : Nat}

theorem toNat_mulAdd_words (h : b.Denotes n) (factor : UInt32) :
    Words.toNat (Words.mulAdd factor.toUInt64 0 b.words) = n * factor.toNat := by
  rw [Words.toNat_mulAdd, h.toNat_words, UInt32.toNat_toUInt64, UInt64.toNat_zero, Nat.add_zero]

theorem mul_denotes (h : b.Denotes n) (factor : UInt32) (fits : n * factor.toNat < capacity) :
    ∃ b', b.mul factor = .ok b' ∧ b'.Denotes (n * factor.toNat) := by
  have value := toNat_mulAdd_words h factor
  have length := Words.length_mulAdd_le h.length_words_le (by rwa [value] : _ < UInt64.size ^ room)
  obtain ⟨product, stored⟩ : ∃ product,
      b.store (Words.mulAdd factor.toUInt64 0 b.words) = .ok product :=
    ⟨_, by rw [store, dif_pos length]⟩
  rw [mul, stored]
  exact product.store_trim (by rw [words_of_store stored, value]) fits

theorem mul_of_capacity_le (h : b.Denotes n) {factor : UInt32}
    (large : capacity ≤ n * factor.toNat) : b.mul factor = .error (.broken .bignumRoom) := by
  rw [mul, b.store_of_capacity_le (by rwa [toNat_mulAdd_words h factor])]
  rfl

theorem toNat_addCarry_words (h : b.Denotes n) (h' : other.Denotes m) :
    Words.toNat (Words.addCarry false b.words other.words) = n + m := by
  rw [Words.toNat_addCarry, h.toNat_words, h'.toNat_words, Bool.toNat_false, Nat.add_zero]

theorem add_of_capacity_le (h : b.Denotes n) (h' : other.Denotes m) (large : capacity ≤ n + m) :
    b.add other = .error (.broken .bignumRoom) := by
  rw [add, b.store_of_capacity_le (by rwa [toNat_addCarry_words h h'])]

theorem add_denotes (h : b.Denotes n) (h' : other.Denotes m) (fits : n + m < capacity) :
    ∃ b', b.add other = .ok b' ∧ b'.Denotes (n + m) := by
  have value := toNat_addCarry_words h h'
  have stored := b.store_of_isTrimmed
    (Words.isTrimmed_addCarry false h.isTrimmed h'.isTrimmed) (by rwa [value])
  rwa [value] at stored

theorem lt_capacity (h : b.Denotes n) : n < capacity := by
  rw [← h.toNat_words]
  exact Nat.lt_of_lt_of_le (Words.toNat_lt _)
    (Nat.pow_le_pow_right (by decide) h.length_words_le)

theorem sub_denotes (h : b.Denotes n) (h' : other.Denotes m) (le : m ≤ n) :
    ∃ b', b.sub other = .ok b' ∧ b'.Denotes (n - m) := by
  obtain ⟨borrow, value⟩ := Words.subBorrow_of_le
    (show Words.toNat other.words ≤ Words.toNat b.words by rwa [h.toNat_words, h'.toNat_words])
  rw [h.toNat_words, h'.toNat_words] at value
  have fits := Nat.lt_of_le_of_lt (Nat.sub_le n m) (lt_capacity h)
  change ∃ b', (Precondition.noBorrow.require _ >>= _) = _ ∧ _
  rw [Precondition.require_of_kept _ borrow]
  exact b.store_trim value fits

theorem compare_denotes (h : b.Denotes n) (h' : other.Denotes m) :
    b.compare other = Ord.compare n m := by
  rw [compare, Words.compareTrimmed_eq h.isTrimmed h'.isTrimmed, h.toNat_words, h'.toNat_words]

theorem comparePowerOfTwo_denotes (h : b.Denotes n) (k : Nat) :
    b.comparePowerOfTwo k = Ord.compare n (2 ^ k) := by
  rw [comparePowerOfTwo, Words.comparePowerOfTwo_natCast h.isTrimmed, h.toNat_words]

theorem comparePowerOfTwo_denotes_of_neg (h : b.Denotes n) {e : Int} (negative : e < 0) :
    b.comparePowerOfTwo e = if n = 0 then .lt else .gt := by
  rw [comparePowerOfTwo, Words.comparePowerOfTwo_of_neg h.isTrimmed negative, h.toNat_words]

theorem divMod_denotes (h : b.Denotes n) (divisor : UInt32) (positive : 0 < divisor.toNat) :
    ∃ b' rest, b.divMod divisor = .ok (b', rest) ∧ b'.Denotes (n / divisor.toNat) ∧
      rest.toNat = n % divisor.toNat := by
  have word : divisor.toUInt64.toNat = divisor.toNat := UInt32.toNat_toUInt64 divisor
  have small := divisor.toNat_lt
  obtain ⟨quotient, rest⟩ := Words.divMod_value
    (show 0 < divisor.toUInt64.toNat by rwa [word]) (by rwa [word]) b.words
  rw [h.toNat_words, word] at quotient rest
  obtain ⟨b', stored, denotes⟩ := b.store_trim quotient
    (Nat.lt_of_le_of_lt (Nat.div_le_self _ _) (lt_capacity h))
  refine ⟨b', (Words.divMod divisor.toUInt64 b.words).2.toUInt32, ?_, denotes, ?_⟩
  · change (b.store (Words.trim (Words.divMod divisor.toUInt64 b.words).1) >>= _) = _
    rw [stored]
    rfl
  · have below := Nat.mod_lt n positive
    rw [UInt64.toNat_toUInt32, rest, Nat.mod_eq_of_lt (Nat.lt_trans below small)]

/-- A number that reaches at most a half word above the cut is split there. -/
theorem split_denotes (h : b.Denotes n) (bits : Nat) (bound : n < 2 ^ (bits + 32)) :
    ∃ above b', b.split bits = .ok (above, b') ∧ above.toNat = n / 2 ^ bits ∧
      b'.Denotes (n % 2 ^ bits) := by
  have power := Words.two_pow_eq bits
  by_cases short : b.words.length ≤ bits / 64
  · have below : n < 2 ^ bits := by
      have words := (h.isTrimmed.toNat_lt_pow_iff (bits / 64)).mpr short
      rw [h.toNat_words] at words
      rw [power]
      exact Nat.lt_of_lt_of_le words (Nat.le_mul_of_pos_right _ (Nat.two_pow_pos _))
    refine ⟨0, b, by rw [split, if_pos short], ?_, ?_⟩
    · rw [Nat.div_eq_of_lt below]
      rfl
    · rwa [Nat.mod_eq_of_lt below]
  · obtain ⟨below, above⟩ := Words.split_value bits b.words
    rw [h.toNat_words] at below above
    have quotient : n / 2 ^ bits < 2 ^ 32 := by
      rw [Nat.div_lt_iff_lt_mul (Nat.two_pow_pos bits), ← pow_add, Nat.add_comm]
      exact bound
    have length : b.words.length ≤ bits / 64 + 2 := by
      rw [← h.isTrimmed.toNat_lt_pow_iff, h.toNat_words, Words.size_eq, ← pow_mul]
      exact Nat.lt_of_lt_of_le bound (Nat.pow_le_pow_right (by decide) (by omega))
    obtain ⟨b', stored, denotes⟩ := b.store_trim below
      (Nat.lt_of_le_of_lt (Nat.mod_le _ _) (lt_capacity h))
    refine ⟨(Words.split bits b.words).1.toUInt32, b', ?_, ?_, denotes⟩
    · rw [split, if_neg short, Precondition.require_of_kept _ length]
      change (b.store (Words.trim (Words.split bits b.words).2) >>= _) = _
      rw [stored]
      rfl
    · rw [UInt64.toNat_toUInt32, above, Nat.mod_eq_of_lt
        (Nat.lt_trans quotient (by decide) : _ < UInt64.size), Nat.mod_eq_of_lt quotient]

end RadixText.Bignum

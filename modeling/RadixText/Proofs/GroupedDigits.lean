import RadixText.Numeral.Written
import RadixText.Proofs.WideNumerals
import RadixText.Radix.PairTable

/-!
# Digits in groups

Groups of four and two digits, looked up in one table, give the digits of plain
repeated division. With zeros in front they fill every width that holds the
number, and no other.
-/

namespace RadixText.Numeral

variable (r : Radix) (c : LetterCase)

/-- A word that is too large for a width breaks the promise to fit. -/
theorem padded_of_pow_le {n : Nat} {v : UInt64} (hn : n ≠ 0) (h : r.val ^ n ≤ v.toNat) :
    padded r c n v = .error (.broken .digitsFit) := by
  have text : ofWord r c v.toBitVec = r.plainNumeral c v.toNat :=
    ofWord_eq_plainNumeral r c (by decide) v.toBitVec
  have long : ¬ (r.plainNumeral c v.toNat).length ≤ n := by
    rw [Radix.plainNumeral, List.length_map, r.length_digits_le_iff hn]
    exact Nat.not_lt.mpr h
  rw [padded, text, Precondition.require_of_broken _ long]
  rfl

/-- Digits in groups are those of plain repeated division, in words of both
widths. The pairs of a radix that they are looked up in are a segment of the
table of all radixes. Padded to a width they take exactly its places, with zeros
in front, if the word is below that power of the radix, and otherwise they break
the promise to fit. -/
theorem grouped_digits_are_plain (r : Radix) (c : LetterCase) :
    (r.pairs c).toList = ((Radix.pairTable c).drop r.pairOffset).take (2 * (r.val * r.val)) ∧
    (∀ (v : BitVec 64) (pen : Pen), ofWord r c v = r.plainNumeral c v.toNat ∧
      writeWord r c v pen = pen.putAll (r.plainNumeral c v.toNat)) ∧
    (∀ (v : BitVec 32) (pen : Pen), ofWord r c v = r.plainNumeral c v.toNat ∧
      writeWord r c v pen = writeWord r c (v.setWidth 64) pen) ∧
    ∀ (n : Nat) (v : UInt64) (pen : Pen), 1 ≤ n →
      if v.toNat < r.val ^ n then
        ∃ text, text.length = n ∧
          text = List.replicate (n - (r.digits v.toNat).length) '0' ++ r.plainNumeral c v.toNat ∧
          padded r c n v = .ok text ∧ writePadded r c n v pen = .ok (pen.putAll text)
      else
        padded r c n v = .error (.broken .digitsFit) ∧
          writePadded r c n v pen = .error (.broken .digitsFit) := by
  have plain (v : BitVec 64) : ofWord r c v = r.plainNumeral c v.toNat :=
    ofWord_eq_plainNumeral r c (by decide) v
  have plain' (v : BitVec 32) : ofWord r c v = r.plainNumeral c v.toNat :=
    ofWord_eq_plainNumeral r c (by decide) v
  refine ⟨r.pairs_eq_segment c, ?_, ?_, ?_⟩
  · intro v pen
    rw [writeWord_eq, plain]
    exact ⟨rfl, rfl⟩
  · intro v pen
    rw [writeWord_eq, writeWord_eq, plain, plain', BitVec.toNat_setWidth_of_le (by decide)]
    exact ⟨rfl, rfl⟩
  · intro n v pen positive
    have nonzero : n ≠ 0 := Nat.one_le_iff_ne_zero.mp positive
    rw [writePadded_eq]
    split
    case isTrue below =>
      have written := padded_of_lt r c nonzero below
      refine ⟨_, length_of_padded r c written, ?_, written, ?_⟩
      · rw [Radix.plainNumeral, List.length_map]
      · rw [written]
        rfl
    case isFalse large =>
      rw [padded_of_pow_le r c nonzero (Nat.le_of_not_lt large)]
      exact ⟨rfl, rfl⟩

/-- The largest word has thirteen digits in the largest radix, and twelve places
are too few for them. -/
theorem largest_word_has_thirteen_digits : 1 ≤ 13 ∧ 1 ≤ 12 ∧
    ∃ (r : Radix) (text : List Char), r.val = 36 ∧ text.length = 13 ∧
      padded r .upper 13 Word.allOnes = .ok text ∧
      padded r .upper 12 Word.allOnes = .error (.broken .digitsFit) := by
  obtain ⟨-, -, -, fits⟩ := grouped_digits_are_plain ⟨36, by decide, by decide⟩ .upper
  have thirteen := fits 13 Word.allOnes (Pen.start 0) (by decide)
  have twelve := fits 12 Word.allOnes (Pen.start 0) (by decide)
  rw [if_pos (by decide)] at thirteen
  rw [if_neg (by decide)] at twelve
  obtain ⟨text, length, -, written, -⟩ := thirteen
  exact ⟨by decide, by decide, _, text, rfl, length, written, twelve.1⟩

end RadixText.Numeral

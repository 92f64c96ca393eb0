import RadixText.Numeral.Word
import RadixText.Word.Quotient

/-!
# Padded numerals and numerals of two words

A word is written with a given number of digits by zeros in front. The digits
of a two-word number are those of at most three words: chunks cut off from
the low end, padded to their full width, and what is left in front.
-/

namespace RadixText.Numeral

variable (r : Radix) (c : LetterCase)

/-- Exactly the given number of digits. -/
def padded (n : Nat) (v : UInt64) : Except Fault (List Char) := do
  let text := ofWord r c v.toBitVec
  Precondition.digitsFit.require (text.length ≤ n)
  return List.replicate (n - text.length) '0' ++ text

theorem length_of_padded {n : Nat} {v : UInt64} {text : List Char}
    (h : padded r c n v = .ok text) : text.length = n := by
  obtain ⟨_, kept, written⟩ := bind_eq_ok_iff.mp h
  have fit := (Precondition.require_eq_ok_iff _).mp kept
  rw [← pure_eq_ok_iff.mp written, List.length_append, List.length_replicate]
  omega

/-- The digits of a two-word number. -/
def ofUInt128 (v : UInt128) : Except Fault (List Char) :=
  if v.hi = 0 then .ok (ofWord r c v.lo.toBitVec)
  else do
    let chunk := r.chunk
    let (upper, rest) ← v.divMod chunk
    let low ← padded r c chunk.step rest
    if upper.hi = 0 then return ofWord r c upper.lo.toBitVec ++ low
    else
      let (top, rest) ← upper.divMod chunk
      let middle ← padded r c chunk.step rest
      Precondition.chunkQuotientSmall.require (top.hi = 0)
      return ofWord r c top.lo.toBitVec ++ middle ++ low

end RadixText.Numeral

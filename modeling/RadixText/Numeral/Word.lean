import RadixText.Radix.Pairs

/-!
# Numerals of words

The digits of a word of any width are cut off in groups: four while at least
five are left, then two while at least three are left, then the last one or
two. Each group is looked up in the pair table of the radix.
-/

namespace RadixText.Numeral

variable {w : Nat} (r : Radix) (table : Array Char)

/-- The square of the radix as a word. -/
def square (w : Nat) : BitVec w := BitVec.ofNat w (r.val * r.val)

/-- The fourth power of the radix as a word. -/
def fourthPower (w : Nat) : BitVec w := square r w * square r w

/-- Puts four digits at a time in front of the text. -/
def cutFours : Nat → BitVec w → List Char → BitVec w × List Char
  | 0, v, text => (v, text)
  | fuel + 1, v, text =>
      if fourthPower r w ≤ v then
        let group := v % fourthPower r w
        let upper := pairAt table (group / square r w).toNat
        let lower := pairAt table (group % square r w).toNat
        cutFours fuel (v / fourthPower r w) (upper ++ lower ++ text)
      else (v, text)

/-- Puts two digits at a time in front of the text. -/
def cutTwos : Nat → BitVec w → List Char → BitVec w × List Char
  | 0, v, text => (v, text)
  | fuel + 1, v, text =>
      if square r w ≤ v then
        cutTwos fuel (v / square r w) (pairAt table (v % square r w).toNat ++ text)
      else (v, text)

/-- Puts the last one or two digits in front of the text. -/
def cutLast (v : BitVec w) (text : List Char) : List Char :=
  if v.toNat < r.val then (pairAt table v.toNat).drop 1 ++ text
  else pairAt table v.toNat ++ text

/-- The digits of a word. Its width bounds the number of groups. -/
def ofWord (c : LetterCase) (v : BitVec w) : List Char :=
  let table := r.pairs c
  let (v, text) := cutFours r table w v []
  let (v, text) := cutTwos r table w v text
  cutLast r table v text

end RadixText.Numeral

import RadixText.Numeral.Word

/-!
# Float texts

A float text has digits on both sides of a point, at least one on each, and in
scientific notation an exponent. Its length is known before it is written.
-/

namespace RadixText

inductive Notation where
  /-- The given number of digits stands in front of the point. -/
  | fixed (whole : Nat)
  /-- One digit stands in front of the point. -/
  | scientific (exp : Int)
  deriving DecidableEq

structure FloatText where
  radix : Radix
  form : Notation
  digits : List Nat
  deriving DecidableEq

namespace FloatText

variable (t : FloatText)

def isScientific : Bool :=
  match t.form with
  | .fixed _ => false
  | .scientific _ => true

/-- The exponent, zero in fixed notation. -/
def exponent : Int :=
  match t.form with
  | .fixed _ => 0
  | .scientific e => e

/-- The number of digits in front of the point. -/
def wholeCount : Nat :=
  match t.form with
  | .fixed n => n
  | .scientific _ => 1

/-- The digits of a number beyond its leading one, by repeated division. -/
def furtherDigits (r : Radix) (n : Nat) : Nat :=
  if r.val ≤ n then 1 + furtherDigits r (n / r.val) else 0
termination_by n
decreasing_by exact Nat.div_lt_self (by have := r.two_le; omega) r.one_lt_val

/-- The number of characters of the text. -/
def length : Nat :=
  let mantissa := t.digits.length + (if t.wholeCount < t.digits.length then 1 else 2)
  match t.form with
  | .fixed _ => mantissa
  | .scientific e => mantissa + (if e < 0 then 3 else 2) + furtherDigits t.radix e.natAbs

/-- The mark in front of an exponent. Where the letter is a digit it is a
caret. -/
def exponentMark (r : Radix) (c : LetterCase) : Char :=
  if r.val < 15 then
    match c with
    | .lower => 'e'
    | .upper => 'E'
  else '^'

/-- The digits behind the point, a zero if there are none. -/
def fractionChars (c : LetterCase) : List Char :=
  if t.wholeCount < t.digits.length then (t.digits.drop t.wholeCount).map (digitChar c)
  else ['0']

/-- Mark, sign and digits of the exponent in scientific notation. -/
def exponentChars (c : LetterCase) : List Char :=
  match t.form with
  | .fixed _ => []
  | .scientific e =>
      exponentMark t.radix c :: (if e < 0 then ['-'] else []) ++
        Numeral.ofWord t.radix c (BitVec.ofNat 32 e.natAbs)

/-- The characters of the text. -/
def chars (c : LetterCase) : List Char :=
  (t.digits.take t.wholeCount).map (digitChar c) ++ '.' :: t.fractionChars c ++ t.exponentChars c

end FloatText

end RadixText

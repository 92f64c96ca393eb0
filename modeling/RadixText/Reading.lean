import RadixText.FloatText.Basic
import RadixText.Numeral.Plain

/-!
# Reading texts back

A written number is read as an optional sign and digits, for floats with a
point and an optional exponent behind its mark. The reader accepts digits of
both letter cases.
-/

namespace RadixText

/-- A text without its sign, and whether that is a minus sign. -/
def splitSign : List Char → Bool × List Char
  | '-' :: cs => (true, cs)
  | '+' :: cs => (false, cs)
  | cs => (false, cs)

namespace Radix

variable (r : Radix)

/-- The digit that a character stands for in the radix. -/
def readDigit? (c : Char) : Option Nat := (unitDigit? c.toNat).filter (· < r.val)

def readDigits? : List Char → Option (List Nat)
  | [] => some []
  | c :: cs => do return (← r.readDigit? c) :: (← readDigits? cs)

/-- The number that at least one digit denotes. -/
def readNat? (cs : List Char) : Option Nat :=
  if cs.isEmpty then none else (r.readDigits? cs).map r.ofDigits

/-- The integer that digits behind an optional sign denote. -/
def readInt? (cs : List Char) : Option Int := do
  let (negative, cs) := splitSign cs
  let n ← r.readNat? cs
  return if negative then -n else n

theorem readDigit?_digitChar (c : LetterCase) {d : Nat} (h : d < r.val) :
    r.readDigit? (digitChar c d) = some d := by
  have bound : d < 36 := Nat.lt_of_lt_of_le h r.le_thirtySix
  simp [readDigit?, unitDigit?_digitChar c bound, h]

theorem readDigits?_map_digitChar (c : LetterCase) {ds : List Nat} (h : ∀ d ∈ ds, d < r.val) :
    r.readDigits? (ds.map (digitChar c)) = some ds := by
  induction ds with
  | nil => rfl
  | cons d ds ih =>
    simp only [List.map_cons, readDigits?, r.readDigit?_digitChar c (h d List.mem_cons_self),
      ih fun e mem => h e (List.mem_cons_of_mem d mem)]
    rfl

theorem readNat?_plainNumeral (c : LetterCase) (n : Nat) :
    r.readNat? (r.plainNumeral c n) = some n := by
  have nonempty : (r.plainNumeral c n).isEmpty = false := by
    simp [plainNumeral, r.digits_ne_nil n]
  rw [readNat?, nonempty, plainNumeral,
    r.readDigits?_map_digitChar c fun d mem => r.lt_of_mem_digits mem]
  simp

end Radix

/-- What a float text says: sign, digits on both sides of the point, and
exponent. -/
structure Reading where
  negative : Bool
  whole : List Nat
  fraction : List Nat
  exponent : Int
  deriving DecidableEq

namespace Radix

variable (r : Radix)

/-- The character stands in front of an exponent. -/
def isMark (c : Char) : Bool :=
  c == FloatText.exponentMark r .lower || c == FloatText.exponentMark r .upper

/-- Reads sign, digits and exponent of a float text. -/
def readFloat? (cs : List Char) : Option Reading := do
  let (negative, cs) := splitSign cs
  let whole ← r.readDigits? (cs.takeWhile (· ≠ '.'))
  match cs.dropWhile (· ≠ '.') with
  | [] => none
  | _ :: rest =>
      let fraction ← r.readDigits? (rest.takeWhile (!r.isMark ·))
      match rest.dropWhile (!r.isMark ·) with
      | [] => return ⟨negative, whole, fraction, 0⟩
      | _ :: exponent => return ⟨negative, whole, fraction, ← r.readInt? exponent⟩

end Radix

end RadixText

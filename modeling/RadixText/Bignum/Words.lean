import RadixText.Trailing
import RadixText.Word.Product

/-!
# Arithmetic on lists of words

A list of words, the lowest first, denotes a natural number in the base of the
word size. Carries and borrows are found by comparing wrapped words.
-/

namespace RadixText.Words

/-- The number that the words denote. -/
def toNat : List UInt64 → Nat
  | [] => 0
  | w :: ws => w.toNat + UInt64.size * toNat ws

@[simp] theorem toNat_nil : toNat [] = 0 := rfl

@[simp] theorem toNat_cons (w : UInt64) (ws : List UInt64) :
    toNat (w :: ws) = w.toNat + UInt64.size * toNat ws := rfl

/-- The words without zeros at the top. -/
def trim (ws : List UInt64) : List UInt64 := dropTrailing (· == 0) ws

/-- The top word is not zero. -/
def IsTrimmed (ws : List UInt64) : Prop := ws.getLast? ≠ some 0

theorem isTrimmed_trim (ws : List UInt64) : IsTrimmed (trim ws) := fun h => by
  simpa using getLast?_dropTrailing (· == 0) ws 0 h

@[simp] theorem toNat_trim (ws : List UInt64) : toNat (trim ws) = toNat ws := by
  induction ws with
  | nil => rfl
  | cons w ws ih =>
    have zero : ∀ vs, trim vs = [] → toNat (trim vs) = 0 := fun vs h => by rw [h]; rfl
    cases kept : trim ws with
    | nil =>
      have rest : toNat ws = 0 := by rw [← ih, zero ws kept]
      simp only [trim] at kept
      by_cases hw : w = 0 <;> simp [trim, dropTrailing, kept, hw, rest]
    | cons v vs =>
      have nonempty : dropTrailing (· == 0) ws ≠ [] := by
        simp only [trim] at kept
        simp [kept]
      simp only [trim] at ih
      simp [trim, dropTrailing_cons_of_ne_nil _ nonempty, ih]

/-- A word shifted up by any number of bits. -/
def shifted (w : UInt64) (bits : Nat) : List UInt64 :=
  let part := UInt64.ofNat (bits % 64)
  List.replicate (bits / 64) 0 ++ [w <<< part, if part = 0 then 0 else w >>> (64 - part)]

/-- Product with a word, plus a carry. -/
def mulAdd (factor : UInt64) : UInt64 → List UInt64 → List UInt64
  | carry, [] => if carry = 0 then [] else [carry]
  | carry, w :: ws =>
      let product := Word.mul w factor
      let low := product.lo + carry
      low :: mulAdd factor (if low < product.lo then product.hi + 1 else product.hi) ws

/-- The number one higher. -/
def increment : List UInt64 → List UInt64
  | [] => [1]
  | w :: ws => if w + 1 = 0 then 0 :: increment ws else (w + 1) :: ws

/-- Sum with a carry. With a carry coming in, an unchanged word has wrapped. -/
def addCarry : Bool → List UInt64 → List UInt64 → List UInt64
  | carry, ws, [] => if carry then increment ws else ws
  | carry, ws, v :: vs =>
      let w := ws.headD 0
      let sum := if carry then w + v + 1 else w + v
      let carry' := if carry then decide (sum ≤ w) else decide (sum < w)
      sum :: addCarry carry' ws.tail vs

/-- The number one lower, and whether there was none. -/
def decrement : List UInt64 → List UInt64 × Bool
  | [] => ([], true)
  | w :: ws =>
      if w = 0 then
        let (rest, borrow) := decrement ws
        ((w - 1) :: rest, borrow)
      else ((w - 1) :: ws, false)

/-- Difference with a borrow, and whether a borrow is left at the top. -/
def subBorrow : Bool → List UInt64 → List UInt64 → List UInt64 × Bool
  | borrow, ws, [] => if borrow then decrement ws else (ws, false)
  | borrow, ws, v :: vs =>
      let w := ws.headD 0
      let difference := if borrow then w - v - 1 else w - v
      let borrow' := if borrow then decide (w ≤ v) else decide (w < v)
      let (rest, out) := subBorrow borrow' ws.tail vs
      (difference :: rest, out)

/-- Compares words of equal count from the top down. -/
def compareFromTop : List UInt64 → List UInt64 → Ordering
  | w :: ws, v :: vs => (compareFromTop ws vs).then (compare w v)
  | _, _ => .eq

/-- Compares trimmed words, the shorter list being the smaller number. -/
def compareTrimmed (ws vs : List UInt64) : Ordering :=
  (compare ws.length vs.length).then (compareFromTop ws vs)

/-- Compares trimmed words with a power of two. -/
def comparePowerOfTwo (ws : List UInt64) (exp : Int) : Ordering :=
  if exp < 0 then if ws.isEmpty then .lt else .gt
  else
    let top := exp.toNat / 64
    let bit : UInt64 := 1 <<< UInt64.ofNat (exp.toNat % 64)
    (compare ws.length (top + 1)).then <|
      (compare (ws.getD top 0) bit).then <|
        if (ws.take top).all (· == 0) then .eq else .gt

/-- Quotient and remainder by a divisor below the half word's range. Each word
is divided in two halves from the top down. -/
def divMod (divisor : UInt64) : List UInt64 → List UInt64 × UInt64
  | [] => ([], 0)
  | w :: ws =>
      let (quotients, rest) := divMod divisor ws
      let high := Word.ofHalves rest (Word.highHalf w)
      let low := Word.ofHalves (high % divisor) (Word.lowHalf w)
      (Word.ofHalves (high / divisor) (low / divisor) :: quotients, low % divisor)

/-- The bits from a position on, in one word, and the words below it. -/
def split (bits : Nat) (ws : List UInt64) : UInt64 × List UInt64 :=
  let part := UInt64.ofNat (bits % 64)
  match ws.drop (bits / 64) with
  | [] => (0, ws)
  | w :: rest =>
      let above := if part = 0 then 0 else rest.headD 0 <<< (64 - part)
      ((w >>> part) ||| above, ws.take (bits / 64) ++ [w &&& ((1 <<< part) - 1)])

end RadixText.Words

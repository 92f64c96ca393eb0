import RadixText.Bignum.Basic

/-!
# Multi-word numbers, word by word

The same arithmetic as loops over the cells, which read and write one word at a
time and set the size of the number as they go. Any of the cells can be read,
also those above the size. The other operand of a sum or a difference may be
the very number that changes.
-/

namespace RadixText.Bignum

/-- Another word in a cell. -/
def put (b : Bignum) (n : Nat) (w : UInt64) : Bignum :=
  ⟨b.cells.set n w, b.size, by rw [List.length_set, b.length_cells]⟩

def resize (b : Bignum) (size : Nat) : Bignum := { b with size := size }

namespace InPlace

def read (b : Bignum) (n : Nat) : Except Fault UInt64 :=
  match b.cells[n]? with
  | some w => .ok w
  | none => .error .cellRoom

def write (b : Bignum) (n : Nat) (w : UInt64) : Except Fault Bignum :=
  if n < room then .ok (b.put n w) else .error .cellRoom

/-- The other operand, which is the number itself when none is given. -/
def operand (b : Bignum) (other : Option Bignum) : Bignum := other.getD b

/-- Writes zeros to some cells from one on. -/
def clear (b : Bignum) (n : Nat) : Nat → Except Fault Bignum
  | 0 => .ok b
  | left + 1 => do clear (← write b n 0) (n + 1) left

/-- Lowers the size from a count on, as long as the top word is zero. -/
def trimFrom (b : Bignum) : Nat → Except Fault Bignum
  | 0 => .ok (b.resize 0)
  | n + 1 => do if (← read b n) = 0 then trimFrom b n else return b.resize (n + 1)

def trim (b : Bignum) : Except Fault Bignum := trimFrom b b.size

/-- One more word at the top. -/
def pushWord (b : Bignum) (w : UInt64) : Except Fault Bignum := do
  Precondition.bignumRoom.require (b.size < room)
  let b ← write b b.size w
  return b.resize (b.size + 1)

def setShifted (b : Bignum) (w : UInt64) (bits : Nat) : Except Fault Bignum := do
  let n := bits / 64
  let part := UInt64.ofNat (bits % 64)
  Precondition.shiftInRange.require (n + 2 ≤ room)
  let b ← clear b 0 n
  let b ← write b n (w <<< part)
  let b ← write b (n + 1) (if part = 0 then 0 else w >>> (64 - part))
  trim (b.resize (n + 2))

/-- Multiplies some words from a cell on. The second part of the result is what
is carried out of them. -/
def mulWords (factor : UInt64) (b : Bignum) (n : Nat) (higher : UInt64) :
    Nat → Except Fault (Bignum × UInt64)
  | 0 => .ok (b, higher)
  | left + 1 => do
      let product := Word.mul (← read b n) factor
      let low := product.lo + higher
      let b ← write b n low
      mulWords factor b (n + 1) (if low < product.lo then product.hi + 1 else product.hi) left

def mul (b : Bignum) (factor : UInt32) : Except Fault Bignum := do
  let (b, higher) ← mulWords factor.toUInt64 b 0 0 b.size
  let b ← (if higher = 0 then .ok b else pushWord b higher)
  trim b

/-- Adds some words of the other operand from a cell on, and a carry. -/
def addWords (other : Option Bignum) (b : Bignum) (n : Nat) (carry : Bool) :
    Nat → Except Fault (Bignum × Bool)
  | 0 => .ok (b, carry)
  | left + 1 => do
      let w ← read b n
      let v ← read (operand b other) n
      let sum := if carry then w + v + 1 else w + v
      let b ← write b n sum
      addWords other b (n + 1) (if carry then decide (sum ≤ w) else decide (sum < w)) left

/-- Raises words from a cell on, as long as there is a carry. -/
def carryUp (b : Bignum) (n : Nat) : Bool → Nat → Except Fault (Bignum × Bool)
  | true, left + 1 => do
      let w ← read b n
      let b ← write b n (w + 1)
      carryUp b (n + 1) (w + 1 = 0) left
  | carry, _ => .ok (b, carry)

/-- Extends the number with zeros to a size that it does not reach. -/
def extend (b : Bignum) (size : Nat) : Except Fault Bignum :=
  if b.size < size then do
    let b' ← clear b b.size (size - b.size)
    return b'.resize size
  else .ok b

def add (b : Bignum) (other : Option Bignum) : Except Fault Bignum := do
  let size := (operand b other).size
  let b ← extend b size
  let (b, carry) ← addWords other b 0 false size
  let (b, carry) ← carryUp b size carry (b.size - size)
  if carry then pushWord b 1 else return b

/-- Takes away some words of the other operand from a cell on, and a borrow. The
operand's word is read once more when the difference is already there. -/
def subWords (other : Option Bignum) (b : Bignum) (n : Nat) (borrow : Bool) :
    Nat → Except Fault (Bignum × Bool)
  | 0 => .ok (b, borrow)
  | left + 1 => do
      let w ← read b n
      let v ← read (operand b other) n
      let b ← write b n (if borrow then w - v - 1 else w - v)
      let v ← read (operand b other) n
      subWords other b (n + 1) (if borrow then decide (w ≤ v) else decide (w < v)) left

/-- Lowers words from a cell on, as long as there is a borrow. -/
def borrowUp (b : Bignum) (n : Nat) : Bool → Nat → Except Fault (Bignum × Bool)
  | true, left + 1 => do
      let w ← read b n
      let b ← write b n (w - 1)
      borrowUp b (n + 1) (w = 0) left
  | borrow, _ => .ok (b, borrow)

/-- Difference with a number that is not larger. -/
def sub (b : Bignum) (other : Option Bignum) : Except Fault Bignum := do
  let size := (operand b other).size
  let (b, borrow) ← subWords other b 0 false size
  let (b, borrow) ← borrowUp b size borrow (b.size - size)
  Precondition.noBorrow.require (borrow = false)
  trim b

/-- Compares some low words of two numbers from the top down. -/
def compareWords (b other : Bignum) : Nat → Except Fault Ordering
  | 0 => .ok .eq
  | n + 1 => do
      let w ← read b n
      let v ← read other n
      if w = v then compareWords b other n else return if w < v then .lt else .gt

def compare (b other : Bignum) : Except Fault Ordering :=
  if b.size = other.size then compareWords b other b.size
  else .ok (if b.size < other.size then .lt else .gt)

/-- Whether one of some words from a cell on is not zero. -/
def anyNonzero (b : Bignum) (n : Nat) : Nat → Except Fault Bool
  | 0 => .ok false
  | left + 1 => do if (← read b n) = 0 then anyNonzero b (n + 1) left else return true

/-- Compares with a power of two. -/
def comparePowerOfTwo (b : Bignum) (exp : Int) : Except Fault Ordering :=
  if exp < 0 then .ok (if b.size = 0 then .lt else .gt)
  else do
    let n := exp.toNat / 64
    let bit : UInt64 := 1 <<< UInt64.ofNat (exp.toNat % 64)
    if b.size = n + 1 then
      let top ← read b n
      if top = bit then (anyNonzero b 0 n).map fun any => if any then .gt else .eq
      else return if top < bit then .lt else .gt
    else return if b.size < n + 1 then .lt else .gt

/-- Divides some low words from the top down, behind a remainder. -/
def divWords (divisor : UInt64) (b : Bignum) (rest : UInt64) :
    Nat → Except Fault (Bignum × UInt64)
  | 0 => .ok (b, rest)
  | n + 1 => do
      let w ← read b n
      let high := Word.ofHalves rest (Word.highHalf w)
      let low := Word.ofHalves (high % divisor) (Word.lowHalf w)
      let b ← write b n (Word.ofHalves (high / divisor) (low / divisor))
      divWords divisor b (low % divisor) n

def divMod (b : Bignum) (divisor : UInt32) : Except Fault (Bignum × UInt32) := do
  let (b, rest) ← divWords divisor.toUInt64 b 0 b.size
  return (← trim b, rest.toUInt32)

/-- Cuts off the bits from a position on. -/
def split (b : Bignum) (bits : Nat) : Except Fault (UInt32 × Bignum) := do
  let n := bits / 64
  let part := UInt64.ofNat (bits % 64)
  if b.size ≤ n then return (0, b)
  else
    Precondition.splitInRange.require (b.size ≤ n + 2)
    let low ← read b n
    let above ← (if part ≠ 0 ∧ n + 1 < b.size then
        (read b (n + 1)).map fun w => (low >>> part) ||| (w <<< (64 - part))
      else .ok (low >>> part))
    let b ← write b n (low &&& ((1 <<< part) - 1))
    let b ← trim (b.resize (n + 1))
    return (above.toUInt32, b)

end InPlace

end RadixText.Bignum

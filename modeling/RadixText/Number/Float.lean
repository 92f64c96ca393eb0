import RadixText.Buffer.Sink
import RadixText.Cells
import RadixText.FloatText.Layout
import RadixText.Options

/-!
# Floats

The pattern of a float is written as its sign and its magnitude. Infinity, the
patterns of no number and zero have texts of their own. All other magnitudes
are placed straight into a sink that has room for them, and otherwise go
through cells with room for the longest float text.
-/

namespace RadixText

namespace FloatText

/-- The most digits of an exponent. -/
def maxExponentDigits : Nat := 11

/-- The length of the longest text: digits, the first zero, the point, the
mark, the sign and the digits of the exponent. -/
def maxLength : Nat := Expansion.maxDigits + 4 + maxExponentDigits

/-- Writes the text through cells of its own. -/
def copyTo {β : Type} [Sink β] (t : FloatText) (c : LetterCase) (b : β) : Except Fault β := do
  Precondition.textRoom.require (t.length ≤ maxLength)
  let (cells, _) ← placeIn t.length [] (t.chars c)
  Sink.append b cells

/-- Writes the text in place if there is room. -/
def writeTo {β : Type} [Sink β] (t : FloatText) (c : LetterCase) (b : β) : Except Fault β :=
  if Sink.fits b t.length then Sink.place b t.length (t.chars c) else t.copyTo c b

end FloatText

namespace FloatFormat

variable (f : FloatFormat)

def isNegative (bits : UInt64) : Bool := bits &&& f.signBit != 0

/-- The pattern without its sign. -/
def magnitude (bits : UInt64) : UInt64 :=
  if f.isNegative bits then bits &&& ~~~f.signBit else bits

/-- The name of a pattern that is not finite. -/
def name (c : LetterCase) (bits : UInt64) : List Char :=
  match c, f.mantissa bits == 0 with
  | .lower, true => ['i', 'n', 'f']
  | .upper, true => ['I', 'N', 'F']
  | .lower, false => ['n', 'a', 'n']
  | .upper, false => ['N', 'A', 'N']

/-- Writes the number of a pattern, with some way to estimate logarithms. -/
def writeWith {β : Type} [Sink β] (log : Radix → ExtFloat → Int) (bits : UInt64) (o : Options)
    (b : β) : Except Fault β := do
  let r ← o.requestedRadix
  let b ← Sink.pushAll b (o.sign (f.isNegative bits))
  let magnitude := f.magnitude bits
  if ¬ f.IsFinite magnitude then Sink.pushAll b (f.name o.letterCase magnitude)
  else if magnitude = 0 then Sink.pushAll b ['0', '.', '0']
  else
    let t ← FloatText.ofBitsWith log f magnitude r
    t.writeTo o.letterCase b

/-- Writes the number of a pattern. -/
def write {β : Type} [Sink β] (bits : UInt64) (o : Options) (b : β) : Except Fault β :=
  f.writeWith ExtFloat.logBelowOne bits o b

/-- Writes the magnitude of a pattern into cells from the front. The first
part of the result is the index behind its end. -/
def writeInto (bits : UInt64) (radix : Nat) (c : LetterCase) (cells : List Char) :
    Except Fault (Nat × List Char) := do
  let r ← Radix.promised radix
  Precondition.textRoom.require (FloatText.maxLength ≤ cells.length)
  let t ← FloatText.ofBits f bits r
  Precondition.textRoom.require (t.length ≤ cells.length)
  let (placed, rest) ← placeIn t.length cells (t.chars c)
  return (t.length, placed ++ rest)

end FloatFormat

end RadixText

import RadixText.Buffer.Sink
import RadixText.Cells

/-!
# Unbounded buffers

An unbounded buffer writes into memory that is promised to be large enough.
-/

namespace RadixText

structure UnboundedBuffer where
  written : List Char
  deriving DecidableEq

namespace UnboundedBuffer

variable (b : UnboundedBuffer)

def empty : UnboundedBuffer := ⟨[]⟩

def append (s : List Char) : UnboundedBuffer := ⟨b.written ++ s⟩

def place (n : Nat) (s : List Char) : Except Fault UnboundedBuffer := do
  let (placed, _) ← placeIn n [] s
  return b.append placed

instance : Sink UnboundedBuffer where
  fits _ _ := true
  push b c := .ok (b.append [c])
  append b s := .ok (b.append s)
  place := place
  advance b n := .ok (b.append (takeCells n []))

end UnboundedBuffer

end RadixText

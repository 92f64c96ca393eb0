import RadixText.Radix.Digit

/-!
# Options

A conversion takes a radix and a set of flags. The flags are the bits of a
word, of which two have a meaning.
-/

namespace RadixText

structure Flags where
  bits : UInt32
  deriving DecidableEq

namespace Flags

def none : Flags := ⟨0⟩

/-- Letters are written in upper case. -/
def uppercase : Flags := ⟨1⟩

/-- A plus sign is written where there is no minus sign. -/
def signPositive : Flags := ⟨2⟩

instance : OrOp Flags := ⟨fun a b => ⟨a.bits ||| b.bits⟩⟩

instance : AndOp Flags := ⟨fun a b => ⟨a.bits &&& b.bits⟩⟩

instance : Complement Flags := ⟨fun a => ⟨~~~a.bits⟩⟩

def isEmpty (a : Flags) : Bool := a.bits == 0

def letterCase (a : Flags) : LetterCase := if (a &&& uppercase).isEmpty then .lower else .upper

def showsPlus (a : Flags) : Bool := !(a &&& signPositive).isEmpty

end Flags

structure Options where
  radix : UInt32 := 10
  flags : Flags := Flags.none
  deriving DecidableEq

namespace Options

/-- The radix asked for, if there is such a radix. -/
def requestedRadix (o : Options) : Except Fault Radix := Radix.requested o.radix.toNat

def letterCase (o : Options) : LetterCase := o.flags.letterCase

/-- The sign of a number, which may be written without one. -/
def sign (o : Options) (negative : Bool) : List Char :=
  if negative then ['-'] else if o.flags.showsPlus then ['+'] else []

end Options

end RadixText

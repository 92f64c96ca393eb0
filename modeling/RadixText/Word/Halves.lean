/-!
# Halves of a word

A 64-bit word is split into its 32-bit halves and joined from them.
-/

namespace RadixText.Word

/-- The word whose top bit alone is set. -/
def topBit : UInt64 := 0x8000000000000000

/-- The word whose bits are all set. -/
def allOnes : UInt64 := 0xffffffffffffffff

/-- The size of a half word's range. -/
def halfSize : UInt64 := 0x100000000

def lowHalf (x : UInt64) : UInt64 := x &&& 0xffffffff

def highHalf (x : UInt64) : UInt64 := x >>> 32

/-- The word with the given halves, the second below the half word's range. -/
def ofHalves (hi lo : UInt64) : UInt64 := (hi <<< 32) ||| lo

theorem toNat_lowHalf (x : UInt64) : (lowHalf x).toNat = x.toNat % 4294967296 := by
  simp only [lowHalf, UInt64.toNat_and]
  exact Nat.and_two_pow_sub_one_eq_mod _ 32

theorem toNat_highHalf (x : UInt64) : (highHalf x).toNat = x.toNat / 4294967296 := by
  simp only [highHalf, UInt64.toNat_shiftRight]
  exact Nat.shiftRight_eq_div_pow _ 32

theorem toNat_ofHalves {hi lo : UInt64} (h : hi.toNat < 4294967296)
    (l : lo.toNat < 4294967296) :
    (ofHalves hi lo).toNat = hi.toNat * 4294967296 + lo.toNat := by
  have shift : (hi <<< 32).toNat = hi.toNat <<< 32 := by
    simp only [UInt64.toNat_shiftLeft]
    apply Nat.mod_eq_of_lt
    have e : hi.toNat <<< 32 = hi.toNat * 4294967296 := Nat.shiftLeft_eq _ 32
    simp only [UInt64.reduceToNat, Nat.reduceMod]
    omega
  simp only [ofHalves, UInt64.toNat_or, shift]
  rw [← Nat.shiftLeft_add_eq_or_of_lt (i := 32) l, Nat.shiftLeft_eq]

end RadixText.Word

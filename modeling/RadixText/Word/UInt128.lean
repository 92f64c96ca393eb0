/-!
# Unsigned integers of 128 bits

Two 64-bit words, the high one first. The value view is a natural number.
-/

namespace RadixText

@[ext] structure UInt128 where
  hi : UInt64
  lo : UInt64
  deriving DecidableEq

namespace UInt128

/-- One more than the largest value. -/
def size : Nat := UInt64.size * UInt64.size

def toNat (x : UInt128) : Nat := x.hi.toNat * UInt64.size + x.lo.toNat

/-- The value modulo the range. -/
def ofNat (n : Nat) : UInt128 := ⟨UInt64.ofNat (n / UInt64.size), UInt64.ofNat n⟩

theorem toNat_lt (x : UInt128) : x.toNat < size := by
  have h : x.hi.toNat < 18446744073709551616 := x.hi.toNat_lt
  have l : x.lo.toNat < 18446744073709551616 := x.lo.toNat_lt
  simp only [toNat, size, UInt64.size]
  omega

theorem toNat_ofNat {n : Nat} (h : n < size) : (ofNat n).toNat = n := by
  simp only [size, UInt64.size] at h
  simp only [toNat, ofNat, UInt64.size, UInt64.toNat_ofNat']
  omega

theorem toNat_inj {x y : UInt128} : x.toNat = y.toNat ↔ x = y := by
  constructor
  · intro h
    have hx : x.lo.toNat < 18446744073709551616 := x.lo.toNat_lt
    have hy : y.lo.toNat < 18446744073709551616 := y.lo.toNat_lt
    simp only [toNat, UInt64.size] at h
    apply UInt128.ext
    · apply UInt64.toNat_inj.mp; omega
    · apply UInt64.toNat_inj.mp; omega
  · rintro rfl
    rfl

end UInt128

end RadixText

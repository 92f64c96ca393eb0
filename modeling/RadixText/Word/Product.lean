import RadixText.Word.Halves
import RadixText.Word.UInt128

/-!
# Products of two words

The product of two words has two words. It is taken exactly, and once more
from the four products of half words, where every sum stays in a word.
-/

namespace RadixText.Word

def mul (x y : UInt64) : UInt128 := UInt128.ofNat (x.toNat * y.toNat)

theorem toNat_mul (x y : UInt64) : (mul x y).toNat = x.toNat * y.toNat := by
  apply UInt128.toNat_ofNat
  have hx : x.toNat < 18446744073709551616 := x.toNat_lt
  have hy : y.toNat < 18446744073709551616 := y.toNat_lt
  exact Nat.mul_lt_mul'' hx hy

/-- The product from half words. The carry out of the middle is collected in
the sum of the low halves of the two mixed products. -/
def mulByHalves (x y : UInt64) : UInt128 :=
  let lower := lowHalf x * lowHalf y
  let higher := highHalf x * highHalf y
  let mixed := lowHalf x * highHalf y
  let mixed' := highHalf x * lowHalf y + highHalf lower
  let middle := lowHalf mixed + lowHalf mixed'
  ⟨higher + highHalf mixed + highHalf mixed' + highHalf middle,
    ofHalves (lowHalf middle) (lowHalf lower)⟩

end RadixText.Word

import RadixText.Radix.Pairs

/-!
# The table of all digit pairs

The pairs of all radixes stand in one table for each letter case, those of
smaller radixes in front.
-/

namespace RadixText.Radix

/-- All radixes, the smallest one first. -/
def all : List Radix :=
  List.ofFn fun i : Fin (largest + 1 - smallest) =>
    ⟨i + smallest, Nat.le_add_left _ _, Nat.le_of_lt_succ (Nat.add_lt_of_lt_sub i.isLt)⟩

/-- The pairs of all radixes. -/
def pairTable (c : LetterCase) : List Char := all.flatMap fun r => (r.pairs c).toList

/-- Where the pairs of a radix start in the table. -/
def pairOffset (r : Radix) : Nat :=
  (all.take (r.val - smallest)).foldr (fun s offset => 2 * (s.val * s.val) + offset) 0

/-- A radix stands behind the smaller ones. -/
theorem all_eq_append (r : Radix) :
    ∃ larger, all = all.take (r.val - smallest) ++ r :: larger := by
  have index : r.val - smallest < all.length := by
    have := r.two_le
    have := r.le_thirtySix
    simp only [all, List.length_ofFn, smallest, largest]
    omega
  have found : all[r.val - smallest] = r := by
    have back : r.val - smallest + smallest = r.val := Nat.sub_add_cancel r.two_le
    simp only [all, List.getElem_ofFn, back]
  refine ⟨all.drop (r.val - smallest + 1), ?_⟩
  calc
    all = all.take (r.val - smallest) ++ all.drop (r.val - smallest) :=
      (List.take_append_drop _ _).symm
    _ = _ := by rw [List.drop_eq_getElem_cons index, found]

/-- The pairs of a radix are a segment of the table. -/
theorem pairs_eq_segment (r : Radix) (c : LetterCase) :
    (r.pairs c).toList = ((pairTable c).drop r.pairOffset).take (2 * (r.val * r.val)) := by
  obtain ⟨larger, split⟩ := all_eq_append r
  have front : ((all.take (r.val - smallest)).flatMap fun s => (s.pairs c).toList).length =
      r.pairOffset := by
    simp only [List.length_flatMap, Array.length_toList, size_pairs, List.sum_eq_foldr,
      List.foldr_map, pairOffset]
  have own : (r.pairs c).toList.length = 2 * (r.val * r.val) := by simp
  rw [pairTable, split, List.flatMap_append, List.flatMap_cons, List.drop_left' front,
    List.take_left' own]

end RadixText.Radix

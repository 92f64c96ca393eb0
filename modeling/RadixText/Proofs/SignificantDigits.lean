import Mathlib.Data.List.GetD
import RadixText.FloatText.Layout
import RadixText.Proofs.Digits

/-!
# Significant digits

The search for the first significant digit stays within the digits whatever
the estimate. It finds the digit if the estimate lies at most one place behind
it.
-/

namespace RadixText

namespace Radix

variable {r : Radix}

/-- Digits that denote a number other than zero have a first one that is not
zero. -/
theorem exists_significant {ds : List Nat} (h : r.ofDigits ds ≠ 0) :
    ∃ n d es, ds = List.replicate n 0 ++ d :: es ∧ d ≠ 0 := by
  induction ds with
  | nil => exact absurd rfl h
  | cons d ds ih =>
      by_cases zero : d = 0
      · subst zero
        rw [ofDigits_cons, Nat.zero_mul, Nat.zero_add] at h
        obtain ⟨n, e, es, rfl, nonzero⟩ := ih h
        exact ⟨n + 1, e, es, rfl, nonzero⟩
      · exact ⟨0, d, ds, rfl, zero⟩

/-- The number of digits from a significant one on is bounded by the bits of
their number. -/
theorem length_le_of_ofDigits_lt {k d : Nat} {ds : List Nat} (nonzero : d ≠ 0)
    (h : r.ofDigits (d :: ds) < 2 ^ k * r.val) : (d :: ds).length ≤ k + 1 := by
  have power : r.val ^ ds.length < r.val ^ (k + 1) := by
    calc
      r.val ^ ds.length ≤ r.ofDigits (d :: ds) := pow_le_ofDigits nonzero
      _ < 2 ^ k * r.val := h
      _ ≤ r.val ^ k * r.val := Nat.mul_le_mul_right _ (r.two_pow_le k)
      _ = r.val ^ (k + 1) := (pow_succ _ _).symm
  have := (Nat.pow_lt_pow_iff_right r.one_lt_val).mp power
  rw [List.length_cons]
  omega

end Radix

namespace Expansion

theorem leadingZeros_zeros_append (n : Nat) {d : Nat} (nonzero : d ≠ 0) (ds : List Nat) :
    leadingZeros (List.replicate n 0 ++ d :: ds) = n := by
  induction n with
  | zero =>
      cases ds with
      | nil => rfl
      | cons e es => simp [leadingZeros, nonzero]
  | succ n ih =>
      have more : List.replicate n 0 ++ d :: ds ≠ [] := by simp
      rw [List.replicate_succ, List.cons_append]
      cases rest : List.replicate n 0 ++ d :: ds with
      | nil => exact absurd rest more
      | cons e es =>
          rw [rest] at ih
          rw [leadingZeros, if_pos rfl, ih, Nat.add_comm]
          simp

theorem leadingZeros_lt {ds : List Nat} (nonempty : ds ≠ []) :
    leadingZeros ds < ds.length := by
  fun_induction leadingZeros ds with
  | case1 => exact absurd rfl nonempty
  | case2 => simp
  | case3 ds more ih =>
      rw [List.length_cons]
      have := ih more
      omega
  | case4 d ds more nonzero => simp

theorem moveBack_le (fraction : List Nat) (place : Nat) : moveBack fraction place ≤ place := by
  induction place with
  | zero => exact Nat.le_refl _
  | succ place ih =>
      rw [moveBack]
      split
      · exact Nat.le_refl _
      · exact Nat.le_succ_of_le ih

/-- The search ends at a digit, whatever the estimate. -/
theorem firstSignificant_lt {fraction : List Nat} (nonempty : fraction ≠ []) (log : Int) :
    firstSignificant fraction log < fraction.length := by
  have positive := List.length_pos_of_ne_nil nonempty
  have back := moveBack_le fraction (min (-log - 1).toNat (fraction.length - 1))
  set start := moveBack fraction (min (-log - 1).toNat (fraction.length - 1))
  have rest : fraction.drop start ≠ [] := by
    rw [ne_eq, List.drop_eq_nil_iff]
    omega
  have zeros := leadingZeros_lt rest
  rw [List.length_drop] at zeros
  change start + leadingZeros (fraction.drop start) < _
  omega

/-- An estimate at most one place behind the first significant digit finds
it. -/
theorem firstSignificant_eq {n d : Nat} (nonzero : d ≠ 0) (ds : List Nat) {log : Int}
    (close : min (-log - 1).toNat ((List.replicate n 0 ++ d :: ds).length - 1) ≤ n + 1) :
    firstSignificant (List.replicate n 0 ++ d :: ds) log = n := by
  have zero {k : Nat} (lt : k < n) : (List.replicate n 0 ++ d :: ds).getD k 0 = 0 := by
    rw [List.getD_append _ _ _ _ (by simpa using lt)]
    simp
  have digit : (List.replicate n 0 ++ d :: ds).getD n 0 = d := by
    rw [List.getD_append_right _ _ _ _ (by simp)]
    simp
  have stays {start : Nat} (le : start ≤ n) :
      moveBack (List.replicate n 0 ++ d :: ds) start = start := by
    cases start with
    | zero => rfl
    | succ k => rw [moveBack, if_pos (zero le)]
  have start {place : Nat} (le : place ≤ n + 1) :
      ∃ k, moveBack (List.replicate n 0 ++ d :: ds) place = n - k ∧ k ≤ n := by
    rcases Nat.lt_or_ge n place with gt | le
    · have last : place = n + 1 := by omega
      refine ⟨0, ?_, Nat.zero_le _⟩
      rw [last, moveBack, digit, if_neg nonzero, stays (Nat.le_refl _), Nat.sub_zero]
    · exact ⟨n - place, by rw [stays le]; omega, Nat.sub_le _ _⟩
  obtain ⟨k, moved, le⟩ := start close
  have split : List.replicate n 0 ++ d :: ds =
      List.replicate (n - k) 0 ++ (List.replicate k 0 ++ d :: ds) := by
    rw [← List.append_assoc, List.replicate_append_replicate, Nat.sub_add_cancel le]
  have dropped : (List.replicate n 0 ++ d :: ds).drop (n - k) = List.replicate k 0 ++ d :: ds := by
    rw [split]
    exact List.drop_left' (by simp)
  rw [firstSignificant, moved, dropped, leadingZeros_zeros_append k nonzero,
    Nat.sub_add_cancel le]

end Expansion

end RadixText

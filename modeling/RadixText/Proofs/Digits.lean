import Mathlib.Data.List.Basic
import Mathlib.Data.List.Induction
import Mathlib.Data.Nat.Log
import Mathlib.Tactic.Linarith
import Mathlib.Tactic.Ring
import RadixText.Numeral.Plain

/-!
# Digit lists and the numbers they denote

A list of digits below the radix denotes a number below the power of the radix
for its length, and lists of one length are told apart by their numbers. The
digits of a number are the only list that denotes it without a leading zero.
-/

namespace RadixText.Radix

variable (r : Radix)

theorem val_pow_pos (n : Nat) : 0 < r.val ^ n :=
  Nat.pow_pos r.val_pos

theorem two_pow_le (n : Nat) : 2 ^ n ≤ r.val ^ n :=
  Nat.pow_le_pow_left r.two_le n

/-- Only the digits of zero start with a zero. -/
theorem digits_eq_of_head_eq_zero {n : Nat} (h : (r.digits n).head? = some 0) :
    r.digits n = [0] := by
  by_cases zero : n = 0
  · rw [zero, r.digits_of_lt r.val_pos]
  · exact absurd h (r.head?_digits zero)

theorem toNat_ofNat32_val : (UInt32.ofNat r.val).toNat = r.val := by
  have := r.le_thirtySix
  rw [UInt32.toNat_ofNat']
  omega

theorem toNat_ofNat_val : (UInt64.ofNat r.val).toNat = r.val := by
  have := r.le_thirtySix
  rw [UInt64.toNat_ofNat']
  omega

theorem ofDigits_append (ds es : List Nat) :
    r.ofDigits (ds ++ es) = r.ofDigits ds * r.val ^ es.length + r.ofDigits es := by
  induction es using List.reverseRecOn with
  | nil => simp
  | append_singleton es e ih =>
      rw [← List.append_assoc, ofDigits_concat, ofDigits_concat, ih, List.length_append,
        List.length_singleton, pow_succ]
      ring

theorem ofDigits_cons (d : Nat) (ds : List Nat) :
    r.ofDigits (d :: ds) = d * r.val ^ ds.length + r.ofDigits ds := by
  simpa [ofDigits] using r.ofDigits_append [d] ds

@[simp] theorem ofDigits_singleton (d : Nat) : r.ofDigits [d] = d := by
  simp [ofDigits]

/-- Zeros denote nothing. -/
theorem ofDigits_eq_zero {ds : List Nat} (h : ∀ d ∈ ds, d = 0) : r.ofDigits ds = 0 := by
  induction ds with
  | nil => rfl
  | cons d ds ih =>
      rw [ofDigits_cons, h d List.mem_cons_self, ih fun e mem => h e (List.mem_cons_of_mem d mem)]
      simp

@[simp] theorem ofDigits_replicate_zero (n : Nat) : r.ofDigits (List.replicate n 0) = 0 :=
  r.ofDigits_eq_zero fun _ mem => List.eq_of_mem_replicate mem

variable {r}

theorem ofDigits_lt {ds : List Nat} (h : ∀ d ∈ ds, d < r.val) :
    r.ofDigits ds < r.val ^ ds.length := by
  induction ds using List.reverseRecOn with
  | nil => simp
  | append_singleton ds d ih =>
      have below := ih fun e mem => h e (List.mem_append_left _ mem)
      have digit : d < r.val := h d (by simp)
      rw [ofDigits_concat, List.length_append, List.length_singleton, pow_succ]
      calc
        r.ofDigits ds * r.val + d < (r.ofDigits ds + 1) * r.val := by linarith
        _ ≤ r.val ^ ds.length * r.val := Nat.mul_le_mul_right _ below

/-- A leading digit other than zero makes the number as large as its power of
the radix. -/
theorem pow_le_ofDigits {d : Nat} {ds : List Nat} (h : d ≠ 0) :
    r.val ^ ds.length ≤ r.ofDigits (d :: ds) := by
  rw [ofDigits_cons]
  have := Nat.le_mul_of_pos_left (r.val ^ ds.length) (Nat.pos_of_ne_zero h)
  omega

/-- Lists of one length that denote the same number are the same. -/
theorem ofDigits_inj_of_length_eq {ds es : List Nat} (length : ds.length = es.length)
    (hd : ∀ d ∈ ds, d < r.val) (he : ∀ e ∈ es, e < r.val)
    (h : r.ofDigits ds = r.ofDigits es) : ds = es := by
  induction ds using List.reverseRecOn generalizing es with
  | nil => exact (List.length_eq_zero_iff.mp length.symm).symm
  | append_singleton ds d ih =>
      obtain ⟨es, e, rfl⟩ : ∃ es' e, es = es' ++ [e] := by
        rcases List.eq_nil_or_concat es with rfl | ⟨es', e, rfl⟩
        · simp at length
        · exact ⟨es', e, by simp⟩
      have last : d < r.val := hd d (by simp)
      have last' : e < r.val := he e (by simp)
      rw [ofDigits_concat, ofDigits_concat, Nat.mul_comm, Nat.mul_comm (r.ofDigits es)] at h
      have digit : d = e := by
        have := congrArg (· % r.val) h
        simpa [Nat.mul_add_mod, Nat.mod_eq_of_lt last, Nat.mod_eq_of_lt last'] using this
      subst digit
      have front : ds = es := by
        apply ih (by simpa using length) (fun c mem => hd c (List.mem_append_left _ mem))
          fun c mem => he c (List.mem_append_left _ mem)
        exact Nat.eq_of_mul_eq_mul_left r.val_pos (Nat.add_right_cancel h)
      rw [front]

/-- A list without a leading zero, or the single digit zero, is the list of
digits of its number. -/
theorem digits_ofDigits {ds : List Nat} (nonempty : ds ≠ []) (below : ∀ d ∈ ds, d < r.val)
    (leading : ds.head? = some 0 → ds = [0]) : r.digits (r.ofDigits ds) = ds := by
  induction ds using List.reverseRecOn with
  | nil => exact absurd rfl nonempty
  | append_singleton ds d ih =>
      have digit : d < r.val := below d (by simp)
      rcases List.eq_nil_or_concat ds with rfl | ⟨front, c, split⟩
      · simpa using r.digits_of_lt digit
      · have rest : ds ≠ [] := by simp [split]
        have canonical : ds.head? ≠ some 0 := by
          intro zero
          have single := leading (by rw [List.head?_append_of_ne_nil _ rest, zero])
          exact rest (List.append_eq_singleton_iff.mp single |>.elim (·.1) fun h => by simp at h)
        have digits := ih rest (fun c mem => below c (List.mem_append_left _ mem))
          fun zero => absurd zero canonical
        have positive : r.ofDigits ds ≠ 0 := by
          intro zero
          rw [zero, r.digits_of_lt r.val_pos] at digits
          exact canonical (by rw [← digits]; rfl)
        have large : r.val ≤ r.ofDigits ds * r.val + d :=
          Nat.le_add_right_of_le (Nat.le_mul_of_pos_left _ (Nat.pos_of_ne_zero positive))
        rw [ofDigits_concat, r.digits_of_le large, Nat.mul_comm, Nat.mul_add_div r.val_pos,
          Nat.mul_add_mod, Nat.div_eq_of_lt digit, Nat.mod_eq_of_lt digit, Nat.add_zero, digits]

variable (r)

/-- A number has one digit more than its rounded down logarithm. -/
theorem length_digits (n : Nat) : (r.digits n).length = Nat.log r.val n + 1 := by
  fun_induction r.digits n with
  | case1 n small => rw [List.length_singleton, Nat.log_of_lt small]
  | case2 n large ih =>
      rw [List.length_append, List.length_singleton, ih,
        Nat.log_of_one_lt_of_le r.one_lt_val (Nat.le_of_not_lt large)]

theorem lt_pow_length_digits (n : Nat) : n < r.val ^ (r.digits n).length := by
  rw [length_digits]
  exact Nat.lt_pow_succ_log_self r.one_lt_val n

theorem length_digits_mono {n m : Nat} (h : n ≤ m) : (r.digits n).length ≤ (r.digits m).length := by
  rw [length_digits, length_digits]
  exact Nat.succ_le_succ (Nat.log_mono_right h)

/-- A number has at most some count of digits exactly if it is below that power
of the radix. -/
theorem length_digits_le_iff {n k : Nat} (hk : k ≠ 0) :
    (r.digits n).length ≤ k ↔ n < r.val ^ k := by
  rw [length_digits]
  exact ⟨Nat.lt_pow_of_log_lt r.one_lt_val, Nat.log_lt_of_lt_pow' hk⟩

/-- The digits of a number that starts with others than zero end in those of
its low part, with zeros in front up to the full width. -/
theorem digits_mul_pow_add {q s n : Nat} (hq : q ≠ 0) (hs : (r.digits s).length ≤ n) :
    r.digits (q * r.val ^ n + s) =
      r.digits q ++ (List.replicate (n - (r.digits s).length) 0 ++ r.digits s) := by
  have value : r.ofDigits (r.digits q ++
      (List.replicate (n - (r.digits s).length) 0 ++ r.digits s)) = q * r.val ^ n + s := by
    have width : n - (r.digits s).length + (r.digits s).length = n := Nat.sub_add_cancel hs
    simp [ofDigits_append, width]
  rw [← value]
  apply digits_ofDigits
  · simp [r.digits_ne_nil]
  · intro d mem
    simp only [List.mem_append, List.mem_replicate] at mem
    rcases mem with mem | ⟨-, rfl⟩ | mem
    · exact r.lt_of_mem_digits mem
    · exact r.val_pos
    · exact r.lt_of_mem_digits mem
  · intro zero
    rw [List.head?_append_of_ne_nil _ (r.digits_ne_nil q)] at zero
    exact absurd zero (r.head?_digits hq)

/-- A number below a power of the radix has at most as many digits as the
power's exponent. -/
theorem length_digits_le {n k : Nat} (hk : k ≠ 0) (h : n < r.val ^ k) :
    (r.digits n).length ≤ k :=
  (r.length_digits_le_iff hk).mpr h

end RadixText.Radix

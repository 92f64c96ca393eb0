import Mathlib.Algebra.Order.Field.Power
import Mathlib.Data.Rat.Cast.Order
import Mathlib.Order.Compare
import RadixText.Bignum.Steps
import RadixText.Proofs.InPlace

/-!
# Runs of multi-word arithmetic are exact

Arithmetic on natural numbers below the capacity tells what every operation is
to give. Multi-word numbers that denote the operands give numbers that denote
the results, both in lists and in cells, and fail where a result has no room.
A run of steps does what the run on natural numbers does.
-/

namespace RadixText

namespace Bignum

variable {b b' other : Bignum} {n m : Nat}

instance decidableWellFormed (b : Bignum) : Decidable b.WellFormed :=
  inferInstanceAs (Decidable (b.size ≤ room ∧ b.words.getLast? ≠ some 0))

theorem SameWords.denotes (h : b.SameWords b') (denotes : b'.Denotes n) : b.Denotes n := by
  obtain ⟨ws, has, has'⟩ := h
  refine ⟨⟨?_, ?_⟩, ?_⟩
  · rw [has.size]
    exact has.length_le
  · rw [has.words, ← has'.words]
    exact denotes.isTrimmed
  · rw [toNat, has.words, ← has'.words]
    exact denotes.2

theorem Denotes.size_le_of_le (h : b.Denotes n) (h' : other.Denotes m) (le : m ≤ n) :
    other.size ≤ b.size := by
  by_contra more
  have less := Words.toNat_lt_of_length_lt h'.isTrimmed
    (show b.words.length < _ by rw [h.length_words, h'.length_words]; omega)
  rw [h.toNat_words, h'.toNat_words] at less
  omega

/-- Any power of two is compared as a rational number. -/
theorem comparePowerOfTwo_eq_compare (h : b.Denotes n) (e : Int) :
    b.comparePowerOfTwo e = Ord.compare (n : ℚ) (2 ^ e) := by
  rcases Int.lt_or_le e 0 with negative | nonneg
  · have positive : (0 : ℚ) < 2 ^ e := zpow_pos (by norm_num) e
    have small : (2 : ℚ) ^ e < 1 := zpow_lt_one_of_neg₀ (by norm_num) negative
    rw [comparePowerOfTwo_denotes_of_neg h negative]
    by_cases zero : n = 0
    · rw [if_pos zero, zero, Nat.cast_zero]
      exact (compare_lt_iff_lt.mpr positive).symm
    · have one : (1 : ℚ) ≤ n := by exact_mod_cast Nat.one_le_iff_ne_zero.mpr zero
      rw [if_neg zero]
      exact (compare_gt_iff_gt.mpr (lt_of_lt_of_le small one)).symm
  · obtain ⟨k, rfl⟩ := Int.eq_ofNat_of_zero_le nonneg
    have order := (Nat.strictMono_cast (α := ℚ)).cmp_map_eq n (2 ^ k)
    rw [comparePowerOfTwo_denotes h, zpow_natCast]
    rw [cmp_eq_compare, cmp_eq_compare, Nat.cast_pow, Nat.cast_ofNat] at order
    exact order.symm

end Bignum

namespace Arithmetic

open Bignum (Denotes SameWords capacity room)

/-- A natural number for which there is room. -/
def fitting (n : Nat) : Except Fault Nat := do
  Precondition.bignumRoom.require (n < capacity)
  return n

/-- Exact arithmetic. It refuses what a multi-word number has no room for. -/
def onNaturals : Arithmetic Nat where
  ofWord w := .ok w.toNat
  setShifted _ w bits := do
    Precondition.shiftInRange.require (bits / 64 + 2 ≤ room)
    return w.toNat * 2 ^ bits
  mul n factor := fitting (n * factor.toNat)
  add n other := fitting (n + other.getD n)
  sub n other := .ok (n - other.getD n)
  divMod n divisor := .ok (n / divisor.toNat, n % divisor.toNat)
  split n bits := .ok (n / 2 ^ bits, n % 2 ^ bits)
  compare n other := .ok (Ord.compare n other)
  comparePowerOfTwo n exp := .ok (Ord.compare (n : ℚ) (2 ^ exp))

/-- Numbers that denote the operands give what exact arithmetic gives, as long as the
second operand of a difference is not larger, a divisor is not zero, and a
number reaches at most a half word above a cut. -/
structure IsExact (ops : Arithmetic Bignum) : Prop where
  ofWord (w : UInt64) : Agree Denotes (ops.ofWord w) (onNaturals.ofWord w)
  setShifted (b : Bignum) (n : Nat) (w : UInt64) (bits : Nat) :
    Agree Denotes (ops.setShifted b w bits) (onNaturals.setShifted n w bits)
  mul {b : Bignum} {n : Nat} (h : b.Denotes n) (factor : UInt32) :
    Agree Denotes (ops.mul b factor) (onNaturals.mul n factor)
  add {b : Bignum} {n : Nat} {other : Option Bignum} {m : Option Nat} (h : b.Denotes n)
    (h' : Option.Rel Denotes other m) : Agree Denotes (ops.add b other) (onNaturals.add n m)
  sub {b : Bignum} {n : Nat} {other : Option Bignum} {m : Option Nat} (h : b.Denotes n)
    (h' : Option.Rel Denotes other m) (le : m.getD n ≤ n) :
    Agree Denotes (ops.sub b other) (onNaturals.sub n m)
  divMod {b : Bignum} {n : Nat} (h : b.Denotes n) {divisor : UInt32} (nonzero : divisor ≠ 0) :
    Agree (fun x y => x.1.Denotes y.1 ∧ x.2 = y.2) (ops.divMod b divisor)
      (onNaturals.divMod n divisor)
  split {b : Bignum} {n : Nat} (h : b.Denotes n) {bits : Nat} (bound : n < 2 ^ (bits + 32)) :
    Agree (fun x y => x.1 = y.1 ∧ x.2.Denotes y.2) (ops.split b bits) (onNaturals.split n bits)
  compare {b other : Bignum} {n m : Nat} (h : b.Denotes n) (h' : other.Denotes m) :
    ops.compare b other = onNaturals.compare n m
  comparePowerOfTwo {b : Bignum} {n : Nat} (h : b.Denotes n) (exp : Int) :
    ops.comparePowerOfTwo b exp = onNaturals.comparePowerOfTwo n exp

theorem denotes_getD {b : Bignum} {n : Nat} {other : Option Bignum} {m : Option Nat}
    (h : b.Denotes n) (h' : Option.Rel Denotes other m) : (other.getD b).Denotes (m.getD n) := by
  cases h' with
  | some denotes => exact denotes
  | none => exact h

/-- An operation with a result where there is room, and refused elsewhere. -/
theorem agree_fitting {x : Except Fault Bignum} {n : Nat}
    (fits : n < capacity → ∃ b, x = .ok b ∧ b.Denotes n)
    (large : capacity ≤ n → x = .error (.broken .bignumRoom)) : Agree Denotes x (fitting n) := by
  rw [fitting]
  by_cases room : n < capacity
  · obtain ⟨b, rfl, denotes⟩ := fits room
    rw [Precondition.require_of_kept _ room]
    exact .ok denotes
  · rw [large (Nat.le_of_not_lt room), Precondition.require_of_broken _ room]
    exact .error _

theorem onLists_isExact : onLists.IsExact where
  ofWord w := by
    obtain ⟨b, made, denotes⟩ := Bignum.ofWord_denotes w
    exact .of_eq_ok made denotes
  setShifted b n w bits := by
    change Agree Denotes (b.setShifted w bits) (Precondition.shiftInRange.require _ >>= _)
    by_cases fits : bits / 64 + 2 ≤ room
    · obtain ⟨b', made, denotes⟩ := b.setShifted_denotes w bits fits
      rw [Precondition.require_of_kept _ fits]
      exact .of_eq_ok made denotes
    · rw [Bignum.setShifted, Precondition.require_of_broken _ fits]
      exact .error _
  mul h factor := agree_fitting (Bignum.mul_denotes h factor) (Bignum.mul_of_capacity_le h)
  add h h' := agree_fitting (Bignum.add_denotes h (denotes_getD h h'))
    (Bignum.add_of_capacity_le h (denotes_getD h h'))
  sub h h' le := by
    obtain ⟨b', made, denotes⟩ := Bignum.sub_denotes h (denotes_getD h h') le
    exact .of_eq_ok made denotes
  divMod h divisor nonzero := by
    have positive : 0 < divisor.toNat :=
      Nat.pos_of_ne_zero fun zero => nonzero (UInt32.toNat_inj.mp zero)
    obtain ⟨quotient, rest, made, denotes, value⟩ := Bignum.divMod_denotes h divisor positive
    exact .of_eq_ok (congrArg (Except.map _) made) ⟨denotes, value⟩
  split h bits bound := by
    obtain ⟨above, below, made, value, denotes⟩ := Bignum.split_denotes h bits bound
    exact .of_eq_ok (congrArg (Except.map _) made) ⟨value, denotes⟩
  compare h h' := congrArg Except.ok (Bignum.compare_denotes h h')
  comparePowerOfTwo h exp := congrArg Except.ok (Bignum.comparePowerOfTwo_eq_compare h exp)

/-- Arithmetic in cells is exact because it gives the words that lists give. -/
theorem inCells_isExact : inCells.IsExact where
  ofWord w := (Bignum.InPlace.setShifted_agree .zero w 0).trans (onLists_isExact.ofWord w)
    fun _ _ _ => SameWords.denotes
  setShifted b n w bits := (Bignum.InPlace.setShifted_agree b w bits).trans
    (onLists_isExact.setShifted b n w bits) fun _ _ _ => SameWords.denotes
  mul h factor := (Bignum.InPlace.mul_agree h.1.1 factor).trans (onLists_isExact.mul h factor)
    fun _ _ _ => SameWords.denotes
  add h h' := (Bignum.InPlace.add_agree h.1.1 (denotes_getD h h').1.1).trans
    (onLists_isExact.add h h') fun _ _ _ => SameWords.denotes
  sub h h' le := (Bignum.InPlace.sub_agree h.1.1 (h.size_le_of_le (denotes_getD h h') le)).trans
    (onLists_isExact.sub h h' le) fun _ _ _ => SameWords.denotes
  divMod h divisor nonzero := by
    have same : Agree (fun x y => x.1.SameWords y.1 ∧ x.2 = y.2) (inCells.divMod _ divisor)
        (onLists.divMod _ divisor) := (Bignum.InPlace.divMod_agree h.1.1 divisor).map
      fun x y same => ⟨same.1, congrArg UInt32.toNat same.2⟩
    exact same.trans (onLists_isExact.divMod h nonzero)
      fun _ _ _ same told => ⟨same.1.denotes told.1, same.2.trans told.2⟩
  split h bits bound := by
    have same : Agree (fun x y => x.1 = y.1 ∧ x.2.SameWords y.2) (inCells.split _ bits)
        (onLists.split _ bits) := (Bignum.InPlace.split_agree h.1.1 bits).map
      fun x y same => ⟨congrArg UInt32.toNat same.1, same.2⟩
    exact same.trans (onLists_isExact.split h bound)
      fun _ _ _ same told => ⟨same.1.trans told.1, same.2.denotes told.2⟩
  compare h h' := (Bignum.InPlace.compare_eq h.1.1 h'.1.1).trans (onLists_isExact.compare h h')
  comparePowerOfTwo h exp := (Bignum.InPlace.comparePowerOfTwo_eq h.1.1 exp).trans
    (onLists_isExact.comparePowerOfTwo h exp)

variable {ι : Type} [DecidableEq ι]

namespace Step

/-- What a step asks of the numbers that it works on. -/
def IsProper (v : ι → Nat) : Step ι → Prop
  | sub i j => v j ≤ v i
  | divMod _ divisor => divisor ≠ 0
  | split i bits => v i < 2 ^ (bits + 32)
  | _ => True

instance decidableIsProper (v : ι → Nat) : DecidablePred (IsProper v)
  | ofWord _ _ | copy _ _ | setShifted _ _ _ | mul _ _ | add _ _ | compare _ _
  | comparePowerOfTwo _ _ => inferInstanceAs (Decidable True)
  | sub i j => inferInstanceAs (Decidable (v j ≤ v i))
  | divMod _ divisor => inferInstanceAs (Decidable (divisor ≠ 0))
  | split i bits => inferInstanceAs (Decidable (v i < 2 ^ (bits + 32)))

end Step

/-- Each step of a run is proper for the exact numbers that it finds. -/
def IsProperRun : (ι → Nat) → List (Step ι) → Prop
  | _, [] => True
  | v, step :: steps => step.IsProper v ∧
      match step.apply onNaturals v with
      | .ok result => IsProperRun result.1 steps
      | .error _ => True

instance decidableIsProperRun :
    (v : ι → Nat) → (steps : List (Step ι)) → Decidable (IsProperRun v steps)
  | _, [] => inferInstanceAs (Decidable True)
  | v, step :: steps =>
      let _ : Decidable (match step.apply onNaturals v with
          | .ok result => IsProperRun result.1 steps
          | .error _ => True) :=
        match step.apply onNaturals v with
        | .ok result => decidableIsProperRun result.1 steps
        | .error _ => inferInstanceAs (Decidable True)
      inferInstanceAs (Decidable (step.IsProper v ∧ _))

/-- Every place holds a well-formed number that denotes the exact one, and the
steps tell the same. -/
def Shows (x : (ι → Bignum) × Output) (y : (ι → Nat) × Output) : Prop :=
  (∀ i, (x.1 i).Denotes (y.1 i)) ∧ x.2 = y.2

variable {s : ι → Bignum} {v : ι → Nat} {ops : Arithmetic Bignum}

theorem denotes_update (start : ∀ i, (s i).Denotes (v i)) {i : ι} {b : Bignum} {n : Nat}
    (h : b.Denotes n) (j : ι) : (Function.update s i b j).Denotes (Function.update v i n j) := by
  by_cases same : j = i
  · rw [same, Function.update_self, Function.update_self]
    exact h
  · rw [Function.update_of_ne same, Function.update_of_ne same]
    exact start j

theorem assign_agree (start : ∀ i, (s i).Denotes (v i)) (i : ι) {x : Except Fault Bignum}
    {y : Except Fault Nat} (h : Agree Denotes x y) : Agree Shows (assign s i x) (assign v i y) :=
  h.map fun _ _ denotes => ⟨denotes_update start denotes, rfl⟩

theorem operandAt_rel (start : ∀ i, (s i).Denotes (v i)) (i j : ι) :
    Option.Rel Denotes (operandAt s i j) (operandAt v i j) := by
  rw [operandAt, operandAt]
  split
  · exact .none
  · exact .some (start j)

/-- A proper step on numbers that denote exact ones does what it does on those. -/
theorem apply_agree (exactly : ops.IsExact) (start : ∀ i, (s i).Denotes (v i)) {step : Step ι}
    (proper : step.IsProper v) : Agree Shows (step.apply ops s) (step.apply onNaturals v) := by
  cases step with
  | ofWord i w => exact assign_agree start i (exactly.ofWord w)
  | copy i j => exact assign_agree start i (.ok (start j))
  | setShifted i w bits => exact assign_agree start i (exactly.setShifted _ _ w bits)
  | mul i factor => exact assign_agree start i (exactly.mul (start i) factor)
  | add i j => exact assign_agree start i (exactly.add (start i) (operandAt_rel start i j))
  | sub i j =>
      have le : (operandAt v i j).getD (v i) ≤ v i := by
        rw [operandAt]
        split
        · exact Nat.le_refl _
        · exact proper
      exact assign_agree start i (exactly.sub (start i) (operandAt_rel start i j) le)
  | divMod i divisor =>
      rw [Step.apply, Step.apply]
      apply (exactly.divMod (start i) proper).map
      rintro x y ⟨denotes, same⟩
      exact ⟨denotes_update start denotes, congrArg Output.number same⟩
  | split i bits =>
      rw [Step.apply, Step.apply]
      apply (exactly.split (start i) proper).map
      rintro x y ⟨same, denotes⟩
      exact ⟨denotes_update start denotes, congrArg Output.number same⟩
  | compare i j =>
      rw [Step.apply, Step.apply, exactly.compare (start i) (start j)]
      exact (Agree.refl _).map fun _ _ same => ⟨start, congrArg Output.order same⟩
  | comparePowerOfTwo i exp =>
      rw [Step.apply, Step.apply, exactly.comparePowerOfTwo (start i) exp]
      exact (Agree.refl _).map fun _ _ same => ⟨start, congrArg Output.order same⟩

/-- A run on numbers that denote exact ones does what it does on those. -/
theorem run_agree (exactly : ops.IsExact) {steps : List (Step ι)}
    (start : ∀ i, (s i).Denotes (v i)) (proper : IsProperRun v steps) :
    Agree (List.Forall₂ Shows) (run ops s steps) (run onNaturals v steps) := by
  induction steps generalizing s v with
  | nil => exact .ok .nil
  | cons step steps ih =>
      obtain ⟨first, next⟩ := proper
      apply (apply_agree exactly start first).bind_of_ok
      intro result result' made shows
      rw [made] at next
      apply (ih shows.1 next).map
      intro results results' all
      exact .cons shows all

omit [DecidableEq ι] in
/-- Runs whose numbers denote each other tell the same. -/
theorem map_snd_of_shows {results : List ((ι → Bignum) × Output)}
    {exactly : List ((ι → Nat) × Output)} (h : List.Forall₂ Shows results exactly) :
    results.map Prod.snd = exactly.map Prod.snd := by
  induction h with
  | nil => rfl
  | cons shows _ ih => rw [List.map_cons, List.map_cons, shows.2, ih]

/-- Multi-word numbers simulate natural numbers: a run of steps on well-formed
numbers fails exactly where a result has no room, and else every number behind
every step is well formed and denotes the exact one, and every remainder, every
cut off part and every order is the exact one. Lists of words and loops over
cells both do so, whatever the cells above the words hold. -/
theorem run_is_exact {s : ι → Bignum} {steps : List (Step ι)} (start : ∀ i, (s i).WellFormed)
    (proper : IsProperRun (fun i => (s i).toNat) steps) :
    Agree (List.Forall₂ Shows) (run onLists s steps)
        (run onNaturals (fun i => (s i).toNat) steps) ∧
      Agree (List.Forall₂ Shows) (run inCells s steps)
        (run onNaturals (fun i => (s i).toNat) steps) := by
  have denotes (i : ι) : (s i).Denotes (s i).toNat := ⟨start i, rfl⟩
  exact ⟨run_agree onLists_isExact denotes proper, run_agree inCells_isExact denotes proper⟩

/-- All cells are full, and one word or two of them are in use. -/
def fullCells (two : Bool) : Bignum :=
  ⟨List.replicate 18 Word.allOnes, if two then 2 else 1, List.length_replicate⟩

/-- Steps that carry and borrow through all words in use. -/
def carryingSteps : List (Step Bool) :=
  [.add true false, .comparePowerOfTwo true 128, .sub true false, .split true 100, .divMod true 10,
    .mul false 0, .comparePowerOfTwo false (-1), .compare false true, .setShifted false 3 200,
    .add false false]

theorem full_cells_carry_exactly :
    (∀ two, (fullCells two).WellFormed) ∧
      IsProperRun (fun two => (fullCells two).toNat) carryingSteps ∧
      ∃ results, run inCells fullCells carryingSteps = .ok results ∧ results.map Prod.snd =
        [.none, .order .gt, .none, .number (2 ^ 28 - 1), .number 5, .none, .order .lt, .order .lt,
          .none, .none] := by
  have start : ∀ two, (fullCells two).WellFormed := by decide
  have proper : IsProperRun (fun two => (fullCells two).toNat) carryingSteps := by decide +kernel
  obtain ⟨exactly, ended, told⟩ : ∃ exactly,
      run onNaturals (fun two => (fullCells two).toNat) carryingSteps = .ok exactly ∧
        exactly.map Prod.snd = [.none, .order .gt, .none, .number (2 ^ 28 - 1), .number 5, .none,
          .order .lt, .order .lt, .none, .none] := ⟨_, rfl, by decide +kernel⟩
  obtain ⟨results, made, shows⟩ := (ended ▸ (run_is_exact start proper).2).exists_ok
  exact ⟨start, proper, results, made, (map_snd_of_shows shows).trans told⟩

end Arithmetic

end RadixText

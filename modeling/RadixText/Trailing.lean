/-!
# Trailing elements

A list without the elements at its end that satisfy a test.
-/

namespace RadixText

variable {α : Type} (p : α → Bool)

/-- Drops the longest run at the end whose elements all satisfy the test. -/
def dropTrailing : List α → List α
  | [] => []
  | a :: as =>
      match dropTrailing as with
      | [] => if p a then [] else [a]
      | b :: bs => a :: b :: bs

@[simp] theorem dropTrailing_nil : dropTrailing p [] = [] := rfl

theorem dropTrailing_cons_of_ne_nil {a : α} {as : List α} (h : dropTrailing p as ≠ []) :
    dropTrailing p (a :: as) = a :: dropTrailing p as := by
  rw [dropTrailing]
  split
  · contradiction
  · simp_all

theorem dropTrailing_concat (as : List α) (a : α) :
    dropTrailing p (as ++ [a]) = if p a then dropTrailing p as else as ++ [a] := by
  induction as with
  | nil => rfl
  | cons b bs ih =>
    rw [List.cons_append, dropTrailing, ih]
    by_cases pa : p a
    · rw [if_pos pa, if_pos pa, dropTrailing]
    · rw [if_neg pa, if_neg pa]
      cases bs <;> rfl

/-- The list is what is kept followed by elements that satisfy the test. -/
theorem exists_dropTrailing_append (as : List α) :
    ∃ tail, as = dropTrailing p as ++ tail ∧ ∀ a ∈ tail, p a = true := by
  induction as with
  | nil => exact ⟨[], rfl, by simp⟩
  | cons a as ih =>
    obtain ⟨tail, split, all⟩ := ih
    cases kept : dropTrailing p as with
    | nil =>
      rw [kept, List.nil_append] at split
      by_cases pa : p a
      · refine ⟨a :: as, ?_, ?_⟩
        · simp [dropTrailing, kept, pa]
        · intro b mem
          rcases List.mem_cons.mp mem with rfl | mem
          · exact pa
          · exact all b (split ▸ mem)
      · refine ⟨as, ?_, fun b mem => all b (split ▸ mem)⟩
        simp [dropTrailing, kept, pa]
    | cons b bs =>
      refine ⟨tail, ?_, all⟩
      rw [dropTrailing_cons_of_ne_nil p (by simp [kept]), List.cons_append, ← split]

/-- What is kept does not end in an element that satisfies the test. -/
theorem getLast?_dropTrailing (as : List α) :
    ∀ a, (dropTrailing p as).getLast? = some a → p a = false := by
  induction as with
  | nil => simp
  | cons b bs ih =>
    intro a last
    cases kept : dropTrailing p bs with
    | nil =>
      by_cases pb : p b
      · simp [dropTrailing, kept, pb] at last
      · simp [dropTrailing, kept, pb] at last
        simpa [last] using pb
    | cons d ds =>
      rw [dropTrailing_cons_of_ne_nil p (by simp [kept]), kept] at last
      apply ih a
      rw [kept, ← last, List.getLast?_cons_cons]

theorem length_dropTrailing_le (as : List α) : (dropTrailing p as).length ≤ as.length := by
  obtain ⟨tail, split, _⟩ := exists_dropTrailing_append p as
  have := congrArg List.length split
  rw [List.length_append] at this
  omega

end RadixText

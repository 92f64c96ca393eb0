import RadixText.Fault

/-!
# Agreement of two operations

Two operations of different make that are to do the same fail alike, or deliver
results that are related. Operations in a row agree if each of them does.
-/

namespace RadixText

/-- Two operations fail alike or deliver related results. -/
inductive Agree {α β : Type} (R : α → β → Prop) : Except Fault α → Except Fault β → Prop
  | ok {a : α} {b : β} (related : R a b) : Agree R (.ok a) (.ok b)
  | error (e : Fault) : Agree R (.error e) (.error e)

namespace Agree

variable {α β γ δ : Type} {R : α → β → Prop} {S : γ → δ → Prop}

/-- Results of two operations are followed by operations that agree. -/
theorem bind_of_ok {x : Except Fault α} {y : Except Fault β} {f : α → Except Fault γ}
    {g : β → Except Fault δ} (h : Agree R x y)
    (next : ∀ a b, y = .ok b → R a b → Agree S (f a) (g b)) : Agree S (x >>= f) (y >>= g) := by
  cases h with
  | ok related => exact next _ _ rfl related
  | error e => exact .error e

theorem bind {x : Except Fault α} {y : Except Fault β} {f : α → Except Fault γ}
    {g : β → Except Fault δ} (h : Agree R x y)
    (next : ∀ a b, R a b → Agree S (f a) (g b)) : Agree S (x >>= f) (y >>= g) :=
  h.bind_of_ok fun a b _ => next a b

/-- An operation in common is followed by operations that agree. -/
theorem bind_same {x : Except Fault α} {f : α → Except Fault γ} {g : α → Except Fault δ}
    (next : ∀ a, x = .ok a → Agree S (f a) (g a)) : Agree S (x >>= f) (x >>= g) := by
  cases x with
  | ok a => exact next a rfl
  | error e => exact .error e

theorem refl (x : Except Fault α) : Agree Eq x x := by
  cases x with
  | ok a => exact .ok rfl
  | error e => exact .error e

theorem mono {x : Except Fault α} {y : Except Fault β} {R' : α → β → Prop} (h : Agree R x y)
    (weaker : ∀ a b, R a b → R' a b) : Agree R' x y := by
  cases h with
  | ok related => exact .ok (weaker _ _ related)
  | error e => exact .error e

theorem of_eq_ok {x : Except Fault α} {a : α} {b : β} (h : x = .ok a) (related : R a b) :
    Agree R x (.ok b) := by
  rw [h]
  exact .ok related

theorem map {x : Except Fault α} {y : Except Fault β} {f : α → γ} {g : β → δ} (h : Agree R x y)
    (related : ∀ a b, R a b → S (f a) (g b)) : Agree S (x.map f) (y.map g) := by
  cases h with
  | ok r => exact .ok (related _ _ r)
  | error e => exact .error e

/-- Results that are mapped to each other are those of equal operations. -/
theorem map_eq {x : Except Fault α} {y : Except Fault β} {f : α → β} (h : Agree R x y)
    (same : ∀ a b, R a b → f a = b) : x.map f = y := by
  cases h with
  | ok r => exact congrArg Except.ok (same _ _ r)
  | error e => rfl

/-- Agreement goes on through an operation in the middle. -/
theorem trans {x : Except Fault α} {y : Except Fault β} {z : Except Fault γ} {R' : β → γ → Prop}
    {T : α → γ → Prop} (h : Agree R x y) (h' : Agree R' y z)
    (related : ∀ a b c, R a b → R' b c → T a c) : Agree T x z := by
  cases h with
  | ok r =>
      cases h' with
      | ok r' => exact .ok (related _ _ _ r r')
  | error e =>
      cases h' with
      | error => exact .error e

/-- Both deliver a result if the second one does. -/
theorem exists_ok {x : Except Fault α} {b : β} (h : Agree R x (.ok b)) :
    ∃ a, x = .ok a ∧ R a b := by
  cases h with
  | ok related => exact ⟨_, rfl, related⟩

theorem eq_error {x : Except Fault α} {e : Fault} (h : Agree R x (.error e)) : x = .error e := by
  cases h with
  | error => rfl

theorem eq {x y : Except Fault α} (h : Agree Eq x y) : x = y := by
  cases h with
  | ok related => rw [related]
  | error e => rfl

end Agree

end RadixText

/-!
# Faults

Every operation delivers its result or reports one fault. A broken
precondition names the promise that the caller did not keep, a format error
is a refusal of the request itself.
-/

namespace RadixText

/-- A promise that an operation relies on. -/
inductive Precondition where
  | radixInRange
  | digitInRange
  | digitsFit
  | tailRoom
  | widthInRange
  | highWordBelowDivisor
  | chunkQuotientSmall
  | shiftInRange
  | bignumRoom
  | noBorrow
  | splitInRange
  | nonzero
  | fractionDigits
  | textRoom
  | finite
  | equalExponents
  | orderedFractions
  | tableIndex
  | advanceInRange
  deriving DecidableEq

/-- A request that no text answers. -/
inductive FormatError where
  | invalidRadix
  | insufficientCapacity
  | custom (text : String)
  deriving DecidableEq

/-- The wording of a format error. A custom text ends at its first zero unit. -/
def FormatError.message : FormatError → String
  | .invalidRadix => "invalid radix"
  | .insufficientCapacity => "insufficient buffer capacity"
  | .custom text => String.ofList (text.toList.takeWhile (· ≠ '\x00'))

inductive Fault where
  | format (e : FormatError)
  /-- A buffer would grow past its limit. -/
  | tooMuchToReserve
  | broken (p : Precondition)
  /-- A digit falls outside the places kept on its side of the point. -/
  | digitRoom
  /-- A text or a word has no cell to be placed into. -/
  | cellRoom
  deriving DecidableEq

/-- The wording of a fault that is reported with one. -/
def Fault.message? : Fault → Option String
  | .format e => some e.message
  | .tooMuchToReserve => some "too much to reserve"
  | .broken _ | .digitRoom | .cellRoom => none

/-- Two operations in a row deliver a result exactly when both do. -/
theorem bind_eq_ok_iff {α β : Type} {x : Except Fault α} {f : α → Except Fault β} {b : β} :
    x >>= f = .ok b ↔ ∃ a, x = .ok a ∧ f a = .ok b := by
  cases x with
  | error e => simp [bind, Except.bind]
  | ok a => simp [bind, Except.bind]

theorem pure_eq_ok_iff {α : Type} {a b : α} : (pure a : Except Fault α) = .ok b ↔ a = b := by
  simp [pure, Except.pure]

/-- Goes on exactly when the promise is kept. -/
def Precondition.require (p : Precondition) (kept : Prop) [Decidable kept] : Except Fault Unit :=
  if kept then .ok () else .error (.broken p)

@[simp] theorem Precondition.require_of_kept (p : Precondition) {kept : Prop} [Decidable kept]
    (h : kept) : p.require kept = .ok () := by
  simp [Precondition.require, h]

@[simp] theorem Precondition.require_of_broken (p : Precondition) {kept : Prop}
    [Decidable kept] (h : ¬ kept) : p.require kept = .error (.broken p) := by
  simp [Precondition.require, h]

theorem Precondition.require_eq_ok_iff (p : Precondition) {kept : Prop} [Decidable kept] :
    p.require kept = .ok () ↔ kept := by
  by_cases h : kept <;> simp [h]

end RadixText

import RadixText.Buffer.Fixed
import RadixText.Number.Basic

/-!
# Runs of steps

A buffer or a text takes a run of steps. A fault carries no state, so a step
that fails is taken back, and the run goes on. The proofs about runs show that
such a step had not changed anything yet.
-/

namespace RadixText

section Runs

variable {β σ : Type} (step : β → σ → Except Fault β)

/-- What a single step ends with: the state behind it, and its fault. -/
def outcome (b : β) (s : σ) : β × Option Fault :=
  match step b s with
  | .ok b' => (b', none)
  | .error e => (b, some e)

/-- The states of a run after each of its steps, and the faults of the steps
that failed. -/
def trace : β → List σ → List (β × Option Fault)
  | _, [] => []
  | b, s :: steps =>
      let result := outcome step b s
      result :: trace result.1 steps

/-- The state at the end of a run. -/
def finalState : β → List σ → β
  | b, [] => b
  | b, s :: steps => finalState (outcome step b s).1 steps

/-- The last step of a run starts in the final state of the others. -/
theorem finalState_concat (b : β) (steps : List σ) (s : σ) :
    finalState step b (steps ++ [s]) = (outcome step (finalState step b steps) s).1 := by
  induction steps generalizing b with
  | nil => rfl
  | cons s' steps ih => exact ih (outcome step b s').1

/-- Each entry of a trace is the outcome of its step in the final state of the
steps before. -/
theorem getElem?_trace (b : β) (steps : List σ) (i : Nat) : (trace step b steps)[i]? =
    steps[i]?.map (outcome step (finalState step b (steps.take i))) := by
  induction steps generalizing b i with
  | nil => rfl
  | cons s steps ih =>
    cases i with
    | zero => rfl
    | succ i => exact ih (outcome step b s).1 i

variable {step} {b b' : β} {s : σ} {e : Fault}

theorem outcome_of_ok (h : step b s = .ok b') : outcome step b s = (b', none) := by
  rw [outcome, h]

theorem outcome_of_error (h : step b s = .error e) : outcome step b s = (b, some e) := by
  rw [outcome, h]

/-- A step that fails is reported and taken back. -/
theorem trace_singleton_of_error (h : step b s = .error e) : trace step b [s] = [(b, some e)] := by
  rw [trace, outcome_of_error h]
  rfl

end Runs

/-- What one step writes. -/
inductive Piece where
  | number (v : Number) (o : Options)
  | text (s : List Char)
  | single (c : Char)

namespace Piece

/-- The text of a piece. -/
def toText (u : UnitWidth) : Piece → Except Fault (List Char)
  | number v o => v.toText u o
  | text s => .ok s
  | single c => .ok [c]

def write {β : Type} [Sink β] (b : β) : Piece → Except Fault β
  | number v o => v.write o b
  | text s => Sink.append b s
  | single c => Sink.push b c

/-- Appends the text of a piece to a text. -/
def appendTo (u : UnitWidth) (text : List Char) (piece : Piece) : Except Fault (List Char) := do
  return text ++ (← piece.toText u)

end Piece

inductive FixedBuffer.Step where
  | write (piece : Piece)
  | advance (n : Nat)

def FixedBuffer.step (b : FixedBuffer) : FixedBuffer.Step → Except Fault FixedBuffer
  | .write piece => piece.write b
  | .advance n => b.advance n

inductive GrowingBuffer.Step where
  | write (piece : Piece)
  | advance (n : Nat)
  | reserve (n : Nat)
  | clear

def GrowingBuffer.step (b : GrowingBuffer) : GrowingBuffer.Step → Except Fault GrowingBuffer
  | .write piece => piece.write b
  | .advance n => b.advance n
  | .reserve n => b.reserve n
  | .clear => .ok b.clear

end RadixText

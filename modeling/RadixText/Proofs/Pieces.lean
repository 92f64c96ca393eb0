import RadixText.Proofs.NumberTexts

/-!
# Pieces that steps write

A piece is a number, a text or a single unit. It is refused for its radix alone,
before any operation of a sink, and otherwise each sink gets its text, the same
one in narrow and in wide units.
-/

namespace RadixText

/-- The fault that a piece is refused with. -/
def Piece.fault? : Piece → Option Fault
  | number _ o =>
      if Radix.smallest ≤ o.radix.toNat ∧ o.radix.toNat ≤ Radix.largest then none
      else some (.format .invalidRadix)
  | text _ => none
  | single _ => none

/-- Every sink sees the piece refused with the same fault, whatever its own
operations do. Among the sinks is one whose operations fail in another way, so
that none of them is reached. -/
def Piece.IsRefused (piece : Piece) (e : Fault) : Prop :=
  ∀ (β : Type) [Sink β] (b : β), piece.write b = .error e

namespace Piece

variable {piece : Piece}

theorem isRefused_of_fault {e : Fault} (h : piece.fault? = some e) : piece.IsRefused e := by
  intro β _ b
  cases piece with
  | number v o =>
      by_cases inRange : Radix.smallest ≤ o.radix.toNat ∧ o.radix.toNat ≤ Radix.largest
      · rw [fault?, if_pos inRange] at h
        cases h
      · rw [fault?, if_neg inRange] at h
        injection h with h
        rw [← h]
        exact v.writeWith_of_invalid _ (Options.requestedRadix_of_outside inRange) b
  | text s => cases h
  | single c => cases h

theorem toText_of_fault {u : UnitWidth} {e : Fault} (h : piece.fault? = some e) :
    piece.toText u = .error e := by
  cases piece with
  | number v o =>
      have refused := isRefused_of_fault h GrowingBuffer (GrowingBuffer.empty u 0)
      change (v.write o (GrowingBuffer.empty u 0) >>= _) = _
      rw [show v.write o _ = _ from refused]
      rfl
  | text s => cases h
  | single c => cases h

/-- A piece that is not refused is delivered to the sinks as its text. -/
theorem exists_delivers (h : piece.fault? = none) : ∃ text,
    (∀ u, piece.toText u = .ok text) ∧ Delivers (fun b => piece.write b) text := by
  cases piece with
  | number v o =>
      by_cases inRange : Radix.smallest ≤ o.radix.toNat ∧ o.radix.toNat ≤ Radix.largest
      · obtain ⟨r, valid⟩ := Options.exists_requestedRadix inRange
        obtain ⟨text, nonempty, length, delivers⟩ := v.exists_delivers ExtFloat.logBelowOne valid
        exact ⟨text, (Number.hasText_of_delivers delivers nonempty length).toText, delivers⟩
      · rw [fault?, if_neg inRange] at h
        cases h
  | text s => exact ⟨s, fun _ => rfl, Delivers.append s⟩
  | single c => exact ⟨[c], fun _ => rfl, Delivers.push c⟩

/-- What a piece adds to a text, nothing if it is refused. -/
def output (u : UnitWidth) (piece : Piece) : List Char := (piece.toText u).toOption.getD []

theorem output_of_fault {e : Fault} (h : piece.fault? = some e) (u : UnitWidth) :
    piece.output u = [] := by
  rw [output, toText_of_fault h]
  rfl

theorem delivers_output (h : piece.fault? = none) (u : UnitWidth) :
    Delivers (fun b => piece.write b) (piece.output u) := by
  obtain ⟨text, converted, delivers⟩ := exists_delivers h
  have output : piece.output u = text := by
    rw [Piece.output, converted]
    rfl
  rwa [output]

/-- The outputs of some pieces, one after the other. -/
def outputs (u : UnitWidth) (pieces : List Piece) : List Char := pieces.flatMap (output u)

@[simp] theorem outputs_concat (u : UnitWidth) (pieces : List Piece) (piece : Piece) :
    outputs u (pieces ++ [piece]) = outputs u pieces ++ piece.output u := by
  simp [outputs]

end Piece

end RadixText

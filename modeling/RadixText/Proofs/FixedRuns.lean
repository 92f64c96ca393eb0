import RadixText.Proofs.Pieces

/-!
# Runs of fixed buffers

A fixed buffer that takes a run of pieces holds the first units of their
outputs, one after the other, as many as it has cells. The cells behind them
keep what they hold, and from the last cell on nothing is written any more.
-/

namespace RadixText.FixedBuffer

variable {b : FixedBuffer} {cells text : List Char}

@[simp] theorem append_nil (b : FixedBuffer) : b.append [] = b := by
  simp [append]

/-- Without a cell left every output is dropped. -/
theorem append_of_room_eq_zero (full : b.room = 0) (s : List Char) : b.append s = b := by
  have rest_eq_nil : b.rest = [] := List.length_eq_zero_iff.mp full
  cases b
  simp_all [append, room]

/-- The cells in front of the write position hold the first units of a text, as
many as there are cells, and the others hold what they held before. -/
structure HoldsFirst (b : FixedBuffer) (cells text : List Char) : Prop where
  position_eq : b.position = min cells.length text.length
  room_eq : b.room = cells.length - b.position
  length_cells : b.cells.length = cells.length
  front : b.cells.take b.position = text.take b.position
  behind : b.cells.drop b.position = cells.drop b.position

theorem holdsFirst_append (cells text : List Char) :
    ((ofCells cells).append text).HoldsFirst cells text := by
  have position : ((ofCells cells).append text).position = min cells.length text.length := by
    simp [FixedBuffer.position, ofCells, room]
  refine ⟨position, ?_, (ofCells cells).length_cells_append text, ?_, ?_⟩
  · rw [position]
    simp only [room, ofCells, rest_append, List.length_drop]
    omega
  · rw [position, FixedBuffer.cells]
    simp only [ofCells, room, written_append, List.nil_append, rest_append]
    rw [List.take_left' (by simp), ← List.take_eq_take_min]
  · rw [position, FixedBuffer.cells]
    simp only [ofCells, room, written_append, List.nil_append, rest_append]
    rw [List.drop_left' (by simp)]
    rcases Nat.le_total text.length cells.length with le | le
    · rw [Nat.min_eq_right le]
    · rw [Nat.min_eq_left le, List.drop_length, List.drop_eq_nil_of_le le]

/-- A piece appends its output, or is refused and changes nothing. -/
theorem outcome_write (b : FixedBuffer) (u : UnitWidth) (piece : Piece) :
    outcome step b (.write piece) = (b.append (piece.output u), piece.fault?) := by
  cases refused : piece.fault? with
  | none =>
      obtain ⟨b', written, rfl⟩ := piece.delivers_output refused u FixedBuffer b trivial
      exact outcome_of_ok written
  | some e =>
      rw [piece.output_of_fault refused, append_nil]
      exact outcome_of_error (piece.isRefused_of_fault refused FixedBuffer b)

/-- A run appends the outputs of its pieces as one text. -/
theorem finalState_write (b : FixedBuffer) (u : UnitWidth) (pieces : List Piece) :
    finalState step b (pieces.map .write) = b.append (Piece.outputs u pieces) := by
  induction pieces using List.reverseRecOn with
  | nil => exact b.append_nil.symm
  | append_singleton pieces piece ih =>
      rw [List.map_append, List.map_singleton, finalState_concat, ih, outcome_write _ u,
        append_append, Piece.outputs_concat]

/-- After each piece of a run the cells hold the first units of all outputs so
far. Once the cells are used up nothing is written, however short. A piece that
is refused changes nothing, since no operation of any sink is reached. -/
theorem run_keeps_first_outputs (u : UnitWidth) (cells : List Char) {pieces : List Piece}
    {i : Nat} {piece : Piece} (next : pieces[i]? = some piece) : ∃ before after,
      finalState step (ofCells cells) ((pieces.take i).map .write) = before ∧
      finalState step (ofCells cells) ((pieces.take (i + 1)).map .write) = after ∧
      (trace step (ofCells cells) (pieces.map .write))[i]? = some (after, piece.fault?) ∧
      after.HoldsFirst cells (Piece.outputs u (pieces.take (i + 1))) ∧
      (cells.length ≤ (Piece.outputs u (pieces.take i)).length → after = before) ∧
      ∀ e, piece.fault? = some e →
        piece.output u = [] ∧ after = before ∧ piece.IsRefused e := by
  have split : pieces.take (i + 1) = pieces.take i ++ [piece] := by
    rw [List.take_add_one, next]
    rfl
  have before := finalState_write (ofCells cells) u (pieces.take i)
  have after := finalState_write (ofCells cells) u (pieces.take (i + 1))
  refine ⟨_, _, before, after, ?_, holdsFirst_append cells _, ?_, ?_⟩
  · rw [getElem?_trace, List.getElem?_map, next, ← List.map_take, before]
    rw [split, Piece.outputs_concat, ← append_append]
    exact congrArg some (outcome_write _ u piece)
  · intro used
    rw [split, Piece.outputs_concat, ← append_append]
    apply append_of_room_eq_zero
    rw [(holdsFirst_append cells _).room_eq, (holdsFirst_append cells _).position_eq]
    omega
  · intro e fault
    have silent := piece.output_of_fault fault u
    have same : Piece.outputs u (pieces.take (i + 1)) = Piece.outputs u (pieces.take i) := by
      rw [split, Piece.outputs_concat, silent, List.append_nil]
    exact ⟨silent, congrArg _ same, piece.isRefused_of_fault fault⟩

/-- Three cells take a text of two units and the first digit of a number, and
nothing of the single unit behind it. A radix is refused then. -/
theorem three_cells_keep_first_outputs :
    ∃ (pieces : List Piece) (after : FixedBuffer), pieces[2]? = some (Piece.single 'c') ∧
      (trace step (ofCells ['.', '.', '.']) (pieces.map .write))[2]? = some (after, none) ∧
      Piece.outputs .narrow (pieces.take 3) = ['a', 'b', '1', '7', 'c'] ∧
      after.HoldsFirst ['.', '.', '.'] ['a', 'b', '1', '7', 'c'] ∧
      finalState step (ofCells ['.', '.', '.']) ((pieces.take 2).map .write) = after ∧
      (trace step (ofCells ['.', '.', '.']) (pieces.map .write))[3]? =
        some (after, some (Fault.format .invalidRadix)) := by
  let pieces : List Piece := [.text ['a', 'b'], .number (.wide ⟨0, 17⟩) ⟨10, Flags.none⟩,
    .single 'c', .number (.wide ⟨0, 17⟩) ⟨37, Flags.none⟩]
  have next : pieces[2]? = some (.single 'c') := rfl
  have outputs : Piece.outputs .narrow (pieces.take 3) = ['a', 'b', '1', '7', 'c'] := by
    decide +kernel
  have used : 3 ≤ (Piece.outputs .narrow (pieces.take 2)).length := by decide +kernel
  obtain ⟨before, after, started, ended, traced, holds, full, -⟩ :=
    run_keeps_first_outputs .narrow ['.', '.', '.'] next
  have last : pieces[3]? = some (.number (.wide ⟨0, 17⟩) ⟨37, Flags.none⟩) := rfl
  obtain ⟨before', after', started', -, traced', -, -, refused⟩ :=
    run_keeps_first_outputs .narrow ['.', '.', '.'] last
  obtain ⟨-, same, -⟩ := refused (.format .invalidRadix) rfl
  obtain rfl : after = after' := (ended.symm.trans started').trans same.symm
  exact ⟨pieces, after, next, traced, outputs, outputs ▸ holds, (full used).symm ▸ started, traced'⟩

end RadixText.FixedBuffer

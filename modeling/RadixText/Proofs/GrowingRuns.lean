import Mathlib.Data.List.DropRight
import RadixText.Proofs.Pieces

/-!
# Runs of growing buffers

A growing buffer that takes a run of steps holds the outputs since it was last
cleared, one after the other, as long as all outputs together stay within the
limit. Its memory only grows, and stays within the limit. A step that fails
does so for a reason that its state shows, before it changes anything.
-/

namespace RadixText

namespace GrowingBuffer

namespace Step

/-- What a step adds to the text, nothing if it fails. Cells that the write
position moves over are no output. -/
def output (u : UnitWidth) : Step → List Char
  | write piece => piece.output u
  | advance _ => []
  | reserve _ => []
  | clear => []

def isClear : Step → Bool
  | clear => true
  | _ => false

/-- The fault that a step fails with. -/
def fault? (b : GrowingBuffer) : Step → Option Fault
  | write piece => piece.fault?
  | advance n => if n ≤ b.room then none else some (.broken .advanceInRange)
  | reserve n =>
      if b.room < n ∧ b.width.limit - b.size < n then some .tooMuchToReserve else none
  | clear => none

/-- A step is refused with a fault before it changes anything: a piece before any
operation of a sink, and more room before the memory is moved. -/
def IsRefused (b : GrowingBuffer) (e : Fault) : Step → Prop
  | write piece => piece.IsRefused e
  | advance n => Precondition.advanceInRange.require (n ≤ b.room) = .error e
  | reserve n => b.grownCapacity n = .error e
  | clear => False

end Step

/-- What the steps of a run do to a buffer. -/
inductive Move (b : GrowingBuffer) : Step → Option Fault → GrowingBuffer → Prop
  | fail {s : Step} {e : Fault} (failed : s.fault? b = some e) (silent : s.output b.width = [])
      (refused : s.IsRefused b e) : Move b s (some e) b
  | write {piece : Piece} {b' : GrowingBuffer} (accepted : piece.fault? = none)
      (extends_ : b.Extends ((Step.write piece).output b.width) b') :
      Move b (.write piece) none b'
  | reserve {n : Nat} {b' : GrowingBuffer} (accepted : (Step.reserve n).fault? b = none)
      (extends_ : b.Extends [] b') (enough : n ≤ b'.room) : Move b (.reserve n) none b'
  | clear : Move b .clear none b.clear

variable {b b' : GrowingBuffer} {s : Step} {fault : Option Fault} {n : Nat}

namespace Move

theorem fault_eq (h : Move b s fault b') : fault = s.fault? b := by
  cases h with
  | fail failed silent refused => exact failed.symm
  | write accepted extends_ => exact accepted.symm
  | reserve accepted extends_ enough => exact accepted.symm
  | clear => rfl

theorem written (h : Move b s fault b') :
    b'.written = if s.isClear then [] else b.written ++ s.output b.width := by
  cases h with
  | fail failed silent refused =>
      rw [silent, List.append_nil]
      cases s with
      | clear => cases failed
      | _ => rfl
  | write accepted extends_ => exact extends_.written
  | reserve accepted extends_ enough => exact extends_.written
  | clear => rfl

theorem width (h : Move b s fault b') : b'.width = b.width := by
  cases h with
  | fail failed silent refused => rfl
  | write accepted extends_ => exact extends_.width
  | reserve accepted extends_ enough => exact extends_.width
  | clear => rfl

theorem capacity_le (h : Move b s fault b') : b.capacity ≤ b'.capacity := by
  cases h with
  | fail failed silent refused => exact Nat.le_refl _
  | write accepted extends_ => exact extends_.capacity_le
  | reserve accepted extends_ enough => exact extends_.capacity_le
  | clear => exact Nat.le_refl _

theorem sound (h : Move b s fault b') (sound : b.IsSound) : b'.IsSound := by
  cases h with
  | fail failed silent refused => exact sound
  | write accepted extends_ => exact extends_.sound sound
  | reserve accepted extends_ enough => exact extends_.sound sound
  | clear => exact ⟨Nat.zero_le _, sound.capacity_le⟩

/-- A step that fails adds nothing and changes nothing. -/
theorem of_fault {e : Fault} (h : Move b s (some e) b') :
    s.output b.width = [] ∧ b' = b ∧ s.IsRefused b e := by
  cases h with
  | fail failed silent refused => exact ⟨silent, rfl, refused⟩

/-- Room that is reserved is there, and the text stays. -/
theorem of_reserve (h : Move b (.reserve n) none b') :
    n ≤ b'.room ∧ b'.written = b.written := by
  cases h with
  | reserve accepted extends_ enough =>
      exact ⟨enough, extends_.written.trans (List.append_nil _)⟩

end Move

theorem write_moves (piece : Piece)
    (room : b.CanTake ((Step.write piece).output b.width).length) : ∃ fault b',
      outcome step b (.write piece) = (b', fault) ∧ Move b (.write piece) fault b' := by
  cases refused : piece.fault? with
  | none =>
      obtain ⟨b', written, gets⟩ := piece.delivers_output refused b.width GrowingBuffer b room
      exact ⟨none, b', outcome_of_ok written, .write refused gets⟩
  | some e =>
      have unreached := piece.isRefused_of_fault refused
      exact ⟨e, b, outcome_of_error (unreached GrowingBuffer b),
        .fail refused (piece.output_of_fault refused b.width) unreached⟩

theorem reserve_moves (b : GrowingBuffer) (n : Nat) : ∃ fault b',
    outcome step b (.reserve n) = (b', fault) ∧ Move b (.reserve n) fault b' := by
  by_cases enough : n ≤ b.room
  · have kept : step b (.reserve n) = .ok b := if_neg (Nat.not_lt.mpr enough)
    refine ⟨none, b, outcome_of_ok kept, .reserve (if_neg ?_) (.refl b) enough⟩
    exact fun h => absurd enough (Nat.not_le_of_lt h.1)
  · have grows : step b (.reserve n) = b.grow n := if_pos (Nat.lt_of_not_le enough)
    by_cases most : b.width.limit - b.size < n
    · have refused := grownCapacity_of_limit_lt most
      exact ⟨_, b, outcome_of_error (grows.trans (grow_of_grownCapacity_error refused)),
        .fail (if_pos ⟨Nat.lt_of_not_le enough, most⟩) rfl refused⟩
    · have room : b.CanTake n := by
        unfold CanTake
        omega
      obtain ⟨grown, moved, extends_, reserved⟩ := grow_of_canTake room (Nat.le_of_not_le enough)
      exact ⟨none, grown, outcome_of_ok (grows.trans moved),
        .reserve (if_neg fun h => most h.2) extends_ reserved⟩

/-- Each step with room for its output is one of the moves. -/
theorem step_moves (s : Step) (noAdvance : ∀ n, s ≠ .advance n)
    (room : b.CanTake (s.output b.width).length) : ∃ fault b',
      outcome step b s = (b', fault) ∧ Move b s fault b' := by
  cases s with
  | write piece => exact write_moves piece room
  | advance n => exact absurd rfl (noAdvance n)
  | reserve n => exact reserve_moves b n
  | clear => exact ⟨none, b.clear, rfl, .clear⟩

/-- The steps of a run since the last one that cleared the buffer. -/
def sinceClear (steps : List Step) : List Step := steps.rtakeWhile fun s => !s.isClear

/-- The outputs of some steps, one after the other. -/
def outputs (u : UnitWidth) (steps : List Step) : List Char := steps.flatMap (Step.output u)

theorem outputs_sinceClear_concat (u : UnitWidth) (steps : List Step) (s : Step) :
    outputs u (sinceClear (steps ++ [s])) =
      if s.isClear then [] else outputs u (sinceClear steps) ++ s.output u := by
  rw [sinceClear, List.rtakeWhile_concat]
  cases s.isClear with
  | true => rfl
  | false => simp [outputs, sinceClear]

theorem length_outputs_mono {u : UnitWidth} {steps steps' : List Step}
    (h : steps.Sublist steps') :
    (outputs u steps).length ≤ (outputs u steps').length :=
  (h.flatMap _).length_le

/-- The outputs since the last clear and the next one are among all outputs. -/
theorem length_outputs_le (u : UnitWidth) (steps : List Step) (s : Step) :
    (outputs u (sinceClear steps)).length + (s.output u).length ≤
      (outputs u (steps ++ [s])).length := by
  have later : (outputs u (sinceClear steps)).length ≤ (outputs u steps).length :=
    length_outputs_mono (List.rtakeWhile_suffix _ _).sublist
  simp only [outputs, List.flatMap_append, List.flatMap_singleton, List.length_append] at later ⊢
  omega

/-- The state that a run ends in. -/
structure Holds (b : GrowingBuffer) (u : UnitWidth) (text : List Char) : Prop where
  written : b.written = text
  width : b.width = u
  sound : b.IsSound

variable {u : UnitWidth} {inline : Nat} {steps : List Step}

/-- A step goes on with a state of a run. -/
theorem Holds.next {text : List Char} (held : b.Holds u text) (noAdvance : ∀ n, s ≠ .advance n)
    (room : text.length + (s.output u).length ≤ u.limit) : ∃ fault b',
      outcome step b s = (b', fault) ∧ Move b s fault b' ∧
      b'.Holds u (if s.isClear then [] else text ++ s.output u) := by
  obtain ⟨rfl, rfl, sound⟩ := held
  obtain ⟨fault, b', done, move⟩ := step_moves s noAdvance room
  exact ⟨fault, b', done, move, move.written, move.width, move.sound sound⟩

theorem empty_holds (within : inline ≤ u.limit) : (empty u inline).Holds u [] := by
  refine ⟨rfl, rfl, Nat.zero_le _, ?_⟩
  change (if inline = 0 then u.defaultCapacity else inline) ≤ u.limit
  split
  · cases u <;> decide
  · exact within

/-- A run ends with the outputs since the last clear. -/
theorem finalState_holds (within : inline ≤ u.limit) (noAdvance : ∀ n, Step.advance n ∉ steps)
    (total : (outputs u steps).length ≤ u.limit) :
    (finalState step (empty u inline) steps).Holds u (outputs u (sinceClear steps)) := by
  induction steps using List.reverseRecOn with
  | nil => exact empty_holds within
  | append_singleton steps s ih =>
      have held := ih (fun n mem => noAdvance n (List.mem_append_left _ mem))
        (Nat.le_trans (length_outputs_mono (List.sublist_append_left _ _)) total)
      have other : ∀ n, s ≠ .advance n := by
        rintro n rfl
        exact noAdvance n (List.mem_append_right _ List.mem_cons_self)
      obtain ⟨_, b', done, -, holds⟩ :=
        held.next other (Nat.le_trans (length_outputs_le u steps s) total)
      rwa [finalState_concat, done, outputs_sinceClear_concat]

/-- After each step of a run the text is the concatenation of the outputs since
the last clear, within memory that only grows up to the limit. A step that
fails adds nothing and changes nothing, since it is refused before it does. -/
theorem run_concatenates_outputs (within : inline ≤ u.limit)
    (noAdvance : ∀ n, Step.advance n ∉ steps) (total : (outputs u steps).length ≤ u.limit)
    {i : Nat} (next : steps[i]? = some s) : ∃ before after,
      finalState step (empty u inline) (steps.take i) = before ∧
      finalState step (empty u inline) (steps.take (i + 1)) = after ∧
      (trace step (empty u inline) steps)[i]? = some (after, s.fault? before) ∧
      after.written = outputs u (sinceClear (steps.take (i + 1))) ∧
      after.size + after.room = after.capacity ∧ after.capacity ≤ u.limit ∧
      before.capacity ≤ after.capacity ∧
      (∀ e, s.fault? before = some e →
        s.output u = [] ∧ after = before ∧ s.IsRefused before e) ∧
      ∀ n, s = .reserve n → s.fault? before = none →
        n ≤ after.room ∧ after.written = before.written := by
  have noAdvance' (k : Nat) : ∀ n, Step.advance n ∉ steps.take k :=
    fun n mem => noAdvance n (List.mem_of_mem_take mem)
  have total' (k : Nat) : (outputs u (steps.take k)).length ≤ u.limit :=
    Nat.le_trans (length_outputs_mono (List.take_sublist k steps)) total
  have split : steps.take (i + 1) = steps.take i ++ [s] := by
    rw [List.take_add_one, next]
    rfl
  have held := finalState_holds within (noAdvance' i) (total' i)
  have other : ∀ n, s ≠ .advance n := by
    rintro n rfl
    exact noAdvance n (List.mem_of_getElem? next)
  have room := total' (i + 1)
  rw [split] at room ⊢
  obtain ⟨fault, after, done, move, holds⟩ :=
    held.next other (Nat.le_trans (length_outputs_le u _ s) room)
  obtain rfl := move.fault_eq
  refine ⟨_, after, rfl, ?_, ?_, ?_, holds.sound.size_add_room, ?_, move.capacity_le, ?_, ?_⟩
  · rw [finalState_concat, done]
  · rw [getElem?_trace, next, Option.map_some, done]
  · rw [outputs_sinceClear_concat, holds.written]
  · exact holds.width ▸ holds.sound.capacity_le
  · intro e failed
    rw [failed] at move
    obtain ⟨silent, same, refused⟩ := move.of_fault
    rw [held.width] at silent
    exact ⟨silent, same, refused⟩
  · rintro n rfl accepted
    rw [accepted] at move
    exact move.of_reserve

/-- A buffer of one unit grows for a number, refuses a radix, grows for a float
with a sign, refuses too much room, is cleared and goes on. -/
theorem short_run_concatenates_outputs :
    ∃ (steps : List Step) (grown after : GrowingBuffer), 1 ≤ UnitWidth.wide.limit ∧
      (∀ n, Step.advance n ∉ steps) ∧ (outputs .wide steps).length ≤ UnitWidth.wide.limit ∧
      steps[0]? = some (Step.write (Piece.number (Number.wide ⟨0, 17⟩) ⟨10, Flags.none⟩)) ∧
      (trace step (empty .wide 1) steps)[0]? = some (grown, none) ∧
      grown.written = ['1', '7'] ∧ (empty .wide 1).capacity < grown.capacity ∧
      steps[3]? = some (Step.reserve (2 ^ 61)) ∧
      (trace step (empty .wide 1) steps)[3]? = some (after, some Fault.tooMuchToReserve) ∧
      after.written = ['1', '7', '-', '0', '.', '0'] ∧
      finalState step (empty .wide 1) (steps.take 3) = after := by
  let steps : List Step := [.write (.number (.wide ⟨0, 17⟩) ⟨10, Flags.none⟩),
    .write (.number (.wide ⟨1, 0⟩) ⟨37, Flags.none⟩),
    .write (.number (.binary64 0x8000000000000000) ⟨10, Flags.none⟩), .reserve (2 ^ 61),
    .clear, .write (.text ['e'])]
  have within : 1 ≤ UnitWidth.wide.limit := by decide
  have noAdvance : ∀ n, Step.advance n ∉ steps := by
    intro n mem
    simp [steps] at mem
  have total : (outputs .wide steps).length ≤ UnitWidth.wide.limit := by decide +kernel
  have number : steps[0]? = some (.write (.number (.wide ⟨0, 17⟩) ⟨10, Flags.none⟩)) := rfl
  obtain ⟨_, grown, -, -, traced, written, room, -⟩ :=
    run_concatenates_outputs within noAdvance total number
  have text : outputs .wide (sinceClear (steps.take 1)) = ['1', '7'] := by decide +kernel
  rw [text] at written
  have reserved : steps[3]? = some (.reserve (2 ^ 61)) := rfl
  obtain ⟨before, after, ended, -, traced', written', -, -, -, failed, -⟩ :=
    run_concatenates_outputs within noAdvance total reserved
  have fault : (Step.reserve (2 ^ 61)).fault? before = some .tooMuchToReserve := by
    rw [← ended]
    decide +kernel
  refine ⟨steps, grown, after, within, noAdvance, total, number, traced, written, ?_, reserved,
    fault ▸ traced', ?_, ?_⟩
  · rw [← room, size, written]
    exact Nat.lt_of_lt_of_le (by decide) (Nat.le_add_right _ _)
  · rw [written']
    decide +kernel
  · rw [ended, (failed _ fault).2.1]

end GrowingBuffer

end RadixText

import RadixText.Buffer.Fixed
import RadixText.Number.Basic
import RadixText.Proofs.GrowingBuffers

/-!
# Faithful sinks

A faithful sink gets the same text by each of its operations, as long as it has
room for it. A conversion that delivers a text to every faithful sink needs to
be looked at only once, whatever the buffer does with its units. Fixed, growing
and unbounded buffers are faithful.
-/

namespace RadixText

class FaithfulSink (β : Type) [Sink β] where
  /-- The sink still takes some units. -/
  HasRoom : β → Nat → Prop
  /-- The second sink is what the first one becomes by a text. -/
  Gets : β → List Char → β → Prop
  gets_nil (b : β) : Gets b [] b
  gets_append {b b' b'' : β} {s t : List Char} (h : Gets b s b') (h' : Gets b' t b'') :
    Gets b (s ++ t) b''
  hasRoom_of_le {b : β} {n m : Nat} (h : HasRoom b n) (le : m ≤ n) : HasRoom b m
  hasRoom_of_gets {b b' : β} {s : List Char} {n : Nat} (h : HasRoom b (s.length + n))
    (gets : Gets b s b') : HasRoom b' n
  push_gets {b : β} (c : Char) (room : HasRoom b 1) : ∃ b',
    Sink.push b c = .ok b' ∧ Gets b [c] b'
  append_gets {b : β} {s : List Char} (room : HasRoom b s.length) : ∃ b',
    Sink.append b s = .ok b' ∧ Gets b s b'
  place_gets {b : β} {s : List Char} (fits : Sink.fits b s.length = true) : ∃ b',
    Sink.place b s.length s = .ok b' ∧ Gets b s b'

open FaithfulSink

/-- Every faithful sink with room for the text gets it. -/
def Delivers (write : {β : Type} → [Sink β] → β → Except Fault β) (text : List Char) : Prop :=
  ∀ (β : Type) [Sink β] [FaithfulSink β] (b : β), HasRoom b text.length →
    ∃ b', write b = .ok b' ∧ Gets b text b'

namespace Delivers

variable {first second : {β : Type} → [Sink β] → β → Except Fault β} {s t : List Char}

/-- Two writers in a row deliver both texts. -/
theorem bind (h : Delivers first s) (h' : Delivers second t) :
    Delivers (fun b => first b >>= fun b => second b) (s ++ t) := by
  intro β _ _ b room
  rw [List.length_append] at room
  obtain ⟨b', written, gets⟩ := h β b (hasRoom_of_le room (Nat.le_add_right _ _))
  obtain ⟨b'', written', gets'⟩ := h' β b' (hasRoom_of_gets room gets)
  exact ⟨b'', bind_eq_ok_iff.mpr ⟨b', written, written'⟩, gets_append gets gets'⟩

theorem append (s : List Char) : Delivers (fun b => Sink.append b s) s := by
  intro β _ _ b room
  exact append_gets room

theorem push (c : Char) : Delivers (fun b => Sink.push b c) [c] := by
  intro β _ _ b room
  exact push_gets c room

/-- Units that are pushed one by one make up a text. -/
theorem pushAll (s : List Char) : Delivers (fun b => Sink.pushAll b s) s := by
  induction s with
  | nil =>
      intro β _ _ b _
      exact ⟨b, rfl, gets_nil b⟩
  | cons c s ih => exact (push c).bind ih

end Delivers

instance : FaithfulSink GrowingBuffer where
  HasRoom := GrowingBuffer.CanTake
  Gets := GrowingBuffer.Extends
  gets_nil := GrowingBuffer.Extends.refl
  gets_append := GrowingBuffer.Extends.trans
  hasRoom_of_le := GrowingBuffer.CanTake.mono
  hasRoom_of_gets room gets := gets.canTake room
  push_gets {b} c room := by
    obtain ⟨b', appended, extends_⟩ := GrowingBuffer.append_of_canTake (s := [c]) room
    exact ⟨b', (b.push_eq_append c).trans appended, extends_⟩
  append_gets := GrowingBuffer.append_of_canTake
  place_gets fits := GrowingBuffer.place_of_le_room (of_decide_eq_true fits)

instance : FaithfulSink FixedBuffer where
  HasRoom _ _ := True
  Gets b s b' := b' = b.append s
  gets_nil b := by simp [FixedBuffer.append]
  gets_append := by
    rintro b _ _ s t rfl rfl
    exact b.append_append s t
  hasRoom_of_le _ _ := trivial
  hasRoom_of_gets _ _ := trivial
  push_gets {b} c _ := ⟨b.push c, rfl, b.push_eq_append c⟩
  append_gets _ := ⟨_, rfl, rfl⟩
  place_gets {b s} fits := by
    have room : s.length ≤ b.room := of_decide_eq_true fits
    refine ⟨b.append s, ?_, rfl⟩
    change b.place s.length s = _
    rw [FixedBuffer.place, Precondition.require_of_kept _ room, placeIn_of_length_eq rfl,
      FixedBuffer.append, List.take_of_length_le room]
    rfl

instance : FaithfulSink UnboundedBuffer where
  HasRoom _ _ := True
  Gets b s b' := b' = b.append s
  gets_nil b := by simp [UnboundedBuffer.append]
  gets_append := by
    rintro b _ _ s t rfl rfl
    simp [UnboundedBuffer.append]
  hasRoom_of_le _ _ := trivial
  hasRoom_of_gets _ _ := trivial
  push_gets c _ := ⟨_, rfl, rfl⟩
  append_gets _ := ⟨_, rfl, rfl⟩
  place_gets {b s} _ := by
    refine ⟨b.append s, ?_, rfl⟩
    change b.place s.length s = _
    rw [UnboundedBuffer.place, placeIn_of_length_eq rfl]
    rfl

namespace Delivers

variable {v : Number} {o : Options} {text : List Char}

/-- The text of a number is what a new buffer gets. -/
theorem toTextWith {log : Radix → ExtFloat → Int}
    (h : Delivers (fun b => v.writeWith log o b) text) {u : UnitWidth}
    (within : text.length ≤ u.limit) : v.toTextWith log u o = .ok text := by
  obtain ⟨b, written, gets⟩ := h GrowingBuffer (GrowingBuffer.empty u 0)
    ((GrowingBuffer.canTake_empty u 0).mono within)
  refine bind_eq_ok_iff.mpr ⟨b, written, ?_⟩
  exact congrArg Except.ok gets.written

theorem toText (h : Delivers (fun b => v.write o b) text) {u : UnitWidth}
    (within : text.length ≤ u.limit) : v.toText u o = .ok text :=
  toTextWith h within

theorem toMemory (h : Delivers (fun b => v.write o b) text) : v.toMemory o = .ok text := by
  obtain ⟨b, written, rfl⟩ := h UnboundedBuffer UnboundedBuffer.empty trivial
  exact bind_eq_ok_iff.mpr ⟨_, written, rfl⟩

end Delivers

end RadixText

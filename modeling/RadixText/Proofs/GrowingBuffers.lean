import RadixText.Buffer.Growing

/-!
# Growing buffers take every text within their limit

As long as the new size stays within the limit of the unit width, a text is
written behind what was written before, whichever way it takes. The memory
never gets smaller on the way, and it stays within the limit.
-/

namespace RadixText.GrowingBuffer

variable {b b' b'' : GrowingBuffer} {s t : List Char} {n m : Nat}

/-- The buffer may still grow by some units. -/
def CanTake (b : GrowingBuffer) (n : Nat) : Prop := b.size + n ≤ b.width.limit

theorem CanTake.mono (h : b.CanTake n) (le : m ≤ n) : b.CanTake m := by
  unfold CanTake at *
  omega

theorem canTake_empty (u : UnitWidth) (inline : Nat) : (empty u inline).CanTake u.limit :=
  Nat.le_of_eq (Nat.zero_add _)

/-- The text lies within the memory of the buffer, and that within the limit. -/
structure IsSound (b : GrowingBuffer) : Prop where
  size_le : b.size ≤ b.capacity
  capacity_le : b.capacity ≤ b.width.limit

theorem IsSound.size_add_room (h : b.IsSound) : b.size + b.room = b.capacity :=
  Nat.add_sub_cancel' h.size_le

/-- The second buffer is what the first one becomes by a text. -/
structure Extends (b : GrowingBuffer) (s : List Char) (b' : GrowingBuffer) : Prop where
  written : b'.written = b.written ++ s
  width : b'.width = b.width
  capacity_le : b.capacity ≤ b'.capacity
  sound : b.IsSound → b'.IsSound

namespace Extends

theorem refl (b : GrowingBuffer) : b.Extends [] b :=
  ⟨(List.append_nil _).symm, rfl, Nat.le_refl _, id⟩

theorem trans (h : b.Extends s b') (h' : b'.Extends t b'') : b.Extends (s ++ t) b'' := by
  refine ⟨?_, h'.width.trans h.width, Nat.le_trans h.capacity_le h'.capacity_le, h'.sound ∘ h.sound⟩
  rw [h'.written, h.written, List.append_assoc]

theorem size_eq (h : b.Extends s b') : b'.size = b.size + s.length := by
  rw [size, h.written, List.length_append]
  rfl

theorem canTake (h : b.Extends s b') (room : b.CanTake (s.length + n)) : b'.CanTake n := by
  unfold CanTake at *
  rw [h.size_eq, h.width]
  omega

end Extends

/-- Memory can grow by what the limit leaves. -/
theorem grownCapacity_of_canTake (h : b.CanTake n) : ∃ capacity,
    b.grownCapacity n = .ok capacity ∧ b.size + n ≤ capacity ∧ capacity ≤ b.width.limit := by
  unfold CanTake at h
  by_cases wanted : max n (b.size / 2) ≤ b.width.limit - b.size
  · exact ⟨_, by rw [grownCapacity, if_pos wanted], by omega, by omega⟩
  · have room : ¬ b.width.limit - b.size < n := by omega
    exact ⟨_, by rw [grownCapacity, if_neg wanted, if_neg room], by omega, by omega⟩

/-- More than the limit leaves is refused before the memory is moved. -/
theorem grownCapacity_of_limit_lt (h : b.width.limit - b.size < n) :
    b.grownCapacity n = .error .tooMuchToReserve := by
  have wanted : ¬ max n (b.size / 2) ≤ b.width.limit - b.size := by omega
  rw [grownCapacity, if_neg wanted, if_pos h]

theorem grow_of_grownCapacity_error {e : Fault} (h : b.grownCapacity n = .error e) :
    b.grow n = .error e := by
  rw [grow, h]
  rfl

theorem grow_of_canTake (h : b.CanTake n) (used : b.room ≤ n) : ∃ grown,
    b.grow n = .ok grown ∧ b.Extends [] grown ∧ n ≤ grown.room := by
  obtain ⟨capacity, grown, enough, within⟩ := grownCapacity_of_canTake h
  have larger : b.capacity ≤ capacity := by
    unfold room at used
    omega
  have sound : IsSound ⟨b.width, b.written, [], capacity⟩ :=
    ⟨Nat.le_trans (Nat.le_add_right _ _) enough, within⟩
  refine ⟨⟨b.width, b.written, [], capacity⟩, ?_,
    ⟨(List.append_nil _).symm, rfl, larger, fun _ => sound⟩, Nat.le_sub_of_add_le' enough⟩
  rw [grow, grown]
  rfl

theorem extends_fill (room : s.length ≤ b.room) : b.Extends s (b.fill s) := by
  refine ⟨rfl, rfl, Nat.le_refl _, fun sound => ⟨?_, sound.capacity_le⟩⟩
  have total := sound.size_add_room
  simp only [size, fill, List.length_append] at total ⊢
  omega

theorem append_of_canTake (h : b.CanTake s.length) : ∃ b',
    b.append s = .ok b' ∧ b.Extends s b' := by
  by_cases fit : s.length ≤ b.room
  · exact ⟨b.fill s, by rw [append, if_pos fit], extends_fill fit⟩
  · -- The room is filled first, so nothing of it is left when the buffer grows.
    have first : b.Extends (s.take b.room) (b.fill (s.take b.room)) :=
      extends_fill (List.length_take_le _ _)
    have filled : (b.fill (s.take b.room)).room = 0 := by
      have size := first.size_eq
      rw [List.length_take_of_le (Nat.le_of_not_le fit)] at size
      change b.capacity - (b.fill (s.take b.room)).size = 0
      rw [size, room]
      omega
    have rest : (b.fill (s.take b.room)).CanTake (s.length - b.room) := by
      apply first.canTake (h.mono _)
      rw [List.length_take]
      omega
    obtain ⟨grown, moved, kept, enough⟩ := grow_of_canTake rest (filled ▸ Nat.zero_le _)
    have last : grown.Extends (s.drop b.room) (grown.fill (s.drop b.room)) :=
      extends_fill (by rw [List.length_drop]; exact enough)
    refine ⟨grown.fill (s.drop b.room), ?_, ?_⟩
    · rw [append, if_neg fit]
      change ((b.fill (s.take b.room)).grow (s.length - b.room) >>= _) = _
      rw [moved]
      rfl
    · simpa only [List.nil_append, List.take_append_drop] using first.trans (kept.trans last)

/-- A text placed into room of its very length is written. -/
theorem place_of_le_room (room : s.length ≤ b.room) : ∃ b',
    b.place s.length s = .ok b' ∧ b.Extends s b' := by
  refine ⟨b.fill s, ?_, extends_fill room⟩
  rw [place, Precondition.require_of_kept _ room, placeIn_of_length_eq rfl]
  rfl

end RadixText.GrowingBuffer

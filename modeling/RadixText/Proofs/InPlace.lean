import Mathlib.Data.List.Induction
import RadixText.Bignum.InPlace
import RadixText.Proofs.Agreement
import RadixText.Proofs.Bignums

/-!
# Multi-word arithmetic in cells and in lists

The loops over cells do the same as the operations on lists of words. Each loop
is followed through the words that stand in the cells it has not reached yet.
-/

namespace RadixText

namespace Words

/-- Zeros up to the top of the second operand make no difference. -/
theorem addCarry_append_zeros (carry : Bool) (ws : List UInt64) {vs : List UInt64} {n : Nat}
    (h : n ≤ vs.length - ws.length) :
    addCarry carry (ws ++ List.replicate n 0) vs = addCarry carry ws vs := by
  induction vs generalizing carry ws n with
  | nil =>
      rw [List.length_nil, Nat.zero_sub, Nat.le_zero] at h
      rw [h, List.replicate_zero, List.append_nil]
  | cons v vs ih =>
      rw [List.length_cons] at h
      cases ws with
      | cons w ws =>
          rw [List.length_cons] at h
          rw [List.cons_append, addCarry, addCarry]
          exact congrArg _ (ih _ ws (by omega))
      | nil =>
          cases n with
          | zero => rfl
          | succ n =>
              rw [List.nil_append, List.replicate_succ, addCarry, addCarry]
              exact congrArg _ (ih _ [] (by rw [List.length_nil] at h ⊢; omega))

theorem length_divMod (divisor : UInt64) (ws : List UInt64) :
    (divMod divisor ws).1.length = ws.length := by
  induction ws with
  | nil => rfl
  | cons w ws ih =>
      rw [divMod]
      exact congrArg Nat.succ ih

/-- A comparison that goes on only between equal elements. -/
theorem ok_compare_then {α : Type} [LT α] [DecidableLT α] [DecidableEq α] {a b : α}
    (irrefl : ¬ a < a) (o : Ordering) :
    (if a = b then .ok o else .ok (if a < b then .lt else .gt) : Except Fault Ordering) =
      .ok ((compareOfLessAndEq a b).then o) := by
  rw [compareOfLessAndEq]
  by_cases same : a = b
  · rw [if_pos same, if_neg (same ▸ irrefl), if_pos same]
    rfl
  · rw [if_neg same, if_neg same]
    split
    · rfl
    · rfl

/-- The top words decide first. -/
theorem compareFromTop_concat {ws vs : List UInt64} (h : ws.length = vs.length) (w v : UInt64) :
    compareFromTop (ws ++ [w]) (vs ++ [v]) = (compare w v).then (compareFromTop ws vs) := by
  induction ws generalizing vs with
  | nil =>
      obtain rfl := List.eq_nil_of_length_eq_zero h.symm
      cases same : compare w v <;> simp [compareFromTop, same]
  | cons w' ws ih =>
      cases vs with
      | nil => exact absurd h (Nat.succ_ne_zero _)
      | cons v' vs =>
          rw [List.cons_append, List.cons_append, compareFromTop, compareFromTop,
            ih (Nat.succ.inj h), Ordering.then_assoc]

end Words

namespace Bignum

variable {b b' : Bignum} {n : Nat} {ws back : List UInt64}

/-- The words in use are the given ones. -/
structure HasWords (b : Bignum) (ws : List UInt64) : Prop where
  size : b.size = ws.length
  words : b.words = ws

/-- Two numbers have the same words in use, whatever the cells above them hold. -/
def SameWords (b b' : Bignum) : Prop := ∃ ws, b.HasWords ws ∧ b'.HasWords ws

theorem hasWords_words (h : b.size ≤ room) : b.HasWords b.words :=
  ⟨(length_words_of_size_le h).symm, rfl⟩

theorem HasWords.length_le (h : b.HasWords ws) : ws.length ≤ room := by
  have words := congrArg List.length h.words
  rw [Bignum.words, List.length_take, b.length_cells] at words
  rw [← words]
  exact Nat.min_le_right _ _

/-- The cells hold the words in use and then something else. -/
theorem HasWords.exists_cells (h : b.HasWords ws) : ∃ back, b.cells = ws ++ back := by
  refine ⟨b.cells.drop b.size, ?_⟩
  rw [← congrArg (· ++ b.cells.drop b.size) h.words]
  exact (List.take_append_drop b.size b.cells).symm

theorem hasWords_of_cells (h : b.cells = ws ++ back) (size : b.size = ws.length) :
    b.HasWords ws := by
  refine ⟨size, ?_⟩
  rw [words, size, h, List.take_left]

theorem hasWords_resize (h : b.cells = ws ++ back) : (b.resize ws.length).HasWords ws :=
  hasWords_of_cells h rfl

theorem hasWords_of_store (h : b.store ws = .ok b') : b'.HasWords ws :=
  ⟨(size_of_store h).1, words_of_store h⟩

/-- Words that are stored are those that another number has. -/
theorem HasWords.agree_store (h : b'.HasWords ws) (b : Bignum) :
    Agree SameWords (.ok b') (b.store ws) := by
  obtain ⟨stored, made⟩ : ∃ stored, b.store ws = .ok stored :=
    ⟨_, by rw [store, dif_pos h.length_le]⟩
  rw [made]
  exact .ok ⟨ws, h, hasWords_of_store made⟩

namespace InPlace

/-! ## Cells -/

/-- Some words from a position on are replaced, and everything else stays. -/
structure Replaces (b : Bignum) (n : Nat) (ws : List UInt64) (b' : Bignum) : Prop where
  cells : b'.cells = b.cells.take n ++ ws ++ b.cells.drop (n + ws.length)
  size : b'.size = b.size

theorem lt_room_of_drop {w : UInt64} (h : b.cells.drop n = w :: back) : n < room := by
  by_contra beyond
  rw [List.drop_eq_nil_of_le (by rw [b.length_cells]; exact Nat.le_of_not_lt beyond)] at h
  cases h

theorem drop_succ_of_drop {w : UInt64} (h : b.cells.drop n = w :: back) :
    b.cells.drop (n + 1) = back := by
  rw [← List.drop_drop, h]
  rfl

theorem read_of_drop {w : UInt64} (h : b.cells.drop n = w :: back) : read b n = .ok w := by
  have found : b.cells[n]? = some w := by
    rw [← List.head?_drop, h]
    rfl
  rw [read, found]

theorem write_eq (h : n < room) (w : UInt64) : write b n w = .ok (b.put n w) := if_pos h

/-- A word that is there is read and replaced. -/
theorem read_write {α : Type} {w : UInt64} (h : b.cells.drop n = w :: back)
    (change : UInt64 → UInt64) (next : UInt64 → Bignum → Except Fault α) :
    (do
      let w ← read b n
      let b ← write b n (change w)
      next w b) = next w (b.put n (change w)) := by
  rw [read_of_drop h]
  change (write b n (change w) >>= _) = _
  rw [write_eq (lt_room_of_drop h)]
  rfl

theorem drop_put {m : Nat} (h : n < m) (w : UInt64) :
    (b.put n w).cells.drop m = b.cells.drop m := List.drop_set_of_lt h

theorem replaces_nil (b : Bignum) (n : Nat) : Replaces b n [] b :=
  ⟨by simp, rfl⟩

/-- Words that stay are replaced by themselves. -/
theorem replaces_self (h : b.cells.drop n = ws ++ back) : Replaces b n ws b := by
  refine ⟨?_, rfl⟩
  rw [← List.drop_drop, h, List.drop_left, List.append_assoc, ← h, List.take_append_drop]

theorem Replaces.cons {w : UInt64} (fits : n < room) (h : Replaces (b.put n w) (n + 1) ws b') :
    Replaces b n (w :: ws) b' := by
  have inside : n < b.cells.length := by rw [b.length_cells]; exact fits
  have front : (b.put n w).cells.take (n + 1) = b.cells.take n ++ [w] := by
    rw [put, List.take_succ_eq_append_getElem (by rwa [List.length_set]), List.getElem_set_self,
      List.take_set_of_le (Nat.le_refl n)]
  refine ⟨?_, h.size⟩
  rw [h.cells, front, drop_put (by omega), List.length_cons, List.append_assoc, List.append_assoc,
    List.append_assoc, List.singleton_append, List.cons_append, Nat.add_assoc, Nat.add_comm 1]

theorem length_take_append (b : Bignum) (fits : n + ws.length ≤ room) :
    (b.cells.take n ++ ws).length = n + ws.length := by
  have inside : n ≤ b.cells.length := by
    rw [b.length_cells]
    exact Nat.le_trans (Nat.le_add_right n _) fits
  rw [List.length_append, List.length_take_of_le inside]

theorem Replaces.drop (h : Replaces b n ws b') (fits : n + ws.length ≤ room) :
    b'.cells.drop (n + ws.length) = b.cells.drop (n + ws.length) := by
  rw [h.cells, ← length_take_append b fits, List.drop_left]

theorem Replaces.take (h : Replaces b n ws b') (fits : n + ws.length ≤ room) :
    b'.cells.take (n + ws.length) = b.cells.take n ++ ws := by
  rw [h.cells, ← length_take_append b fits, List.take_left]

/-- Behind replaced low words the others follow. -/
theorem Replaces.drop_front {out front rest : List UInt64} (h : Replaces b 0 out b')
    (cells : b.cells = front ++ rest) (length : out.length = front.length) :
    b'.cells.drop (0 + out.length) = rest := by
  have inside : 0 + out.length ≤ room := by
    have total := congrArg List.length cells
    rw [b.length_cells, List.length_append] at total
    unfold room
    omega
  rw [h.drop inside, cells, Nat.zero_add, length, List.drop_left]

/-- Words that are replaced one after the other are replaced together. -/
theorem Replaces.append {b₁ b₂ : Bignum} {vs : List UInt64} (h : Replaces b n ws b₁)
    (h' : Replaces b₁ (n + ws.length) vs b₂) (fits : n + ws.length ≤ room) :
    Replaces b n (ws ++ vs) b₂ := by
  refine ⟨?_, h'.size.trans h.size⟩
  rw [h'.cells, h.take fits, ← List.drop_drop, h.drop fits, List.drop_drop, List.length_append,
    Nat.add_assoc, List.append_assoc (b.cells.take n)]

theorem Replaces.hasWords_resize (h : Replaces b 0 ws b') :
    (b'.resize ws.length).HasWords ws := by
  have cells := h.cells
  rw [List.take_zero, List.nil_append] at cells
  exact Bignum.hasWords_resize cells

theorem Replaces.hasWords (h : Replaces b 0 ws b') (size : b.size = ws.length) :
    b'.HasWords ws := by
  have cells := h.cells
  rw [List.take_zero, List.nil_append] at cells
  exact hasWords_of_cells cells (h.size.trans size)

/-- Behind a word that is replaced the same words follow. -/
theorem drop_put_of_drop {w : UInt64} (h : b.cells.drop n = w :: ws ++ back) (x : UInt64) :
    (b.put n x).cells.drop (n + 1) = ws ++ back := by
  rw [drop_put (Nat.lt_succ_self n)]
  exact drop_succ_of_drop h

/-- Neither operand changes above a word that is replaced. -/
theorem drop_operand_put (other : Option Bignum) (w : UInt64) :
    (operand (b.put n w) other).cells.drop (n + 1) = (operand b other).cells.drop (n + 1) := by
  cases other with
  | none => exact drop_put (Nat.lt_succ_self n) w
  | some c => rfl

/-! ## Loops -/

theorem clear_replaces (b : Bignum) {n left : Nat} (fits : n + left ≤ room) :
    ∃ b', clear b n left = .ok b' ∧ Replaces b n (List.replicate left 0) b' := by
  induction left generalizing b n with
  | zero => exact ⟨b, rfl, replaces_nil b n⟩
  | succ left ih =>
      obtain ⟨b', cleared, replaced⟩ := ih (b.put n 0) (n := n + 1) (by omega)
      refine ⟨b', ?_, replaced.cons (by omega)⟩
      rw [clear, write_eq (by omega)]
      exact cleared

theorem trimFrom_hasWords (h : b.cells = ws ++ back) :
    ∃ b', trimFrom b ws.length = .ok b' ∧ b'.HasWords (Words.trim ws) := by
  induction ws using List.reverseRecOn generalizing back with
  | nil => exact ⟨b.resize 0, rfl, hasWords_resize h⟩
  | append_singleton ws w ih =>
      rw [List.append_assoc, List.singleton_append] at h
      have top : b.cells.drop ws.length = w :: back := by rw [h, List.drop_left]
      rw [List.length_append, List.length_singleton, trimFrom, read_of_drop top, Words.trim,
        dropTrailing_concat]
      change ∃ b', (if w = 0 then trimFrom b ws.length else .ok _) = _ ∧ _
      by_cases zero : w = 0
      · rw [if_pos zero, if_pos (by simpa using zero)]
        exact ih h
      · rw [if_neg zero, if_neg (by simpa using zero)]
        refine ⟨_, rfl, ?_⟩
        rw [← List.singleton_append, ← List.append_assoc] at h
        have resized := hasWords_resize h
        rwa [List.length_append, List.length_singleton] at resized

/-- A number is trimmed in place as its words are. -/
theorem trim_agree (h : b'.HasWords ws) (b : Bignum) :
    Agree SameWords (trim b') (b.store (Words.trim ws)) := by
  obtain ⟨back, cells⟩ := h.exists_cells
  obtain ⟨trimmed, made, words⟩ := trimFrom_hasWords cells
  rw [trim, h.size, made]
  exact words.agree_store b

theorem pushWord_agree (h : b'.HasWords ws) (w : UInt64) (b : Bignum) :
    Agree SameWords (pushWord b' w) (b.store (ws ++ [w])) := by
  obtain ⟨back, cells⟩ := h.exists_cells
  rw [pushWord, h.size]
  by_cases fits : ws.length < room
  · have replaced : Replaces b' ws.length [w] (b'.put ws.length w) := (replaces_nil _ _).cons fits
    have pushed : ((b'.put ws.length w).resize (ws.length + 1)).HasWords (ws ++ [w]) := by
      have cells' := replaced.cells
      rw [cells, List.take_left] at cells'
      refine hasWords_of_cells cells' ?_
      rw [List.length_append]
      rfl
    rw [Precondition.require_of_kept _ fits, write_eq fits]
    change Agree SameWords (.ok ((b'.put ws.length w).resize (b'.size + 1))) _
    rw [h.size]
    exact pushed.agree_store b
  · have beyond : ¬ (ws ++ [w]).length ≤ room := by
      rw [List.length_append, List.length_singleton]
      omega
    rw [Precondition.require_of_broken _ fits, store, dif_neg beyond]
    exact .error _

theorem mulWords_replaces (factor higher : UInt64) (h : b.cells.drop n = ws ++ back) :
    ∃ b' out higher', mulWords factor b n higher ws.length = .ok (b', higher') ∧
      Replaces b n out b' ∧ out.length = ws.length ∧
      Words.mulAdd factor higher ws = out ++ (if higher' = 0 then [] else [higher']) := by
  induction ws generalizing b n higher with
  | nil => exact ⟨b, [], higher, rfl, replaces_nil b n, rfl, rfl⟩
  | cons w ws ih =>
      have fits := lt_room_of_drop h
      obtain ⟨b', out, higher', walked, replaced, length, value⟩ :=
        ih (if (Word.mul w factor).lo + higher < (Word.mul w factor).lo
            then (Word.mul w factor).hi + 1 else (Word.mul w factor).hi)
          (drop_put_of_drop h ((Word.mul w factor).lo + higher))
      refine ⟨b', _ :: out, higher', ?_, replaced.cons fits, congrArg Nat.succ length, ?_⟩
      · rw [List.length_cons, mulWords]
        exact (read_write h _ _).trans walked
      · rw [Words.mulAdd, value]
        rfl

theorem carryUp_false (b : Bignum) (n left : Nat) : carryUp b n false left = .ok (b, false) := by
  cases left <;> rfl

/-- A carry goes up to the first word that does not wrap. -/
theorem carryUp_replaces (carry : Bool) (h : b.cells.drop n = ws ++ back) :
    ∃ b' out carry', carryUp b n carry ws.length = .ok (b', carry') ∧ Replaces b n out b' ∧
      out.length = ws.length ∧
      (if carry then Words.increment ws else ws) = out ++ (if carry' then [1] else []) := by
  cases carry with
  | false =>
      exact ⟨b, ws, false, carryUp_false _ _ _, replaces_self h, rfl, (List.append_nil ws).symm⟩
  | true =>
      induction ws generalizing b n with
      | nil => exact ⟨b, [], true, rfl, replaces_nil b n, rfl, rfl⟩
      | cons w ws ih =>
          have fits := lt_room_of_drop h
          have behind := drop_put_of_drop h (w + 1)
          have walked : carryUp b n true (w :: ws).length =
              carryUp (b.put n (w + 1)) (n + 1) (w + 1 = 0) ws.length := by
            rw [List.length_cons, carryUp]
            exact read_write h _ _
          rw [walked]
          by_cases wraps : w + 1 = 0
          · obtain ⟨b', out, carry', done, replaced, length, value⟩ := ih behind
            rw [decide_eq_true wraps]
            refine ⟨b', _ :: out, carry', done, replaced.cons fits, congrArg Nat.succ length, ?_⟩
            rw [if_pos rfl] at value ⊢
            rw [Words.increment, if_pos wraps, value, wraps]
            rfl
          · rw [decide_eq_false wraps]
            refine ⟨_, (w + 1) :: ws, false, carryUp_false _ _ _, ?_, rfl, ?_⟩
            · exact (replaces_self behind).cons fits
            · rw [if_pos rfl, Words.increment, if_neg wraps]
              exact (List.append_nil _).symm

theorem borrowUp_false (b : Bignum) (n left : Nat) : borrowUp b n false left = .ok (b, false) := by
  cases left <;> rfl

/-- A borrow goes up to the first word that is not zero. -/
theorem borrowUp_replaces (borrow : Bool) (h : b.cells.drop n = ws ++ back) :
    ∃ b' out borrow', borrowUp b n borrow ws.length = .ok (b', borrow') ∧ Replaces b n out b' ∧
      out.length = ws.length ∧
      (if borrow then Words.decrement ws else (ws, false)) = (out, borrow') := by
  cases borrow with
  | false => exact ⟨b, ws, false, borrowUp_false _ _ _, replaces_self h, rfl, rfl⟩
  | true =>
      induction ws generalizing b n with
      | nil => exact ⟨b, [], true, rfl, replaces_nil b n, rfl, rfl⟩
      | cons w ws ih =>
          have fits := lt_room_of_drop h
          have behind := drop_put_of_drop h (w - 1)
          have walked : borrowUp b n true (w :: ws).length =
              borrowUp (b.put n (w - 1)) (n + 1) (w = 0) ws.length := by
            rw [List.length_cons, borrowUp]
            exact read_write h _ _
          rw [walked]
          by_cases zero : w = 0
          · obtain ⟨b', out, borrow', done, replaced, length, value⟩ := ih behind
            rw [decide_eq_true zero]
            refine ⟨b', _ :: out, borrow', done, replaced.cons fits, congrArg Nat.succ length, ?_⟩
            rw [if_pos rfl] at value ⊢
            rw [Words.decrement, if_pos zero, value]
          · rw [decide_eq_false zero]
            refine ⟨_, (w - 1) :: ws, false, borrowUp_false _ _ _, ?_, rfl, ?_⟩
            · exact (replaces_self behind).cons fits
            · rw [if_pos rfl, Words.decrement, if_neg zero]

theorem addWords_replaces {other : Option Bignum} (carry : Bool) {vs back' : List UInt64}
    (h : b.cells.drop n = ws ++ back) (h' : (operand b other).cells.drop n = vs ++ back')
    (same : ws.length = vs.length) :
    ∃ b' out carry', addWords other b n carry vs.length = .ok (b', carry') ∧
      Replaces b n out b' ∧ out.length = ws.length ∧ ∀ rest, Words.addCarry carry (ws ++ rest) vs =
        out ++ (if carry' then Words.increment rest else rest) := by
  induction ws generalizing b n carry vs with
  | nil =>
      obtain rfl := List.eq_nil_of_length_eq_zero same.symm
      exact ⟨b, [], carry, rfl, replaces_nil b n, rfl, fun rest => rfl⟩
  | cons w ws ih =>
      obtain ⟨v, vs, rfl⟩ := List.exists_cons_of_length_eq_add_one same.symm
      have fits := lt_room_of_drop h
      obtain ⟨b', out, carry', walked, replaced, length, value⟩ :=
        ih (if carry then decide ((if carry then w + v + 1 else w + v) ≤ w)
            else decide ((if carry then w + v + 1 else w + v) < w))
          (drop_put_of_drop h (if carry then w + v + 1 else w + v))
          ((drop_operand_put other _).trans (drop_succ_of_drop h'))
          (Nat.succ.inj same)
      refine ⟨b', _ :: out, carry', ?_, replaced.cons fits, congrArg Nat.succ length, ?_⟩
      · rw [List.length_cons, addWords, read_of_drop h, read_of_drop h']
        change (write b n _ >>= _) = _
        rw [write_eq fits]
        exact walked
      · intro rest
        rw [List.cons_append, Words.addCarry, List.headD_cons, List.tail_cons, value]
        rfl

/-- The second look at the operand's word finds the difference where both operands
are one number, which leaves no borrow there either. -/
theorem read_operand_again {other : Option Bignum} {borrow : Bool} {w v : UInt64}
    {back' : List UInt64} (h : b.cells.drop n = w :: back)
    (h' : (operand b other).cells.drop n = v :: back') (own : other = none → borrow = false) :
    ∃ v', read (operand (b.put n (if borrow then w - v - 1 else w - v)) other) n = .ok v' ∧
      (if borrow then decide (w ≤ v') else decide (w < v')) =
        (if borrow then decide (w ≤ v) else decide (w < v)) ∧
      (other = none → (if borrow then decide (w ≤ v) else decide (w < v)) = false) := by
  cases other with
  | some c => exact ⟨v, read_of_drop h', rfl, fun same => nomatch same⟩
  | none =>
      obtain ⟨rfl, -⟩ := List.cons.inj (h.symm.trans h')
      rw [own rfl]
      have fits := lt_room_of_drop h
      have found : read (b.put n (w - w)) n = .ok (w - w) := by
        rw [read, put, List.getElem?_set_self (by rwa [b.length_cells])]
      refine ⟨w - w, found, ?_, fun _ => ?_⟩
      · simp
      · simp

theorem subWords_replaces {other : Option Bignum} {borrow : Bool} {vs back' : List UInt64}
    (h : b.cells.drop n = ws ++ back) (h' : (operand b other).cells.drop n = vs ++ back')
    (same : ws.length = vs.length) (own : other = none → borrow = false) :
    ∃ b' out borrow', subWords other b n borrow vs.length = .ok (b', borrow') ∧
      Replaces b n out b' ∧ out.length = ws.length ∧
      ∀ rest, Words.subBorrow borrow (ws ++ rest) vs =
        ((if borrow' then Words.decrement rest else (rest, false)).map (out ++ ·) id) := by
  induction ws generalizing b n borrow vs with
  | nil =>
      obtain rfl := List.eq_nil_of_length_eq_zero same.symm
      exact ⟨b, [], borrow, rfl, replaces_nil b n, rfl, fun rest => rfl⟩
  | cons w ws ih =>
      obtain ⟨v, vs, rfl⟩ := List.exists_cons_of_length_eq_add_one same.symm
      have fits := lt_room_of_drop h
      obtain ⟨v', again, sameBorrow, own'⟩ := read_operand_again h h' own
      obtain ⟨b', out, borrow', walked, replaced, length, value⟩ :=
        ih (drop_put_of_drop h (if borrow then w - v - 1 else w - v))
          ((drop_operand_put other _).trans (drop_succ_of_drop h'))
          (Nat.succ.inj same) own'
      refine ⟨b', _ :: out, borrow', ?_, replaced.cons fits, congrArg Nat.succ length, ?_⟩
      · rw [List.length_cons, subWords, read_of_drop h, read_of_drop h']
        change (write b n _ >>= _) = _
        rw [write_eq fits]
        change (read (operand (b.put n _) other) n >>= _) = _
        rw [again]
        change subWords other _ _ (if borrow then decide (w ≤ v') else decide (w < v')) _ = _
        rw [sameBorrow]
        exact walked
      · intro rest
        rw [List.cons_append, Words.subBorrow, List.headD_cons, List.tail_cons, value]
        rfl

theorem compareWords_eq {other : Bignum} {vs back' : List UInt64} (h : b.cells = ws ++ back)
    (h' : other.cells = vs ++ back') (same : ws.length = vs.length) :
    compareWords b other ws.length = .ok (Words.compareFromTop ws vs) := by
  induction ws using List.reverseRecOn generalizing vs back back' with
  | nil =>
      obtain rfl := List.eq_nil_of_length_eq_zero same.symm
      rfl
  | append_singleton ws w ih =>
      obtain ⟨vs, v, rfl⟩ : ∃ low v', vs = low ++ [v'] := by
        rcases List.eq_nil_or_concat vs with rfl | ⟨low, v', split⟩
        · simp at same
        · exact ⟨low, v', by simp [split]⟩
      have same' : ws.length = vs.length := by simpa using same
      rw [List.append_assoc, List.singleton_append] at h h'
      have top : b.cells.drop ws.length = w :: back := by rw [h, List.drop_left]
      have top' : other.cells.drop ws.length = v :: back' := by rw [h', same', List.drop_left]
      rw [List.length_append, List.length_singleton, compareWords, read_of_drop top,
        read_of_drop top', Words.compareFromTop_concat same']
      change (if w = v then compareWords b other ws.length else .ok _) = _
      rw [ih h h' same']
      exact Words.ok_compare_then (UInt64.lt_irrefl w) _

theorem anyNonzero_eq (h : b.cells.drop n = ws ++ back) :
    anyNonzero b n ws.length = .ok (!ws.all (· == 0)) := by
  induction ws generalizing n with
  | nil => rfl
  | cons w ws ih =>
      rw [List.length_cons, anyNonzero, read_of_drop h]
      change (if w = 0 then anyNonzero b (n + 1) ws.length else .ok true) = _
      by_cases zero : w = 0
      · rw [if_pos zero, ih (drop_succ_of_drop h)]
        simp [zero]
      · simp [zero]

/-- Words are divided in cells behind the quotients of the words above them. -/
theorem divWords_replaces (divisor : UInt64) {low high back : List UInt64}
    (h : b.cells = low ++ (Words.divMod divisor high).1 ++ back) :
    ∃ b', divWords divisor b (Words.divMod divisor high).2 low.length =
        .ok (b', (Words.divMod divisor (low ++ high)).2) ∧
      b'.cells = (Words.divMod divisor (low ++ high)).1 ++ back ∧ b'.size = b.size := by
  induction low using List.reverseRecOn generalizing b high with
  | nil => exact ⟨b, rfl, h, rfl⟩
  | append_singleton low w ih =>
      have top : b.cells.drop low.length = w :: ((Words.divMod divisor high).1 ++ back) := by
        rw [h, List.append_assoc, List.append_assoc, List.drop_left]
        rfl
      have fits := lt_room_of_drop top
      obtain ⟨quotient, rest, divided, walked⟩ : ∃ quotient rest,
          Words.divMod divisor (w :: high) = (quotient :: (Words.divMod divisor high).1, rest) ∧
          divWords divisor b (Words.divMod divisor high).2 (low.length + 1) =
            divWords divisor (b.put low.length quotient) rest low.length := by
        refine ⟨_, _, rfl, ?_⟩
        rw [divWords]
        exact read_write top _ _
      have cells : (b.put low.length quotient).cells =
          low ++ (Words.divMod divisor (w :: high)).1 ++ back := by
        rw [((replaces_nil _ _).cons fits).cells, List.length_singleton, drop_succ_of_drop top,
          divided, h]
        simp
      obtain ⟨b', done, cells', size⟩ := ih cells
      rw [divided] at done
      rw [List.length_append, List.length_singleton, walked, List.append_assoc,
        List.singleton_append]
      exact ⟨b', done, cells', size⟩

/-! ## Operations -/

theorem setShifted_agree (b : Bignum) (w : UInt64) (bits : Nat) :
    Agree SameWords (setShifted b w bits) (b.setShifted w bits) := by
  rw [setShifted, Bignum.setShifted]
  apply Agree.bind_same
  intro _ kept
  have fits := (Precondition.require_eq_ok_iff _).mp kept
  obtain ⟨b', cleared, zeros⟩ := clear_replaces b (show 0 + bits / 64 ≤ room by omega)
  generalize high : (if UInt64.ofNat (bits % 64) = 0 then 0
    else w >>> (64 - UInt64.ofNat (bits % 64))) = top
  have shifted : Words.shifted w bits =
      List.replicate (bits / 64) 0 ++ [w <<< UInt64.ofNat (bits % 64), top] := by
    rw [← high]
    rfl
  have pair : Replaces b' (0 + (List.replicate (bits / 64) (0 : UInt64)).length)
      [w <<< UInt64.ofNat (bits % 64), top]
      ((b'.put (bits / 64) (w <<< UInt64.ofNat (bits % 64))).put (bits / 64 + 1) top) := by
    rw [List.length_replicate, Nat.zero_add]
    exact ((replaces_nil _ _).cons (by omega)).cons (by omega)
  have words := (zeros.append pair (by rw [List.length_replicate]; omega)).hasWords_resize
  rw [← shifted, Words.length_shifted] at words
  rw [cleared]
  change Agree _ (write b' (bits / 64) _ >>= _) _
  rw [write_eq (by omega)]
  change Agree _ (write (b'.put _ _) (bits / 64 + 1) _ >>= _) _
  rw [write_eq (by omega)]
  exact trim_agree words b

theorem mul_agree (h : b.size ≤ room) (factor : UInt32) :
    Agree SameWords (mul b factor) (b.mul factor) := by
  obtain ⟨back, cells⟩ := (hasWords_words h).exists_cells
  obtain ⟨b', out, higher, walked, replaced, length, value⟩ :=
    mulWords_replaces (n := 0) factor.toUInt64 0 cells
  rw [length_words_of_size_le h] at walked length
  have words := replaced.hasWords length.symm
  rw [mul, walked, Bignum.mul, value]
  change Agree _ ((if higher = 0 then .ok b' else pushWord b' higher) >>= _) _
  apply Agree.bind (R := SameWords)
  · by_cases zero : higher = 0
    · rw [if_pos zero, if_pos zero, List.append_nil]
      exact words.agree_store b
    · rw [if_neg zero, if_neg zero]
      exact pushWord_agree words higher b
  · rintro product product' ⟨ws, has, has'⟩
    rw [has'.words]
    exact trim_agree has product'

/-- A number is extended with zeros, which do not reach an operand that is the
number itself. -/
theorem extend_hasWords {other : Option Bignum} (h : b.size ≤ room)
    (h' : (operand b other).size ≤ room) :
    ∃ b', extend b (operand b other).size = .ok b' ∧
      b'.HasWords (b.words ++ List.replicate ((operand b other).size - b.size) 0) ∧
      operand b' other = operand b other := by
  obtain ⟨back, cells⟩ := (hasWords_words h).exists_cells
  rw [extend]
  by_cases shorter : b.size < (operand b other).size
  · have length := length_words_of_size_le h
    obtain ⟨b', cleared, zeros⟩ := clear_replaces b
      (show b.size + ((operand b other).size - b.size) ≤ room by omega)
    rw [← length, ← Nat.zero_add b.words.length] at zeros
    have words := ((replaces_self (n := 0) cells).append zeros (by omega)).hasWords_resize
    rw [List.length_append, List.length_replicate, length, Nat.zero_add,
      Nat.add_sub_cancel' (Nat.le_of_lt shorter)] at words
    rw [if_pos shorter, cleared]
    refine ⟨_, rfl, words, ?_⟩
    cases other with
    | none => exact absurd shorter (Nat.lt_irrefl _)
    | some c => rfl
  · rw [if_neg shorter, Nat.sub_eq_zero_of_le (Nat.le_of_not_lt shorter), List.replicate_zero,
      List.append_nil]
    exact ⟨b, rfl, hasWords_words h, rfl⟩

/-- The words of a number below and above the size of another. -/
theorem exists_words_split (h : b.HasWords ws) {size : Nat} (le : size ≤ ws.length) :
    ∃ low high back, ws = low ++ high ∧ low.length = size ∧ high.length = b.size - size ∧
      b.cells = low ++ (high ++ back) := by
  obtain ⟨back, cells⟩ := h.exists_cells
  refine ⟨ws.take size, ws.drop size, back, (List.take_append_drop size ws).symm, ?_, ?_, ?_⟩
  · exact List.length_take_of_le le
  · rw [List.length_drop, h.size]
  · rw [← List.append_assoc, List.take_append_drop, cells]

theorem add_agree {other : Option Bignum} (h : b.size ≤ room)
    (h' : (operand b other).size ≤ room) :
    Agree SameWords (add b other) (b.add (operand b other)) := by
  have length := length_words_of_size_le h
  have length' := length_words_of_size_le h'
  obtain ⟨b₁, extended, full, kept⟩ := extend_hasWords h h'
  obtain ⟨low, high, back, split, lowLength, highLength, cells⟩ :=
    exists_words_split full (show (operand b other).size ≤ _ by
      rw [List.length_append, List.length_replicate]; omega)
  obtain ⟨back', cells'⟩ := (hasWords_words h').exists_cells
  obtain ⟨b₂, out, carry, added, replaced, outLength, sum⟩ := addWords_replaces (n := 0)
    false cells ((congrArg Bignum.cells kept).trans cells') (lowLength.trans length'.symm)
  have fits : 0 + out.length ≤ room := by omega
  obtain ⟨b₃, out', carry', carried, replaced', outLength', raised⟩ :=
    carryUp_replaces carry (replaced.drop_front cells outLength)
  have words := (replaced.append replaced' fits).hasWords
    (by rw [full.size, split, List.length_append, List.length_append, outLength, outLength'])
  have value : Words.addCarry false b.words (operand b other).words =
      (out ++ out') ++ (if carry' then [1] else []) := by
    rw [← Words.addCarry_append_zeros false b.words
      (show (operand b other).size - b.size ≤ _ by omega), split, sum, raised, List.append_assoc]
  rw [Nat.zero_add, outLength, lowLength, highLength] at carried
  rw [length'] at added
  rw [add, extended, Bignum.add, value]
  change Agree _ (addWords other b₁ 0 false (operand b other).size >>= _) _
  rw [added]
  change Agree _ (carryUp b₂ _ carry (b₂.size - _) >>= _) _
  rw [replaced.size, carried]
  change Agree _ (if carry' then pushWord b₃ 1 else .ok b₃) _
  cases carry' with
  | true => exact pushWord_agree words 1 b
  | false =>
      rw [if_neg Bool.false_ne_true, if_neg Bool.false_ne_true, List.append_nil]
      exact words.agree_store b

theorem sub_agree {other : Option Bignum} (h : b.size ≤ room)
    (le : (operand b other).size ≤ b.size) :
    Agree SameWords (sub b other) (b.sub (operand b other)) := by
  have length := length_words_of_size_le h
  have length' := length_words_of_size_le (Nat.le_trans le h)
  obtain ⟨low, high, back, split, lowLength, highLength, cells⟩ :=
    exists_words_split (hasWords_words h) (length ▸ le)
  obtain ⟨back', cells'⟩ := (hasWords_words (Nat.le_trans le h)).exists_cells
  obtain ⟨b₁, out, borrow, taken, replaced, outLength, difference⟩ := subWords_replaces (n := 0)
    cells cells' (lowLength.trans length'.symm) fun _ => rfl
  have fits : 0 + out.length ≤ room := by omega
  obtain ⟨b₂, out', borrow', borrowed, replaced', outLength', lowered⟩ :=
    borrowUp_replaces borrow (replaced.drop_front cells outLength)
  have words := (replaced.append replaced' fits).hasWords
    (by rw [← length, split, List.length_append, List.length_append, outLength, outLength'])
  have value : Words.subBorrow false b.words (operand b other).words = (out ++ out', borrow') := by
    rw [split, difference, lowered]
    rfl
  rw [Nat.zero_add, outLength, lowLength, highLength] at borrowed
  rw [length'] at taken
  rw [sub, taken, Bignum.sub, value]
  change Agree _ (borrowUp b₁ _ borrow (b₁.size - _) >>= _) _
  rw [replaced.size, borrowed]
  change Agree _ (Precondition.noBorrow.require (borrow' = false) >>= _)
    (Precondition.noBorrow.require (borrow' = false) >>= _)
  apply Agree.bind_same
  intro _ _
  exact trim_agree words b

theorem divMod_agree (h : b.size ≤ room) (divisor : UInt32) :
    Agree (fun x y => SameWords x.1 y.1 ∧ x.2 = y.2) (divMod b divisor) (b.divMod divisor) := by
  obtain ⟨back, cells⟩ := (hasWords_words h).exists_cells
  obtain ⟨b', divided, cells', size⟩ := divWords_replaces divisor.toUInt64
    (show b.cells = b.words ++ (Words.divMod divisor.toUInt64 []).1 ++ back by
      rw [cells, Words.divMod, List.append_nil])
  rw [List.append_nil] at divided cells'
  rw [length_words_of_size_le h] at divided
  have words := hasWords_of_cells cells' (by
    rw [size, Words.length_divMod, length_words_of_size_le h])
  rw [divMod, Bignum.divMod]
  change Agree _ (divWords divisor.toUInt64 b (Words.divMod divisor.toUInt64 []).2 b.size >>= _)
    (b.store (Words.trim (Words.divMod divisor.toUInt64 b.words).1) >>= _)
  rw [divided]
  apply (trim_agree words b).bind
  intro quotient quotient' same
  exact .ok ⟨same, rfl⟩

/-- The word of a cut and the one above it, if there is one, give the bits above
the cut. -/
theorem bitsAbove_eq {w : UInt64} (h : b.cells.drop n = w :: ws ++ back)
    (size : b.size = n + 1 + ws.length) (part : UInt64) :
    (if part ≠ 0 ∧ n + 1 < b.size then
        (read b (n + 1)).map fun v => (w >>> part) ||| (v <<< (64 - part))
      else .ok (w >>> part)) =
      .ok ((w >>> part) ||| if part = 0 then 0 else ws.headD 0 <<< (64 - part)) := by
  by_cases aligned : part = 0
  · rw [if_neg (fun both => both.1 aligned), if_pos aligned, UInt64.or_zero]
  · rw [if_neg aligned]
    cases ws with
    | nil =>
        rw [if_neg (by rw [size, List.length_nil]; omega), List.headD_nil, UInt64.zero_shiftLeft,
          UInt64.or_zero]
    | cons v ws =>
        rw [if_pos ⟨aligned, by rw [size, List.length_cons]; omega⟩,
          read_of_drop (drop_succ_of_drop h)]
        rfl

theorem split_agree (h : b.size ≤ room) (bits : Nat) :
    Agree (fun x y => x.1 = y.1 ∧ SameWords x.2 y.2) (split b bits) (b.split bits) := by
  have length := length_words_of_size_le h
  rw [split, Bignum.split, length]
  by_cases short : b.size ≤ bits / 64
  · rw [if_pos short, if_pos short]
    exact .ok ⟨rfl, b.words, hasWords_words h, hasWords_words h⟩
  · obtain ⟨low, high, back, parts, lowLength, highLength, cells⟩ :=
      exists_words_split (hasWords_words h) (show bits / 64 ≤ _ by omega)
    obtain ⟨w, rest, rfl⟩ := List.exists_cons_of_length_pos (show 0 < high.length by omega)
    rw [List.length_cons] at highLength
    have top : b.cells.drop (bits / 64) = w :: rest ++ back := by
      rw [cells, ← lowLength, List.drop_left]
    have cut : Words.split bits b.words =
        ((w >>> UInt64.ofNat (bits % 64)) ||| (if UInt64.ofNat (bits % 64) = 0 then 0
          else rest.headD 0 <<< (64 - UInt64.ofNat (bits % 64))),
        low ++ [w &&& ((1 <<< UInt64.ofNat (bits % 64)) - 1)]) := by
      rw [Words.split, parts, ← lowLength, List.drop_left, List.take_left]
    have above := bitsAbove_eq top (by omega) (UInt64.ofNat (bits % 64))
    have fits := lt_room_of_drop top
    have masked : Replaces b (0 + low.length) [w &&& ((1 <<< UInt64.ofNat (bits % 64)) - 1)]
        (b.put (bits / 64) (w &&& ((1 <<< UInt64.ofNat (bits % 64)) - 1))) := by
      rw [Nat.zero_add, lowLength]
      exact (replaces_nil _ _).cons fits
    have words := ((replaces_self (n := 0) cells).append masked (by omega)).hasWords_resize
    rw [List.length_append, lowLength, List.length_singleton] at words
    rw [if_neg short, if_neg short, cut]
    apply Agree.bind_same
    intro _ _
    rw [read_of_drop top]
    change Agree _ ((if UInt64.ofNat (bits % 64) ≠ 0 ∧ bits / 64 + 1 < b.size then _ else _) >>= _)
      (b.store (Words.trim _) >>= _)
    rw [above]
    change Agree _ (write b (bits / 64) _ >>= _) _
    rw [write_eq fits]
    apply (trim_agree words b).bind
    intro below below' same
    exact .ok ⟨rfl, same⟩

theorem compare_eq {other : Bignum} (h : b.size ≤ room) (h' : other.size ≤ room) :
    compare b other = .ok (b.compare other) := by
  have length := length_words_of_size_le h
  have length' := length_words_of_size_le h'
  rw [compare, Bignum.compare, Words.compareTrimmed, length, length']
  by_cases same : b.size = other.size
  · obtain ⟨back, cells⟩ := (hasWords_words h).exists_cells
    obtain ⟨back', cells'⟩ := (hasWords_words h').exists_cells
    have words := compareWords_eq cells cells' (by omega)
    rw [length] at words
    rw [if_pos same, Nat.compare_eq_eq.mpr same, words]
    rfl
  · rw [if_neg same]
    exact (if_neg same).symm.trans (Words.ok_compare_then (Nat.lt_irrefl _) _)

theorem comparePowerOfTwo_eq (h : b.size ≤ room) (exp : Int) :
    comparePowerOfTwo b exp = .ok (b.comparePowerOfTwo exp) := by
  have length := length_words_of_size_le h
  rw [comparePowerOfTwo, Bignum.comparePowerOfTwo, Words.comparePowerOfTwo, length]
  by_cases negative : exp < 0
  · rw [if_pos negative, if_pos negative]
    by_cases empty : b.size = 0
    · rw [if_pos empty, if_pos (by rw [List.isEmpty_iff_length_eq_zero]; omega)]
    · rw [if_neg empty, if_neg (by rw [List.isEmpty_iff_length_eq_zero]; omega)]
  · rw [if_neg negative, if_neg negative]
    refine Eq.trans ?_ (Words.ok_compare_then (Nat.lt_irrefl _) _)
    by_cases same : b.size = exp.toNat / 64 + 1
    · obtain ⟨low, high, back, parts, lowLength, highLength, cells⟩ :=
        exists_words_split (hasWords_words h) (show exp.toNat / 64 ≤ _ by omega)
      obtain ⟨top, rfl⟩ : ∃ top, high = [top] := List.length_eq_one_iff.mp (by omega)
      have topWord : b.cells.drop (exp.toNat / 64) = top :: back := by
        rw [cells, ← lowLength, List.drop_left]
        rfl
      have last : (low ++ [top]).getD low.length 0 = top := by simp
      rw [if_pos same, if_pos same, read_of_drop topWord, parts, ← lowLength, List.take_left, last]
      change (if top = _ then (anyNonzero b 0 low.length).map _ else _) = _
      rw [anyNonzero_eq (n := 0) cells]
      refine Eq.trans ?_ (Words.ok_compare_then (UInt64.lt_irrefl _) _)
      cases low.all (· == 0) with
      | true => rfl
      | false => rfl
    · rw [if_neg same, if_neg same]
      rfl

end InPlace
end Bignum
end RadixText

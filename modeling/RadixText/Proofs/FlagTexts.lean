import RadixText.Proofs.NumberTexts

/-!
# What flags do to a text

All texts of a number in some radix come from one text without a sign and with
small letters only. One flag replaces its letters by capital ones, the other
one puts a plus sign in front where there is no minus sign, and the sign bit of
a float puts a minus sign there. No other bit has an effect.
-/

namespace RadixText

namespace Flags

/-- The flag of a place is set. -/
def has (flags : Flags) (i : Nat) : Bool := flags.bits.toBitVec.getLsbD i

variable (flags mask : Flags) (i : Nat)

@[simp] theorem has_or : (flags ||| mask).has i = (flags.has i || mask.has i) := by
  change (flags.bits ||| mask.bits).toBitVec.getLsbD i = _
  rw [UInt32.toBitVec_or, BitVec.getLsbD_or]
  rfl

@[simp] theorem has_and : (flags &&& mask).has i = (flags.has i && mask.has i) := by
  change (flags.bits &&& mask.bits).toBitVec.getLsbD i = _
  rw [UInt32.toBitVec_and, BitVec.getLsbD_and]
  rfl

@[simp] theorem has_not : (~~~flags).has i = (decide (i < 32) && !flags.has i) := by
  change (~~~flags.bits).toBitVec.getLsbD i = _
  rw [UInt32.toBitVec_not, BitVec.getLsbD_not]
  rfl

variable {i mask}

/-- A flag is read by its bit. -/
theorem isEmpty_and (single : mask.bits.toBitVec = BitVec.twoPow 32 i) :
    (flags &&& mask).isEmpty = !flags.has i := by
  change (flags.bits &&& mask.bits == 0) = _
  rw [Bool.eq_iff_iff, beq_iff_eq, ← UInt32.toBitVec_inj, UInt32.toBitVec_and, single,
    BitVec.and_twoPow, Bool.not_eq_true', has]
  cases bit : flags.bits.toBitVec.getLsbD i with
  | false => simp
  | true =>
      have word : i < 32 := BitVec.lt_of_getLsbD bit
      simp only [if_true, Bool.true_eq_false, iff_false]
      intro zero
      have bit := congrArg (·.getLsbD i) zero
      simp [word] at bit

@[simp] theorem has_uppercase (i : Nat) : uppercase.has i = decide (0 = i) :=
  (BitVec.getLsbD_twoPow 0 i).trans (Bool.true_and _)

@[simp] theorem has_signPositive (i : Nat) : signPositive.has i = decide (1 = i) :=
  (BitVec.getLsbD_twoPow 1 i).trans (Bool.true_and _)

theorem letterCase_eq : flags.letterCase = if flags.has 0 then .upper else .lower := by
  rw [letterCase, flags.isEmpty_and (i := 0) rfl]
  cases flags.has 0 <;> rfl

theorem showsPlus_eq : flags.showsPlus = flags.has 1 := by
  rw [showsPlus, flags.isEmpty_and (i := 1) rfl, Bool.not_not]

end Flags

namespace Options

variable {o o' : Options} (negative : Bool)

theorem sign_congr (h : o.flags.showsPlus = o'.flags.showsPlus) :
    o.sign negative = o'.sign negative := by
  rw [sign, sign, h]

theorem map_toUpper_sign (o : Options) : (o.sign negative).map Char.toUpper = o.sign negative := by
  unfold sign
  split
  · rfl
  · split <;> rfl

theorem sign_of_showsPlus (h : o.flags.showsPlus = true) :
    o.sign negative = if negative then ['-'] else ['+'] := by
  rw [sign, h, if_pos rfl]

theorem sign_of_not_showsPlus (h : o.flags.showsPlus = false) :
    o.sign negative = if negative then ['-'] else [] := by
  rw [sign, h, if_neg Bool.false_ne_true]

end Options

/-- What a character other than a capital letter becomes in a letter case. -/
def LetterCase.ofLower : LetterCase → Char → Char
  | lower, ch => ch
  | upper, ch => ch.toUpper

section Letters

variable (c : LetterCase) {r : Radix}

theorem digitChar_eq_ofLower {d : Nat} (h : d < r.val) :
    digitChar c d = c.ofLower (digitChar .lower d) := by
  cases c with
  | lower => rfl
  | upper => exact digitChar_upper_eq_toUpper (Nat.lt_of_lt_of_le h r.le_thirtySix)

theorem map_digitChar_eq_ofLower {ds : List Nat} (below : ∀ d ∈ ds, d < r.val) :
    ds.map (digitChar c) = (ds.map (digitChar .lower)).map c.ofLower := by
  rw [List.map_map]
  exact List.map_congr_left fun d mem => digitChar_eq_ofLower c (below d mem)

theorem Radix.plainNumeral_eq_ofLower (n : Nat) :
    r.plainNumeral c n = (r.plainNumeral .lower n).map c.ofLower :=
  map_digitChar_eq_ofLower c fun _ mem => r.lt_of_mem_digits mem

namespace FloatText

variable {t : FloatText}

theorem exponentMark_eq_ofLower : exponentMark r c = c.ofLower (exponentMark r .lower) := by
  unfold exponentMark
  split <;> cases c <;> rfl

theorem IsWellFormed.fractionChars_eq_ofLower (h : t.IsWellFormed) :
    t.fractionChars c = (t.fractionChars .lower).map c.ofLower := by
  unfold fractionChars
  split
  case isTrue =>
    exact map_digitChar_eq_ofLower c fun d mem => h.lt_radix d (List.mem_of_mem_drop mem)
  case isFalse => cases c <;> rfl

theorem IsWellFormed.exponentChars_eq_ofLower (h : t.IsWellFormed) :
    t.exponentChars c = (t.exponentChars .lower).map c.ofLower := by
  cases form : t.form with
  | fixed n => simp only [exponentChars, form, List.map_nil]
  | scientific e =>
      have range := h.exponent_lt
      simp only [FloatText.exponent, form] at range
      have small : e.natAbs < 2 ^ 32 := Nat.lt_trans range (by decide)
      have minus : (if e < 0 then ['-'] else []) = (if e < 0 then ['-'] else []).map c.ofLower := by
        split <;> cases c <;> rfl
      rw [exponentChars_eq c form small, exponentChars_eq .lower form small, List.map_cons,
        List.map_append, ← exponentMark_eq_ofLower, ← minus, ← Radix.plainNumeral_eq_ofLower]

/-- The letters of a text are those of its digits and the mark of its
exponent. -/
theorem IsWellFormed.chars_eq_ofLower (h : t.IsWellFormed) :
    t.chars c = (t.chars .lower).map c.ofLower := by
  have point : c.ofLower '.' = '.' := by cases c <;> rfl
  simp only [chars, List.map_append, List.map_cons, point, ← h.fractionChars_eq_ofLower c,
    ← h.exponentChars_eq_ofLower c]
  rw [← map_digitChar_eq_ofLower c fun d mem => h.lt_radix d (List.mem_of_mem_take mem)]

end FloatText

namespace FloatFormat

variable {f : FloatFormat} {bits : UInt64}

theorem name_eq_ofLower : f.name c bits = (f.name .lower bits).map c.ofLower := by
  unfold name
  cases c <;> cases f.mantissa bits == 0 <;> rfl

theorem IsSupported.magnitudeText_eq_ofLower (h : f.IsSupported)
    (inFormat : bits.toNat < 2 ^ f.totalBits) (log : Radix → ExtFloat → Int) {text : List Char}
    (made : f.magnitudeText log (f.magnitude bits) .lower r = .ok text) :
    f.magnitudeText log (f.magnitude bits) c r = .ok (text.map c.ofLower) := by
  unfold magnitudeText at made ⊢
  by_cases finite : f.IsFinite (f.magnitude bits)
  · rw [if_neg (not_not.mpr finite)] at made ⊢
    by_cases zero : f.magnitude bits = 0
    · rw [if_pos zero] at made ⊢
      injection made with made
      rw [← made]
      cases c <;> rfl
    · obtain ⟨-, -, t, -, -, -, -, digits, -, wellFormed, -⟩ :=
        h.exists_text ⟨inFormat, finite, zero⟩ log r
      rw [if_neg zero, digits] at made ⊢
      injection made with made
      rw [← made, ← wellFormed.chars_eq_ofLower c]
      rfl
  · rw [if_pos finite] at made ⊢
    injection made with made
    rw [← made, ← name_eq_ofLower]

end FloatFormat

end Letters

namespace FloatFormat

/-- Setting and clearing a bit makes no difference below it. -/
theorem or_two_pow_mod (n k : Nat) : (n ||| 2 ^ k) % 2 ^ k = (n &&& (2 ^ k - 1)) % 2 ^ k := by
  rw [Nat.or_mod_two_pow, Nat.mod_self, Nat.or_zero, Nat.and_two_pow_sub_one_eq_mod, Nat.mod_mod]

/-- The sign bit of a pattern does not change its magnitude. -/
theorem magnitude_signed_binary32 (bits : UInt32) :
    binary32.magnitude (bits ||| 0x80000000).toUInt64 =
      binary32.magnitude (bits &&& 0x7fffffff).toUInt64 := by
  apply isSupported_binary32.magnitude_eq_of_mod_eq (inFormat_binary32 _) (inFormat_binary32 _)
  rw [UInt32.toNat_toUInt64, UInt32.toNat_toUInt64, UInt32.toNat_or, UInt32.toNat_and]
  exact or_two_pow_mod bits.toNat 31

theorem magnitude_signed_binary64 (bits : UInt64) :
    binary64.magnitude (bits ||| 0x8000000000000000) =
      binary64.magnitude (bits &&& 0x7fffffffffffffff) := by
  apply isSupported_binary64.magnitude_eq_of_mod_eq (inFormat_binary64 _) (inFormat_binary64 _)
  rw [UInt64.toNat_or, UInt64.toNat_and]
  exact or_two_pow_mod bits.toNat 63

end FloatFormat

namespace Number

variable {v : Number} {log : Radix → ExtFloat → Int}

theorem unsignedText_eq_ofLower {r : Radix} {text : List Char}
    (made : v.unsignedText log .lower r = .ok text) (c : LetterCase) :
    v.unsignedText log c r = .ok (text.map c.ofLower) := by
  cases v with
  | integer t pattern =>
      injection made with made
      rw [← made, ← Radix.plainNumeral_eq_ofLower]
      rfl
  | wide v =>
      injection made with made
      rw [← made, ← Radix.plainNumeral_eq_ofLower]
      rfl
  | binary32 bits =>
      exact FloatFormat.isSupported_binary32.magnitudeText_eq_ofLower c
        (FloatFormat.inFormat_binary32 bits) log made
  | binary64 bits =>
      exact FloatFormat.isSupported_binary64.magnitudeText_eq_ofLower c
        (FloatFormat.inFormat_binary64 bits) log made

/-- The sign bit alone decides. -/
theorem isNegative_signed_binary32 (bits : UInt32) :
    (binary32 (bits &&& 0x7fffffff)).isNegative = false ∧
      (binary32 (bits ||| 0x80000000)).isNegative = true := by
  rw [isNegative, isNegative, UInt32.toBitVec_and, UInt32.toBitVec_or, BitVec.msb_and,
    BitVec.msb_or]
  exact ⟨Bool.and_false _, Bool.or_true _⟩

theorem isNegative_signed_binary64 (bits : UInt64) :
    (binary64 (bits &&& 0x7fffffffffffffff)).isNegative = false ∧
      (binary64 (bits ||| 0x8000000000000000)).isNegative = true := by
  rw [isNegative, isNegative, UInt64.toBitVec_and, UInt64.toBitVec_or, BitVec.msb_and,
    BitVec.msb_or]
  exact ⟨Bool.and_false _, Bool.or_true _⟩

/-- What the flags do to the texts of a number in some radix. -/
structure FlagsActApart (v : Number) (log : Radix → ExtFloat → Int) (u : UnitWidth)
    (radix : UInt32) : Prop where
  uppercase : ∀ flags : Flags, ∃ text,
    v.toTextWith log u ⟨radix, flags &&& ~~~Flags.uppercase⟩ = .ok text ∧
    v.toTextWith log u ⟨radix, flags ||| Flags.uppercase⟩ = .ok (text.map Char.toUpper)
  signPositive : ∀ flags : Flags, ∃ text,
    v.toTextWith log u ⟨radix, flags &&& ~~~Flags.signPositive⟩ = .ok text ∧
    v.toTextWith log u ⟨radix, flags ||| Flags.signPositive⟩ =
      .ok (if v.isNegative then text else '+' :: text)
  others : ∀ flags : Flags, ∃ text,
    v.toTextWith log u ⟨radix, flags &&& (Flags.uppercase ||| Flags.signPositive)⟩ = .ok text ∧
    v.toTextWith log u ⟨radix, flags⟩ = .ok text

section Texts

variable {u : UnitWidth} {radix : UInt32} {r : Radix} {text : List Char}

/-- The text without a sign and with small letters makes up the texts of all
flags. -/
def IsLowerText (v : Number) (log : Radix → ExtFloat → Int) (u : UnitWidth) (radix : UInt32)
    (text : List Char) : Prop :=
  ∀ flags : Flags, v.toTextWith log u ⟨radix, flags⟩ =
    .ok (Options.sign ⟨radix, flags⟩ v.isNegative ++ text.map flags.letterCase.ofLower)

theorem isLowerText_of_unsignedText (valid : Radix.requested radix.toNat = .ok r)
    (made : v.unsignedText log .lower r = .ok text) : v.IsLowerText log u radix text := by
  intro flags
  obtain ⟨text', made', -, length, delivers⟩ := v.exists_unsignedText log flags.letterCase r
  rw [unsignedText_eq_ofLower made] at made'
  injection made' with made'
  have sign := Options.length_sign_le ⟨radix, flags⟩ v.isNegative
  rw [made']
  refine (delivers ⟨radix, flags⟩ valid rfl).toTextWith ?_
  rw [List.length_append]
  exact Nat.le_trans (Nat.add_le_add sign length) (by cases u <;> decide)

/-- Two sets of flags that agree in letter case and sign give one text. -/
theorem IsLowerText.congr (h : v.IsLowerText log u radix text) {flags flags' : Flags}
    (letters : flags.letterCase = flags'.letterCase)
    (plus : flags.showsPlus = flags'.showsPlus) :
    v.toTextWith log u ⟨radix, flags⟩ = v.toTextWith log u ⟨radix, flags'⟩ := by
  have sign : Options.sign ⟨radix, flags⟩ v.isNegative =
      Options.sign ⟨radix, flags'⟩ v.isNegative :=
    Options.sign_congr _ plus
  rw [h, h, letters, sign]

theorem IsLowerText.flagsActApart (h : v.IsLowerText log u radix text) :
    v.FlagsActApart log u radix := by
  constructor
  · intro flags
    refine ⟨_, h _, (h _).trans (congrArg _ ?_)⟩
    have lower : (flags &&& ~~~Flags.uppercase).letterCase = .lower := by
      simp [Flags.letterCase_eq]
    have upper : (flags ||| Flags.uppercase).letterCase = .upper := by
      simp [Flags.letterCase_eq]
    rw [lower, upper, List.map_append, Options.map_toUpper_sign, List.map_map]
    congr 1
    apply Options.sign_congr
    simp [Flags.showsPlus_eq]
  · intro flags
    refine ⟨_, h _, (h _).trans (congrArg _ ?_)⟩
    have same : (flags ||| Flags.signPositive).letterCase =
        (flags &&& ~~~Flags.signPositive).letterCase := by
      simp [Flags.letterCase_eq]
    rw [same, Options.sign_of_showsPlus _ (by simp [Flags.showsPlus_eq]),
      Options.sign_of_not_showsPlus _ (by simp [Flags.showsPlus_eq])]
    cases v.isNegative <;> rfl
  · intro flags
    refine ⟨_, h _, (h.congr ?_ ?_).trans (h _)⟩
    · simp [Flags.letterCase_eq]
    · simp [Flags.showsPlus_eq]

/-- Of two numbers that differ in their signs only, one has the other one's text
behind a minus sign. -/
theorem IsLowerText.of_negative {v' : Number} (h : v.IsLowerText log u radix text)
    (h' : v'.IsLowerText log u radix text) (positive : v.isNegative = false)
    (negative : v'.isNegative = true) (flags : Flags) : ∃ text,
      v.toTextWith log u ⟨radix, flags &&& ~~~Flags.signPositive⟩ = .ok text ∧
      v'.toTextWith log u ⟨radix, flags⟩ = .ok ('-' :: text) := by
  refine ⟨_, h _, (h' _).trans (congrArg _ ?_)⟩
  have same : flags.letterCase = (flags &&& ~~~Flags.signPositive).letterCase := by
    simp [Flags.letterCase_eq]
  have unsigned : Options.sign ⟨radix, flags &&& ~~~Flags.signPositive⟩ false = [] :=
    Options.sign_of_not_showsPlus _ (by simp [Flags.showsPlus_eq])
  rw [same, positive, negative, unsigned]
  rfl

end Texts

/-- The flags act apart from each other and from the number, with a radix in
range and any way to estimate logarithms. A float with its sign bit set has the
text of the float without it behind a minus sign. -/
theorem flags_act_apart (v : Number) (log : Radix → ExtFloat → Int) (u : UnitWidth)
    {radix : UInt32} (inRange : Radix.smallest ≤ radix.toNat ∧ radix.toNat ≤ Radix.largest) :
    v.FlagsActApart log u radix ∧
    (∀ (bits : UInt32) (flags : Flags), ∃ text,
      (binary32 (bits &&& 0x7fffffff)).toTextWith log u
        ⟨radix, flags &&& ~~~Flags.signPositive⟩ = .ok text ∧
      (binary32 (bits ||| 0x80000000)).toTextWith log u ⟨radix, flags⟩ = .ok ('-' :: text)) ∧
    ∀ (bits : UInt64) (flags : Flags), ∃ text,
      (binary64 (bits &&& 0x7fffffffffffffff)).toTextWith log u
        ⟨radix, flags &&& ~~~Flags.signPositive⟩ = .ok text ∧
      (binary64 (bits ||| 0x8000000000000000)).toTextWith log u ⟨radix, flags⟩ =
        .ok ('-' :: text) := by
  obtain ⟨r, valid⟩ := Options.exists_requestedRadix (o := ⟨radix, Flags.none⟩) inRange
  have isLowerText (v : Number) : ∃ text, v.unsignedText log .lower r = .ok text ∧
      v.IsLowerText log u radix text := by
    obtain ⟨text, made, -⟩ := v.exists_unsignedText log .lower r
    exact ⟨text, made, isLowerText_of_unsignedText valid made⟩
  refine ⟨?_, ?_, ?_⟩
  · obtain ⟨text, -, isText⟩ := isLowerText v
    exact isText.flagsActApart
  · intro bits
    obtain ⟨text, made, isText⟩ := isLowerText (binary32 (bits &&& 0x7fffffff))
    have made' : (binary32 (bits ||| 0x80000000)).unsignedText log .lower r = .ok text := by
      rw [← made, unsignedText, unsignedText, FloatFormat.magnitude_signed_binary32]
    obtain ⟨positive, negative⟩ := isNegative_signed_binary32 bits
    exact isText.of_negative (isLowerText_of_unsignedText valid made') positive negative
  · intro bits
    obtain ⟨text, made, isText⟩ := isLowerText (binary64 (bits &&& 0x7fffffffffffffff))
    have made' : (binary64 (bits ||| 0x8000000000000000)).unsignedText log .lower r = .ok text := by
      rw [← made, unsignedText, unsignedText, FloatFormat.magnitude_signed_binary64]
    obtain ⟨positive, negative⟩ := isNegative_signed_binary64 bits
    exact isText.of_negative (isLowerText_of_unsignedText valid made') positive negative

/-- Infinity is written in capital letters and with either sign. -/
theorem infinity_with_all_flags :
    (Radix.smallest ≤ (16 : UInt32).toNat ∧ (16 : UInt32).toNat ≤ Radix.largest) ∧
    (binary32 0x7f800000).FlagsActApart ExtFloat.logBelowOne .narrow 16 ∧
    (binary32 0x7f800000).toTextWith ExtFloat.logBelowOne .narrow
      ⟨16, Flags.uppercase ||| Flags.signPositive⟩ = .ok ['+', 'I', 'N', 'F'] ∧
    (binary32 0xff800000).toTextWith ExtFloat.logBelowOne .narrow
      ⟨16, Flags.uppercase ||| Flags.signPositive⟩ = .ok ['-', 'I', 'N', 'F'] := by
  have inRange : Radix.smallest ≤ (16 : UInt32).toNat ∧ (16 : UInt32).toNat ≤ Radix.largest := by
    decide
  obtain ⟨apart, signed, -⟩ :=
    flags_act_apart (binary32 0x7f800000) ExtFloat.logBelowOne .narrow inRange
  obtain ⟨text, positive, negative⟩ :=
    signed 0x7f800000 (Flags.uppercase ||| Flags.signPositive)
  have capital : text = ['I', 'N', 'F'] := by
    have made : Except.ok ['I', 'N', 'F'] = Except.ok text := positive
    injection made with made
    exact made.symm
  rw [capital] at negative
  exact ⟨inRange, apart, rfl, negative⟩

end Number

end RadixText

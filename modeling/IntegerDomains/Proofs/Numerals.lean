import IntegerDomains.Text.Numeral

/-!
A text is refused for its first character that is no digit, unless the digits before it exceed the
word already.
-/

namespace IntegerDomains.Text

variable {text : List Char} {value v : Nat} {cause : NumeralError}

/-- All characters are ASCII digits. -/
def AllDigits (text : List Char) : Prop := ∀ c ∈ text, c.isDigit = true

/-- Why characters behind digits of the value are not read to the end: one of them is no digit, or
    the digits up to one exceed the machine word. -/
inductive DigitsDefect (value : Nat) (text : List Char) : NumeralError → Prop
  | invalidDigit (front back : List Char) (c : Char) (split : text = front ++ c :: back)
    (digits : AllDigits front) (fits : Nat.ofDigitChars 10 front value ≤ wordMax)
    (other : c.isDigit = false) : DigitsDefect value text .invalidDigit
  | tooLarge (front back : List Char) (split : text = front ++ back) (digits : AllDigits front)
    (large : wordMax < Nat.ofDigitChars 10 front value) : DigitsDefect value text .tooLarge

private theorem digit?_of_isDigit {c : Char} (digit : c.isDigit = true) :
    digit? c = some (c.toNat - '0'.toNat) := by
  rw [Char.isDigit, Bool.and_eq_true, decide_eq_true_eq, decide_eq_true_eq] at digit
  exact if_pos digit

private theorem digit?_of_not_isDigit {c : Char} (other : c.isDigit = false) : digit? c = none := by
  rw [← Bool.not_eq_true, Char.isDigit, Bool.and_eq_true, decide_eq_true_eq, decide_eq_true_eq] at other
  exact if_neg other

/-- Further digits make no value smaller. -/
private theorem le_ofDigitChars (text : List Char) (value : Nat) :
    value ≤ Nat.ofDigitChars 10 text value := by
  induction text generalizing value with
  | nil => exact Nat.le_refl value
  | cons c rest ih =>
    rw [Nat.ofDigitChars_cons]
    have later := ih (10 * value + (c.toNat - '0'.toNat))
    omega

/-- The next digit is added to ten times the value, if the machine word holds the sum. -/
private theorem readDigits_cons {c : Char} {rest : List Char} (digit : c.isDigit = true) :
    readDigits value (c :: rest) =
      if wordMax < 10 * value + (c.toNat - '0'.toNat) then .error .tooLarge
      else readDigits (10 * value + (c.toNat - '0'.toNat)) rest := by
  rw [readDigits, digit?_of_isDigit digit, Nat.mul_comm 10 value]

private theorem readDigits_cons_of_not_isDigit {c : Char} {rest : List Char}
    (other : c.isDigit = false) : readDigits value (c :: rest) = .error .invalidDigit := by
  rw [readDigits, digit?_of_not_isDigit other]

theorem readDigits_eq_ok_iff (fits : value ≤ wordMax) :
    readDigits value text = .ok v ↔
      AllDigits text ∧ Nat.ofDigitChars 10 text value = v ∧ v ≤ wordMax := by
  induction text generalizing value with
  | nil =>
    rw [readDigits, Nat.ofDigitChars_nil, Except.ok.injEq]
    constructor
    · rintro rfl
      exact ⟨by simp [AllDigits], rfl, fits⟩
    · rintro ⟨_, same, _⟩
      exact same
  | cons c rest ih =>
    rw [AllDigits, List.forall_mem_cons]
    cases digit : c.isDigit with
    | false =>
      rw [readDigits_cons_of_not_isDigit digit]
      simp
    | true =>
      rw [readDigits_cons digit, Nat.ofDigitChars_cons]
      by_cases large : wordMax < 10 * value + (c.toNat - '0'.toNat)
      · have more := le_ofDigitChars rest (10 * value + (c.toNat - '0'.toNat))
        rw [if_pos large]
        refine iff_of_false (by simp) ?_
        rintro ⟨_, rfl, bound⟩
        omega
      · rw [if_neg large, ih (Nat.le_of_not_lt large)]
        simp [AllDigits]

/-- The first character decides, unless it is a digit that the machine word has room for. -/
private theorem digitsDefect_cons {c : Char} {rest : List Char} (fits : value ≤ wordMax) :
    DigitsDefect value (c :: rest) cause ↔
      (c.isDigit = false ∧ cause = .invalidDigit) ∨
      (c.isDigit = true ∧ wordMax < 10 * value + (c.toNat - '0'.toNat) ∧ cause = .tooLarge) ∨
      (c.isDigit = true ∧ 10 * value + (c.toNat - '0'.toNat) ≤ wordMax ∧
        DigitsDefect (10 * value + (c.toNat - '0'.toNat)) rest cause) := by
  constructor
  · intro defect
    cases defect with
    | invalidDigit front back d split digits bound other =>
      cases front with
      | nil =>
        obtain ⟨rfl, rfl⟩ := List.cons.inj split
        exact .inl ⟨other, rfl⟩
      | cons e front =>
        obtain ⟨rfl, rfl⟩ := List.cons.inj split
        obtain ⟨digit, others⟩ := List.forall_mem_cons.mp digits
        rw [Nat.ofDigitChars_cons] at bound
        have first := le_ofDigitChars front (10 * value + (c.toNat - '0'.toNat))
        exact .inr (.inr ⟨digit, Nat.le_trans first bound,
          .invalidDigit front back d rfl others bound other⟩)
    | tooLarge front back split digits large =>
      cases front with
      | nil => exact absurd fits (Nat.not_le.mpr large)
      | cons e front =>
        obtain ⟨rfl, rfl⟩ := List.cons.inj split
        obtain ⟨digit, others⟩ := List.forall_mem_cons.mp digits
        rw [Nat.ofDigitChars_cons] at large
        by_cases first : wordMax < 10 * value + (c.toNat - '0'.toNat)
        · exact .inr (.inl ⟨digit, first, rfl⟩)
        · exact .inr (.inr ⟨digit, Nat.le_of_not_lt first, .tooLarge front back rfl others large⟩)
  · rintro (⟨other, rfl⟩ | ⟨digit, large, rfl⟩ | ⟨digit, _, defect⟩)
    · exact .invalidDigit [] rest c rfl (by simp [AllDigits]) fits other
    · exact .tooLarge [c] rest rfl (by simpa [AllDigits] using digit) large
    · cases defect with
      | invalidDigit front back d split digits bound other =>
        exact .invalidDigit (c :: front) back d (by rw [split]; rfl)
          (List.forall_mem_cons.mpr ⟨digit, digits⟩) bound other
      | tooLarge front back split digits large =>
        exact .tooLarge (c :: front) back (by rw [split]; rfl)
          (List.forall_mem_cons.mpr ⟨digit, digits⟩) large

theorem readDigits_eq_error_iff (fits : value ≤ wordMax) :
    readDigits value text = .error cause ↔ DigitsDefect value text cause := by
  induction text generalizing value with
  | nil =>
    refine iff_of_false (by simp [readDigits]) ?_
    rintro (⟨_, _, _, split, _, _, _⟩ | ⟨_, _, split, _, large⟩)
    · simp at split
    · obtain ⟨rfl, rfl⟩ := List.append_eq_nil_iff.mp split.symm
      exact absurd fits (Nat.not_le.mpr large)
  | cons c rest ih =>
    rw [digitsDefect_cons fits]
    cases digit : c.isDigit with
    | false =>
      rw [readDigits_cons_of_not_isDigit digit]
      simp [eq_comm]
    | true =>
      rw [readDigits_cons digit]
      generalize 10 * value + (c.toNat - '0'.toNat) = next
      by_cases large : wordMax < next
      · simp [large, Nat.not_le.mpr large, eq_comm]
      · rw [if_neg large, ih (Nat.le_of_not_lt large)]
        simp [large, Nat.le_of_not_lt large]

/-- At least one digit with at most one plus sign in front, and the value fits the machine word. -/
def IsNumeral (text : List Char) (v : Nat) : Prop :=
  ∃ digits, (text = digits ∨ text = '+' :: digits) ∧ digits ≠ [] ∧ AllDigits digits ∧
    Nat.ofDigitChars 10 digits 0 = v ∧ v ≤ wordMax

/-- The text behind a plus sign that does not stand alone. -/
def unsigned : List Char → List Char
  | '+' :: c :: rest => c :: rest
  | text => text

/-- Why text is no numeral. -/
inductive NumeralDefect : List Char → NumeralError → Prop
  | empty : NumeralDefect [] .empty
  | digits {text : List Char} {cause : NumeralError} (nonempty : text ≠ [])
    (defect : DigitsDefect 0 (unsigned text) cause) : NumeralDefect text cause

private theorem unsigned_plus {digits : List Char} (nonempty : digits ≠ []) :
    unsigned ('+' :: digits) = digits := by
  cases digits with
  | nil => exact absurd rfl nonempty
  | cons c rest => rfl

/-- A text of digits begins with no sign. -/
private theorem unsigned_digits (digits : AllDigits text) : unsigned text = text := by
  rw [unsigned]
  rintro c rest rfl
  exact absurd (digits '+' List.mem_cons_self) (by decide)

private theorem eq_unsigned_or_plus (text : List Char) :
    text = unsigned text ∨ text = '+' :: unsigned text := by
  fun_cases unsigned text with
  | case1 c rest => exact .inr rfl
  | case2 => exact .inl rfl

private theorem unsigned_ne_nil (nonempty : text ≠ []) : unsigned text ≠ [] := by
  fun_cases unsigned text with
  | case1 c rest => exact List.cons_ne_nil c rest
  | case2 => exact nonempty

private theorem isNumeral_iff : IsNumeral text v ↔
    text ≠ [] ∧ AllDigits (unsigned text) ∧ Nat.ofDigitChars 10 (unsigned text) 0 = v ∧
      v ≤ wordMax := by
  constructor
  · rintro ⟨digits, rfl | rfl, nonempty, all, holds⟩
    · rw [unsigned_digits all]
      exact ⟨nonempty, all, holds⟩
    · rw [unsigned_plus nonempty]
      exact ⟨List.cons_ne_nil _ _, all, holds⟩
  · rintro ⟨nonempty, all, holds⟩
    exact ⟨unsigned text, eq_unsigned_or_plus text, unsigned_ne_nil nonempty, all, holds⟩

private theorem readNumeral_eq (nonempty : text ≠ []) :
    readNumeral text = readDigits 0 (unsigned text) := by
  fun_cases readNumeral text with
  | case1 => exact absurd rfl nonempty
  | case2 c rest => rfl
  | case3 _ _ signless => rw [unsigned]; exact signless

/-- Exactly the numerals are read, with their positional value. -/
theorem readNumeral_eq_ok_iff : readNumeral text = .ok v ↔ IsNumeral text v := by
  rw [isNumeral_iff]
  by_cases nonempty : text = []
  · subst nonempty
    simp [readNumeral]
  · rw [readNumeral_eq nonempty, readDigits_eq_ok_iff (Nat.zero_le _)]
    exact (and_iff_right nonempty).symm

theorem IsNumeral.unique {w : Nat} (numeral : IsNumeral text v) (numeral' : IsNumeral text w) :
    v = w :=
  Except.ok.inj ((readNumeral_eq_ok_iff.mpr numeral).symm.trans (readNumeral_eq_ok_iff.mpr numeral'))

theorem readNumeral_eq_error_iff : readNumeral text = .error cause ↔ NumeralDefect text cause := by
  by_cases nonempty : text = []
  · subst nonempty
    rw [readNumeral, Except.error.injEq]
    constructor
    · rintro rfl
      exact .empty
    · rintro (_ | ⟨nonempty, _⟩)
      · rfl
      · exact absurd rfl nonempty
  · rw [readNumeral_eq nonempty, readDigits_eq_error_iff (Nat.zero_le _)]
    constructor
    · exact .digits nonempty
    · rintro (_ | ⟨_, defect⟩)
      · exact absurd rfl nonempty
      · exact defect

/-- The decimal digits of a number are a numeral of it. -/
theorem isNumeral_toDigits (fits : v ≤ wordMax) : IsNumeral (Nat.toDigits 10 v) v :=
  ⟨Nat.toDigits 10 v, .inl rfl, Nat.toDigits_ne_nil,
    fun _ member => Nat.isDigit_of_mem_toDigits (by decide) (by decide) member,
    Nat.ofDigitChars_toDigits (by decide) (by decide), fits⟩

/-- A numeral holds digits and plus signs only. -/
theorem IsNumeral.isDigit_or_plus (numeral : IsNumeral text v) :
    ∀ c ∈ text, c.isDigit = true ∨ c = '+' := by
  obtain ⟨digits, rfl | rfl, _, all, _⟩ := numeral
  · exact fun c member => .inl (all c member)
  · exact List.forall_mem_cons.mpr ⟨.inr rfl, fun c member => .inl (all c member)⟩

end IntegerDomains.Text

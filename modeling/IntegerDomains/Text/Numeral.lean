import IntegerDomains.Limits

namespace IntegerDomains.Text

/-- Why text is no numeral. -/
inductive NumeralError
  /-- There is no character. -/
  | empty
  /-- A character is no digit. -/
  | invalidDigit
  /-- The digits read so far exceed the word. -/
  | tooLarge
deriving DecidableEq

/-- The wording of an error. -/
def NumeralError.message : NumeralError → String
  | .empty => "cannot parse integer from empty string"
  | .invalidDigit => "invalid digit found in string"
  | .tooLarge => "number too large to fit in target type"

/-- The value of an ASCII digit. -/
def digit? (c : Char) : Option Nat :=
  if '0' ≤ c ∧ c ≤ '9' then some (c.toNat - '0'.toNat) else none

/-- The value of digits behind those of `value`, read from the left up to the first error. -/
def readDigits (value : Nat) : List Char → Except NumeralError Nat
  | [] => .ok value
  | c :: rest =>
    match digit? c with
    | none => .error .invalidDigit
    | some digit =>
      if wordMax < value * 10 + digit then .error .tooLarge
      else readDigits (value * 10 + digit) rest

/-- The value of a numeral. A sign alone counts as a character that is no digit. -/
def readNumeral : List Char → Except NumeralError Nat
  | [] => .error .empty
  | '+' :: c :: rest => readDigits 0 (c :: rest)
  | text => readDigits 0 text

end IntegerDomains.Text

import IntegerDomains.Fault

namespace IntegerDomains.Word

/-- The sum, if it fits the word. -/
def add (a b : Nat) : Except Fault Nat :=
  if a + b ≤ wordMax then .ok (a + b) else .error .overflow

/-- The difference, if it is not negative. -/
def sub (a b : Nat) : Except Fault Nat :=
  if b ≤ a then .ok (a - b) else .error .overflow

/-- The product, if it fits the wide word. -/
def mul (a b : Nat) : Except Fault Nat :=
  if a * b ≤ wideMax then .ok (a * b) else .error .overflow

theorem add_eq_ok {a b : Nat} (fits : a + b ≤ wordMax) : add a b = .ok (a + b) := if_pos fits

/-- A value of a domain and its successor fit the word. -/
theorem add_eq_ok_of_le {a b : Nat} (bound : a + b ≤ maxValue + 1) : add a b = .ok (a + b) :=
  add_eq_ok (Nat.le_trans bound maxValue_lt_wordMax)

theorem sub_eq_ok {a b : Nat} (fits : b ≤ a) : sub a b = .ok (a - b) := if_pos fits

theorem mul_eq_ok {a b : Nat} (fits : a * b ≤ wideMax) : mul a b = .ok (a * b) := if_pos fits

end IntegerDomains.Word

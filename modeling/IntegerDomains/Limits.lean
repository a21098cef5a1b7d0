namespace IntegerDomains

/-- The smallest value a domain may hold. -/
def minValue : Nat := 0

/-- The largest value a domain may hold; two such values add up within a 32-bit word. -/
def maxValue : Nat := 100000000

/-- The largest value a mask may hold: bit 31 of the word stays clear. -/
def maskMax : Nat := 30

/-- The largest number of the 32-bit word in which values are computed. -/
def wordMax : Nat := 4294967295

theorem maskMax_lt_maxValue : maskMax < maxValue := by decide

theorem maxValue_lt_wordMax : maxValue < wordMax := by decide

/-- The largest number of the 64-bit word in which products are computed. -/
def wideMax : Nat := 18446744073709551615

end IntegerDomains

import IntegerDomains.Arithmetic.Pairwise
import IntegerDomains.Domain.Build
import IntegerDomains.Domain.Validity

namespace IntegerDomains

/-- The product of two values, capped at `maxValue`. -/
def cappedProduct (a b : Nat) : Except Fault Nat := do
  return min (← Word.mul a b) maxValue

/-- The values from the smallest to the largest product of two intervals. -/
def IntervalRule.product : IntervalRule := fun r s => do
  return some ⟨← cappedProduct r.lo s.lo, ← cappedProduct r.hi s.hi⟩

namespace Domain

/-- The product intervals of the runs. -/
def products (d e : Domain) : Except Fault Domain :=
  if d.isEmpty || e.isEmpty then .ok .empty
  else do IntervalRule.product.combine (← d.toIntervals) (← e.toIntervals)

/-- The product intervals of each run of `d` with each run of `e`. -/
def mul (d e : Domain) : Except Fault Domain := checkBinary .product products d e

/-- The product intervals of each run with the value. -/
def mulValue (d : Domain) (v : Nat) : Except Fault Domain := do
  d.mul (← ofValue v)

end Domain

end IntegerDomains

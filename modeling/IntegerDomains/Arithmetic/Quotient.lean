import IntegerDomains.Domain.Build
import IntegerDomains.Domain.Validity

namespace IntegerDomains

/-- The quotient, rounded up as by `⌈/⌉` (`ceilDiv_eq`). -/
def ceilDiv (a b : Nat) : Nat := (a + b - 1) / b

namespace Interval

/-- The largest quotient of a value by a member, `maxValue` if zero is a member. -/
def largestQuotient (divisor : Interval) (v : Nat) : Nat :=
  if 0 < divisor.lo then v / divisor.lo else maxValue

/-- The quotients by a divisor that is not zero alone. Where no integer lies between the smallest
    and the largest one, flooring keeps the largest one rounded down. -/
def quotient? (floor : Bool) (r divisor : Interval) : Option Interval :=
  let lo := ceilDiv r.lo divisor.hi
  let hi := divisor.largestQuotient r.hi
  if lo ≤ hi then some ⟨lo, hi⟩
  else if floor then some (single hi)
  else none

/-- The values that multiply with a member of the factor into `r`; zero leaves them open. -/
def cofactor? (r factor : Interval) : Option Interval :=
  let lo := if 0 < factor.hi then ceilDiv r.lo factor.hi else minValue
  let hi := factor.largestQuotient r.hi
  if lo ≤ hi then some ⟨lo, hi⟩ else none

end Interval

namespace Intervals

/-- The quotients of each interval by each divisor other than zero alone. -/
def quotients (floor : Bool) (s divisors : List Interval) : List Interval :=
  (divisors.filter fun divisor => divisor.hi ≠ 0).flatMap fun divisor =>
    s.filterMap fun r => r.quotient? floor divisor

/-- The cofactors of each interval for each factor. -/
def cofactors (s factors : List Interval) : List Interval :=
  factors.flatMap fun factor => s.filterMap fun r => r.cofactor? factor

end Intervals

namespace Domain

/-- The quotient intervals of the runs. -/
def quotients (floor : Bool) (d divisor : Domain) : Except Fault Domain :=
  if d.isEmpty || divisor.isEmpty then .ok .empty
  else do ofIntervals (Intervals.quotients floor (← d.toIntervals) (← divisor.toIntervals))

/-- The quotients of each run of `d` by each run of the divisor; `floor` keeps the floored quotient
    of two runs that have no integer one. -/
def div (d divisor : Domain) (floor : Bool) : Except Fault Domain :=
  checkBinary .quotient (quotients floor) d divisor

/-- The operator for division keeps the floored quotients. -/
instance : HDiv Domain Domain (Except Fault Domain) where
  hDiv d divisor := d.div divisor true

/-- The exact quotients of the members by the value. -/
def divValue (d : Domain) (v : Nat) : Except Fault Domain := do
  d.div (← ofValue v) false

/-- The cofactor intervals of the runs. -/
def cofactors (d factor : Domain) : Except Fault Domain :=
  if d.isEmpty || factor.isEmpty then .ok .empty
  else do ofIntervals (Intervals.cofactors (← d.toIntervals) (← factor.toIntervals))

/-- The cofactors of each run of `d`, taken as products, for each run of the factor. -/
def cofactor (d factor : Domain) : Except Fault Domain :=
  checkBinary .cofactor cofactors d factor

/-- The cofactors of the members for the value. -/
def cofactorValue (d : Domain) (v : Nat) : Except Fault Domain := do
  d.cofactor (← ofValue v)

end Domain

end IntegerDomains

import IntegerDomains.Domain.Canonical

namespace IntegerDomains

/-- How two intervals combine: into an interval or into nothing, unless a fault arises. -/
abbrev IntervalRule := Interval → Interval → Except Fault (Option Interval)

/-- What the rule answers for each interval of `a` with each of `b`. -/
def IntervalRule.pieces (rule : IntervalRule) (a b : List Interval) :
    Except Fault (List Interval) := do
  let found ← (a.flatMap fun r => b.map (r, ·)).mapM fun pair => rule pair.1 pair.2
  return found.filterMap id

/-- The union of the pieces in its smallest form. -/
def IntervalRule.combine (rule : IntervalRule) (a b : List Interval) : Except Fault Domain := do
  Domain.ofIntervals (← rule.pieces a b)

/-- The members as a mask, of a domain that is small enough. -/
def Domain.asMask? : Domain → Option Mask
  | .single v => if v ≤ maskMax then some (Mask.bit v) else none
  | .mask m => some m
  | _ => none

end IntegerDomains

import IntegerDomains.Domain.Query
import IntegerDomains.Domain.Validity
import IntegerDomains.Intervals.Cutting

namespace IntegerDomains.Domain

/-- The value alone, if it is a member. -/
def interValue (d : Domain) (v : Nat) : Except Fault Domain := do
  checkOperand .intersectionValue d
  return if d.contains v then .single v else .empty

/-- The common values by the forms of both domains. -/
def common : Domain → Domain → Except Fault Domain
  | .empty, _ | _, .empty => .ok .empty
  | .single v, d | d, .single v => d.interValue v
  | .mask a, .mask b => ofMask (a &&& b)
  | .mask m, .intervals s | .intervals s, .mask m => do ofMask (m &&& (← Mask.ofIntervals s))
  | .intervals a, .intervals b => ofSeparated (Intervals.meet a b)

/-- The values of both domains. -/
def inter (d e : Domain) : Except Fault Domain := checkBinary .intersection common d e

/-- No value is common, by the forms of both domains. -/
def isApart : Domain → Domain → Except Fault Bool
  | .empty, _ | _, .empty => .ok true
  | .single v, d | d, .single v => .ok !(d.contains v)
  | .mask a, .mask b => .ok (a &&& b == 0#32)
  | .mask m, .intervals s | .intervals s, .mask m => do
    return m &&& (← Mask.ofIntervals s) == 0#32
  | .intervals a, .intervals b => .ok !(Intervals.meets a b)

/-- The domains have no value in common. -/
def disjoint (d e : Domain) : Except Fault Bool := do
  checkOperand .disjointness d
  checkOperand .disjointness e
  isApart d e

end IntegerDomains.Domain

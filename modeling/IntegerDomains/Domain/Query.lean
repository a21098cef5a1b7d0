import IntegerDomains.Domain.Canonical
import IntegerDomains.Intervals.Measure

namespace IntegerDomains.Domain

/-- No value is stored. -/
def isEmpty : Domain → Bool
  | .empty => true
  | _ => false

/-- One value is stored as such. -/
def isSingle : Domain → Bool
  | .single _ => true
  | _ => false

/-- The value of a domain stored as one value. -/
def value? : Domain → Option Nat
  | .single v => some v
  | _ => none

/-- The value is a member. -/
def contains (d : Domain) (v : Nat) : Bool :=
  match d with
  | .empty => false
  | .single w => w == v
  | .mask m => m.contains v
  | .intervals s => (Intervals.locate? v s).isSome

/-- The smallest value. -/
def least? : Domain → Except Fault (Option Nat)
  | .empty => .ok none
  | .single v => .ok (some v)
  | .mask m => do return some (← m.least)
  | .intervals s => .ok (Intervals.least? s)

/-- The largest value. -/
def greatest? : Domain → Except Fault (Option Nat)
  | .empty => .ok none
  | .single v => .ok (some v)
  | .mask m => do return some (← m.greatest)
  | .intervals s => .ok (Intervals.greatest? s)

/-- The number of values. -/
def size : Domain → Except Fault Nat
  | .empty => .ok 0
  | .single _ => .ok 1
  | .mask m => .ok m.size
  | .intervals s => Intervals.size s

/-- Every value in ascending order. -/
def toList : Domain → List Nat
  | .empty => []
  | .single v => [v]
  | .mask m => m.values
  | .intervals s => Intervals.values s

/-- Every value in ascending order, run by run. -/
def toListByRuns (d : Domain) : Except Fault (List Nat) := do
  return Intervals.values (← d.toIntervals)

/-- The value at half the size, counted from zero: of an even number of values the upper middle. -/
def middle? : Domain → Except Fault (Option Nat)
  | .empty => .ok none
  | .single v => .ok (some v)
  | .mask m => .ok (m.get? (m.size / 2))
  | .intervals s => do Intervals.nth? ((← Intervals.size s) / 2) s

/-- Zero is stored as the only value. -/
def isZero : Domain → Bool
  | .single 0 => true
  | _ => false

/-- Zero is the smallest value. -/
def hasZero (d : Domain) : Except Fault Bool := do
  return (← d.least?) == some 0

/-- Zero is not the smallest value. -/
def lacksZero (d : Domain) : Except Fault Bool := do
  return !(← d.hasZero)

/-- The values are zero and one. -/
def isBool : Domain → Bool
  | .mask m => m == 3#32
  | _ => false

/-- Zero and another value are members, so that the truth value is open. -/
def isUndecided : Domain → Bool
  | .mask m => m.contains 0
  | .intervals s => s.head?.any fun r => r.lo == 0
  | _ => false

/-- The values are zero and one other. -/
def isZeroPair (d : Domain) : Except Fault Bool := do
  if d.isUndecided then return (← d.size) == 2 else return false

/-- The first member in the order of the list. -/
def firstMember? (d : Domain) (candidates : List Nat) : Option Nat := candidates.find? d.contains

/-- The position among the runs of the one that covers a value. -/
def locate? (d : Domain) (v : Nat) : Except Fault (Option Nat) := do
  return Intervals.locate? v (← d.toIntervals)

/-- The form's name with the runs behind it; of one value the value. -/
def text (d : Domain) : Except Fault String :=
  match d with
  | .empty => .ok "empty"
  | .single v => .ok s!"solved({v})"
  | _ => do
    return d.kind ++ "(" ++ String.intercalate "," ((← d.toIntervals).map Interval.text) ++ ")"

end IntegerDomains.Domain

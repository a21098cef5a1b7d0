import IntegerDomains.Arithmetic.Pairwise
import IntegerDomains.Domain.Build
import IntegerDomains.Domain.Validity
import IntegerDomains.Intervals.Bridging

namespace IntegerDomains

/-- The sums of two masks: one copy of `b` shifted up by each member of `a`. -/
def Mask.sums (a b : Mask) : Mask := a.values.foldl (fun out v => out ||| b <<< v) 0#32

/-- The sums of two intervals, without those above `maxValue`. -/
def IntervalRule.sum : IntervalRule := fun r s => do
  let lo ← Word.add r.lo s.lo
  if maxValue < lo then return none
  else return some ⟨lo, min (← Word.add r.hi s.hi) maxValue⟩

namespace Domain

/-- The sums by intervals, with all gaps bridged that no sum falls into. -/
def sumByIntervals (d e : Domain) : Except Fault Domain := do
  let (a, b) ← Intervals.bridgeBoth (← d.copyIntervals) (← e.copyIntervals)
  IntervalRule.sum.combine a b

/-- The sums by masks, if the largest of them fits one. -/
def sumByMasks? (d e : Domain) : Except Fault (Option Domain) :=
  match d.asMask?, e.asMask? with
  | some a, some b => do
    if (← a.greatest) + (← b.greatest) ≤ maskMax then return some (← ofMask (a.sums b))
    else return none
  | _, _ => .ok none

/-- The sums by the way that the operands admit. -/
def sums (d e : Domain) : Except Fault Domain :=
  if d.isEmpty || e.isEmpty then .ok .empty
  else do
    match ← sumByMasks? d e with
    | some small => return small
    | none => sumByIntervals d e

/-- Every sum of a member of `d` and a member of `e` that is at most `maxValue`. -/
def add (d e : Domain) : Except Fault Domain := checkBinary .sum sums d e

/-- Every sum of a member and the value. -/
def addValue (d : Domain) (v : Nat) : Except Fault Domain := do
  d.add (← ofValue v)

end Domain

end IntegerDomains

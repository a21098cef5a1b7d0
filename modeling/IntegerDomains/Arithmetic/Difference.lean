import IntegerDomains.Arithmetic.Pairwise
import IntegerDomains.Domain.Build
import IntegerDomains.Domain.Validity
import IntegerDomains.Intervals.Bridging

namespace IntegerDomains

/-- The differences of two masks: one copy of `a` shifted down by each member of `b`, which drops
    the negative ones. -/
def Mask.differences (a b : Mask) : Mask := b.values.foldl (fun out v => out ||| a >>> v) 0#32

/-- The differences of two intervals, without the negative ones. -/
def IntervalRule.difference : IntervalRule := fun r s => do
  if r.hi < s.lo then return none
  else return some ⟨r.lo - s.hi, ← Word.sub r.hi s.lo⟩

namespace Domain

/-- The differences by intervals, with all gaps bridged that no difference falls into. -/
def differenceByIntervals (d e : Domain) : Except Fault Domain := do
  let (a, b) ← Intervals.bridgeBoth (← d.copyIntervals) (← e.copyIntervals)
  IntervalRule.difference.combine a b

/-- The differences by masks, if both domains fit one. -/
def differenceByMasks? (d e : Domain) : Except Fault (Option Domain) :=
  match d.asMask?, e.asMask? with
  | some a, some b => do return some (← ofMask (a.differences b))
  | _, _ => .ok none

/-- The differences by the way that the operands admit. -/
def differences (d e : Domain) : Except Fault Domain :=
  if e.isEmpty then .ok .empty
  else do
    match ← d.greatest? with
    | none => return .empty
    | some largest =>
      if (← d.hasZero) && (← e.hasZero) then ofBounds 0 largest
      else match ← differenceByMasks? d e with
        | some small => return small
        | none => differenceByIntervals d e

/-- Every difference of a member of `d` and a member of `e` that is not negative; of two domains
    with zero, every value up to the largest of `d`. -/
def sub (d e : Domain) : Except Fault Domain := checkBinary .difference differences d e

/-- Every difference of a member and the value. -/
def subValue (d : Domain) (v : Nat) : Except Fault Domain := do
  d.sub (← ofValue v)

end Domain

end IntegerDomains

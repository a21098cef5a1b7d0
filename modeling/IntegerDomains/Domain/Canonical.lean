import IntegerDomains.Intervals.Separated
import IntegerDomains.Mask.Runs

namespace IntegerDomains.Domain

/-- The smallest form of a mask whose members are at most `maskMax`. -/
def ofMask (m : Mask) : Except Fault Domain :=
  if m &&& ~~~Mask.full ≠ 0#32 then .error (.malformed (.maskOverflow m))
  else if m = 0#32 then .ok .empty
  else match m.sole? with
    | some v => .ok (.single v)
    | none => .ok (.mask m)

/-- The first form that can hold the values of a separated sequence. -/
def ofRuns : List Interval → Except Fault Domain
  | [] => .ok .empty
  | r :: rest =>
    if rest.isEmpty && r.isSingle then .ok (.single r.lo)
    else if ((r :: rest).getLast (List.cons_ne_nil r rest)).hi ≤ maskMax then do
      return .mask (← Mask.ofIntervals (r :: rest))
    else .ok (.intervals (r :: rest))

/-- The smallest form of a sequence that has to be separated. -/
def ofSeparated (s : List Interval) : Except Fault Domain :=
  if Intervals.isSeparated s then ofRuns s else .error (.unseparated s)

/-- The smallest form of any sequence of intervals. -/
def ofIntervals (s : List Interval) : Except Fault Domain :=
  if s.isEmpty then .ok .empty
  else do ofSeparated (← Intervals.separate s)

/-- The smallest form of the stored data. -/
def compact : Domain → Except Fault Domain
  | .empty => .ok .empty
  | .single v => .ok (.single v)
  | .mask m => ofMask m
  | .intervals s => ofIntervals s

/-- The values as a sequence of intervals; a stored sequence is answered as it is. -/
def toIntervals : Domain → Except Fault (List Interval)
  | .empty => .ok []
  | .single v => .ok [Interval.single v]
  | .mask m => m.runs
  | .intervals s => .ok s

/-- The values as a sequence of intervals that its receiver may change; a stored one is copied. -/
def copyIntervals : Domain → Except Fault (List Interval)
  | .empty => .ok []
  | .single v => .ok [Interval.single v]
  | .mask m => m.runs
  | .intervals s => .ok s

/-- Lent or copied, the runs are the same. -/
theorem copyIntervals_eq (d : Domain) : d.copyIntervals = d.toIntervals := by
  cases d with
  | empty => rfl
  | single v => rfl
  | mask m => rfl
  | intervals s => rfl

end IntegerDomains.Domain

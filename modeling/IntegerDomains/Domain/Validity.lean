import IntegerDomains.Intervals.Separated

namespace IntegerDomains.Domain

/-- The stored data are the smallest form of a set of values up to `maxValue`. -/
def Valid : Domain → Prop
  | .empty => True
  | .single v => v ≤ maxValue
  | .mask m =>
    (∀ v ∈ Domain.mask m, v ≤ maskMax) ∧ ∃ v ∈ Domain.mask m, ∃ w ∈ Domain.mask m, v ≠ w
  | .intervals s =>
    Intervals.Separated s ∧ (∀ v ∈ Domain.intervals s, v ≤ maxValue) ∧
      (∃ v ∈ Domain.intervals s, maskMax < v) ∧
      ∃ v ∈ Domain.intervals s, ∃ w ∈ Domain.intervals s, v ≠ w

/-- The first defect of a sequence whose next interval stands at `index` behind `previous`. -/
def sequenceDefect? (index : Nat) (previous : Option Interval) :
    List Interval → Except Fault (Option Defect)
  | [] => .ok none
  | r :: rest =>
    if r.hi < r.lo then .ok (some (.inverted r.lo r.hi))
    else if maxValue < r.hi then .ok (some (.outOfBounds r.hi))
    else match previous with
      | none => sequenceDefect? (index + 1) (some r) rest
      | some before =>
        if r.lo ≤ before.hi then .ok (some (.unsorted index))
        else do
          let reach ← Word.add before.hi 1
          if r.lo = reach then return some (.unmerged index)
          else sequenceDefect? (index + 1) (some r) rest

/-- The smaller form in which a separated sequence ought to be stored. -/
def formDefect? (s : List Interval) (last : Interval) : Option Defect :=
  match s with
  | [r] => if r.isSingle then some (.unsolved r.lo) else largestDefect? last
  | _ => largestDefect? last
where
  /-- The largest value fits a mask. -/
  largestDefect? (last : Interval) : Option Defect :=
    if last.hi ≤ maskMax then some (.maskable last.hi) else none

/-- The first defect of the stored data. -/
def defect? : Domain → Except Fault (Option Defect)
  | .empty => .ok none
  | .single v => .ok (if maxValue < v then some (.outOfBounds v) else none)
  | .mask m =>
    .ok (if m &&& ~~~Mask.full ≠ 0#32 then some (.maskOverflow m)
      else if m = 0#32 then some .noMembers
      else if m.count = 1 then some (.unsolved m.lowest)
      else none)
  | .intervals s =>
    match s.getLast? with
    | none => .ok (some .noIntervals)
    | some last => do
      match ← sequenceDefect? 0 none s with
      | some defect => return some defect
      | none => return formDefect? s last

/-- Refuse a domain that is not well formed. -/
def validate (d : Domain) : Except Refusal Unit := do
  match ← d.defect?.mapError Refusal.failed with
  | some defect => throw (.rejected defect)
  | none => return ()

/-- Fault a malformed operand of an operation. -/
def checkOperand (op : Operation) (d : Domain) : Except Fault Unit := do
  match ← d.defect? with
  | some defect => throw (.operand op d defect)
  | none => return ()

/-- Answer the result of an operation, unless it is malformed. -/
def checkResult (op : Operation) (d : Domain) : Except Fault Domain := do
  match ← d.defect? with
  | some defect => throw (.result op d defect)
  | none => return d

/-- Run an operation on one domain between the checks of its operand and of its result. -/
def checkUnary (op : Operation) (run : Domain → Except Fault Domain) (d : Domain) :
    Except Fault Domain := do
  checkOperand op d
  checkResult op (← run d)

/-- Run an operation on two domains between the checks of its operands and of its result. -/
def checkBinary (op : Operation) (run : Domain → Domain → Except Fault Domain) (d e : Domain) :
    Except Fault Domain := do
  checkOperand op d
  checkOperand op e
  checkResult op (← run d e)

end IntegerDomains.Domain

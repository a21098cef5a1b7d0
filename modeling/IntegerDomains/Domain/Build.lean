import IntegerDomains.Domain.Query

namespace IntegerDomains.Domain

/-- The domain of one value. -/
def ofValue (v : Nat) : Except Fault Domain :=
  if v ≤ maxValue then .ok (.single v) else .error (.malformed (.outOfBounds v))

/-- The domain of all values from `lo` to `hi`. -/
def ofBounds (lo hi : Nat) : Except Fault Domain :=
  if hi < lo then .error (.malformed (.inverted lo hi))
  else if maxValue < hi then .error (.malformed (.outOfBounds hi))
  else if lo = hi then .ok (.single lo)
  else if hi ≤ maskMax then do return .mask (← Mask.ofBounds lo hi)
  else .ok (.intervals [⟨lo, hi⟩])

/-- The domain of all values from `lo` to `hi` that a domain may hold. -/
def ofBoundsWithin (lo hi : Int) : Except Fault Domain :=
  if hi < minValue ∨ maxValue < lo ∨ hi < lo then .ok .empty
  else ofBounds (max lo minValue).toNat (min hi maxValue).toNat

/-- The domain of zero and `v`. -/
def zeroAnd (v : Nat) : Except Fault Domain :=
  if v = 0 then ofValue 0
  else if v = 1 then ofBounds 0 1
  else if maxValue < v then .error (.malformed (.outOfBounds v))
  else ofSeparated [Interval.single 0, Interval.single v]

/-- Extend `last`, or begin a new interval behind it, by each of the ascending values. -/
def gatherFrom (last : Interval) : List Nat → Except Fault (List Interval)
  | [] => .ok [last]
  | v :: rest =>
    if maxValue < v then .error (.malformed (.outOfBounds v))
    else do
      let reach ← Word.add last.hi 1
      if v ≤ reach then gatherFrom ⟨last.lo, max last.hi v⟩ rest
      else return last :: (← gatherFrom (Interval.single v) rest)

/-- The runs of ascending values. -/
def gather : List Nat → Except Fault (List Interval)
  | [] => .ok []
  | v :: rest =>
    if maxValue < v then .error (.malformed (.outOfBounds v))
    else gatherFrom (Interval.single v) rest

/-- The domain of the listed values, which may come in any order and repeat. -/
def ofList (values : List Nat) : Except Fault Domain := do
  ofSeparated (← gather (values.mergeSort fun v w => decide (v ≤ w)))

/-- The interval of a pair of bounds. -/
def intervalOfPair (pair : Nat × Nat) : Except Defect Interval :=
  if pair.2 < pair.1 then .error (.inverted pair.1 pair.2)
  else if maxValue < pair.2 then .error (.outOfBounds pair.2)
  else .ok ⟨pair.1, pair.2⟩

/-- The domain of all values that some pair of bounds covers. The first defective pair
    is refused. -/
def tryOfPairs (pairs : List (Nat × Nat)) : Except Refusal Domain := do
  let s ← (pairs.mapM intervalOfPair).mapError Refusal.rejected
  (ofIntervals s).mapError Refusal.failed

/-- The domain of all values that some pair of bounds covers, where a defective pair is a fault. -/
def ofPairs (pairs : List (Nat × Nat)) : Except Fault Domain :=
  (tryOfPairs pairs).mapError fun
    | .rejected defect => .pairs defect
    | .failed fault => fault

/-- The bounds of the runs. -/
def toPairs (d : Domain) : Except Fault (List (Nat × Nat)) := do
  return (← d.toIntervals).map fun r => (r.lo, r.hi)

/-- The domain of all values up to the largest one. -/
def fill : Domain → Except Fault Domain
  | .empty => .ok .empty
  | .mask m => do ofMask (← m.fill)
  | d => do
    match ← d.greatest? with
    | some v => ofBounds 0 v
    | none => return .empty

end IntegerDomains.Domain

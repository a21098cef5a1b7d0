import IntegerDomains.Intervals.Measure

namespace IntegerDomains.Intervals

/-- The values below `v`. -/
def below (v : Nat) : List Interval → List Interval
  | [] => []
  | r :: rest =>
    if v ≤ r.lo then []
    else if v ≤ r.hi then [⟨r.lo, v - 1⟩]
    else r :: below v rest

/-- The values above `v`. -/
def above (v : Nat) : List Interval → List Interval
  | [] => []
  | r :: rest =>
    if r.hi ≤ v then above v rest
    else if r.lo ≤ v then ⟨v + 1, r.hi⟩ :: rest
    else r :: rest

/-- The sequence with `v` cut out of the interval at a position. -/
def cutAt (index v : Nat) (s : List Interval) : List Interval :=
  s.take index ++ (s[index]?.toList.flatMap fun r => r.without v) ++ s.drop (index + 1)

/-- The common part of two intervals, if there is one. -/
def common (r s : Interval) : List Interval :=
  if max r.lo s.lo ≤ min r.hi s.hi then [⟨max r.lo s.lo, min r.hi s.hi⟩] else []

/-- The values of both sequences, found by leaving behind the interval that ends first. -/
def meet : List Interval → List Interval → List Interval
  | r :: a, s :: b =>
    common r s ++
      (if r.hi < s.hi then meet a (s :: b)
      else if s.hi < r.hi then meet (r :: a) b
      else meet a b)
  | _, _ => []
termination_by a b => a.length + b.length

/-- The sequences have a value in common; the search ends at the first overlap. -/
def meets : List Interval → List Interval → Bool
  | r :: a, s :: b =>
    if r.overlaps s then true
    else if r.hi < s.hi then meets a (s :: b)
    else meets (r :: a) b
  | _, _ => false
termination_by a b => a.length + b.length

end IntegerDomains.Intervals

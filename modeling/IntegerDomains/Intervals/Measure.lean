import IntegerDomains.Word

namespace IntegerDomains

/-- The number of values: one more than the upper bound, less the lower one. -/
def Interval.size (r : Interval) : Except Fault Nat := do
  Word.sub (← Word.add 1 r.hi) r.lo

/-- The interval with these bounds, which have to be in order. -/
def Interval.ofBounds (lo hi : Nat) : Except Fault Interval :=
  if lo ≤ hi then .ok ⟨lo, hi⟩ else .error .bounds

namespace Intervals

/-- The sizes of all intervals added up. -/
def size (s : List Interval) : Except Fault Nat :=
  s.foldlM (fun total r => do Word.add total (← r.size)) 0

/-- The size of the narrowest interval, `maxValue` if there is none. -/
def narrowest (s : List Interval) : Except Fault Nat := do
  return (← s.mapM Interval.size).min?.getD maxValue

/-- The lower bound of the first interval. -/
def least? (s : List Interval) : Option Nat := s.head?.map Interval.lo

/-- The upper bound of the last interval. -/
def greatest? (s : List Interval) : Option Nat := s.getLast?.map Interval.hi

/-- The position of the interval that covers a value, sought up to the first one that
    starts beyond it. -/
def locate? (v : Nat) : List Interval → Option Nat
  | [] => none
  | r :: rest =>
    if v < r.lo then none
    else if v ≤ r.hi then some 0
    else (locate? v rest).map (· + 1)

/-- The value at a zero-based position, for a sequence whose intervals are laid end to end. -/
def nth? (position : Nat) : List Interval → Except Fault (Option Nat)
  | [] => .ok none
  | r :: rest => do
    let width ← r.size
    if position < width then
      return some (← Word.add r.lo position)
    else
      nth? (← Word.sub position width) rest

/-- The values of each interval in turn. -/
def values (s : List Interval) : List Nat :=
  s.flatMap fun r => List.range' r.lo (r.hi + 1 - r.lo)

end Intervals

end IntegerDomains

import IntegerDomains.Intervals.Measure

/-!
The sums and the differences of two intervals are at least as wide as either of them. So a gap of
one sequence that is no wider than the narrowest interval of the other vanishes from the result, and
it may be bridged beforehand.
-/

namespace IntegerDomains.Intervals

/-- Join to `current` the successors whose distance is at most `gap`, and go on behind them. -/
def bridgeFrom (gap : Nat) (current : Interval) : List Interval → List Interval
  | [] => [current]
  | r :: rest =>
    if gap < r.lo - current.hi then current :: bridgeFrom gap r rest
    else bridgeFrom gap ⟨current.lo, r.hi⟩ rest

/-- Join all neighbours whose distance is at most `gap`. -/
def bridge (gap : Nat) : List Interval → List Interval
  | [] => []
  | r :: rest => bridgeFrom gap r rest

/-- Bridge a sequence of several intervals by the narrowest interval of the other side. -/
def bridgeBy (other s : List Interval) : Except Fault (List Interval) := do
  if 1 < s.length then return bridge (← narrowest other) s else return s

/-- Bridge either side by the other one until no gap is bridged any more: a bridged gap can widen
    the narrowest interval. -/
def settle (a b : List Interval) : Except Fault (List Interval × List Interval) := do
  let a' ← bridgeBy b a
  let b' ← bridgeBy a' b
  if a'.length + b'.length < a.length + b.length then settle a' b' else return (a', b')
termination_by a.length + b.length

/-- Bridge the gaps of two operands; beside an empty one there is nothing to bridge. -/
def bridgeBoth (a b : List Interval) : Except Fault (List Interval × List Interval) :=
  if a.isEmpty || b.isEmpty then .ok (a, b) else settle a b

end IntegerDomains.Intervals

import IntegerDomains.Domain.Build

namespace IntegerDomains

namespace Packed

/-- The high and the low word of a bound. -/
def ofValue (v : Nat) : UInt16 × UInt16 := (UInt16.ofNat (v / 65536), UInt16.ofNat v)

/-- The bound of a high and a low word. -/
def toValue (high low : UInt16) : Nat := high.toNat * 65536 + low.toNat

/-- The four words of an interval. -/
def ofInterval (r : Interval) : List UInt16 :=
  [(ofValue r.lo).1, (ofValue r.lo).2, (ofValue r.hi).1, (ofValue r.hi).2]

/-- The interval of four words, with its bounds in any order. -/
def toInterval (a b c d : UInt16) : Interval := ⟨toValue a b, toValue c d⟩

/-- The words of all intervals in turn. -/
def ofIntervals (s : List Interval) : List UInt16 := s.flatMap ofInterval

/-- The intervals of the words in groups of four, up to the first group that is inverted. -/
def groups : List UInt16 → Except Defect (List Interval)
  | a :: b :: c :: d :: rest =>
    let r := toInterval a b c d
    if r.hi < r.lo then .error (.inverted r.lo r.hi)
    else do return r :: (← groups rest)
  | _ => .ok []

/-- The intervals of packed words, in stored order. -/
def toIntervals (words : List UInt16) : Except Defect (List Interval) :=
  if words.length % 4 ≠ 0 then .error (.packedLength words.length) else groups words

end Packed

namespace Domain

/-- The packed runs. -/
def toPacked (d : Domain) : Except Fault (List UInt16) := do
  return Packed.ofIntervals (← d.toIntervals)

/-- The domain of all values that some packed interval covers. -/
def ofPacked (words : List UInt16) : Except Refusal Domain := do
  let s ← (Packed.toIntervals words).mapError Refusal.rejected
  match s.find? fun r => decide (maxValue < r.hi) with
  | some r => throw (.rejected (.outOfBounds r.hi))
  | none => (ofIntervals s).mapError Refusal.failed

end Domain

end IntegerDomains

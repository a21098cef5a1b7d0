import IntegerDomains.Domain.Query
import IntegerDomains.Domain.Validity
import IntegerDomains.Intervals.Cutting

namespace IntegerDomains.Domain

/-- The intervals without a value that the one at `index` covers. One value left over is answered at
    once; all else is cut and brought into its smallest form. -/
def eraseAt (s : List Interval) (index v : Nat) : Except Fault Domain :=
  match s with
  | [r] =>
    if r.isSingle then .ok .empty
    else if r.hi - r.lo = 1 then .ok (.single (if v = r.lo then r.hi else r.lo))
    else ofSeparated (Intervals.cutAt index v [r])
  | [r, next] =>
    if r.isSingle && next.isSingle then .ok (.single (if index = 0 then next.lo else r.lo))
    else ofSeparated (Intervals.cutAt index v [r, next])
  | _ => ofSeparated (Intervals.cutAt index v s)

/-- The members other than the value, by the form of the domain. -/
def others (v : Nat) : Domain → Except Fault Domain
  | .empty => .ok .empty
  | .single w => .ok (if w = v then .empty else .single w)
  | .mask m => if maskMax < v then .ok (.mask m) else ofMask (m &&& ~~~Mask.bit v)
  | .intervals s =>
    match Intervals.locate? v s with
    | none => .ok (.intervals s)
    | some index => eraseAt s index v

/-- The domain without the value. -/
def erase (d : Domain) (v : Nat) : Except Fault Domain := checkUnary .removeValue (others v) d

/-- The members below the threshold, by the form of the domain. -/
def lower (v : Nat) : Domain → Except Fault Domain
  | .empty => .ok .empty
  | .single w => .ok (if v ≤ w then .empty else .single w)
  | .mask m => if maskMax < v then .ok (.mask m) else ofMask (m &&& Mask.below v)
  | .intervals s => ofSeparated (Intervals.below v s)

/-- The members below a threshold of at most `maxValue + 1`. -/
def below (d : Domain) (v : Nat) : Except Fault Domain :=
  if maxValue + 1 < v then .error (.threshold .removeFrom v)
  else checkUnary .removeFrom (lower v) d

/-- The members above the threshold, by the form of the domain. -/
def upper (v : Nat) : Domain → Except Fault Domain
  | .empty => .ok .empty
  | .single w => .ok (if w ≤ v then .empty else .single w)
  | .mask m => if maskMax < v then .ok .empty else ofMask (m &&& Mask.above v)
  | .intervals s => ofSeparated (Intervals.above v s)

/-- The members above a threshold of at most `maxValue + 1`. -/
def above (d : Domain) (v : Nat) : Except Fault Domain :=
  if maxValue + 1 < v then .error (.threshold .removeUpTo v)
  else checkUnary .removeUpTo (upper v) d

/-- The members from any threshold on. -/
def atLeast (d : Domain) (t : Int) : Except Fault Domain :=
  if t ≤ 0 then .ok d
  else if maxValue < t then .ok .empty
  else d.above (t - 1).toNat

/-- The members up to any threshold. -/
def atMost (d : Domain) (t : Int) : Except Fault Domain :=
  if maxValue ≤ t then .ok d
  else if t < 0 then .ok .empty
  else d.below (t + 1).toNat

/-- The members that have the given truth value. -/
def resolve (d : Domain) (truth : Bool) : Except Fault Domain :=
  if truth then d.erase 0 else d.atMost 0

end IntegerDomains.Domain

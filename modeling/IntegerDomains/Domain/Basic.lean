import IntegerDomains.Interval
import IntegerDomains.Mask.Basic

/-!
The type of domains holds every way to fill a form in, also those that no operation builds; which of
them are well formed is `Domain.Valid`.
-/

namespace IntegerDomains

/-- A finite set of values. -/
inductive Domain
  /-- No value at all. -/
  | empty
  /-- One value. -/
  | single (v : Nat)
  /-- The set bits of a word. -/
  | mask (m : Mask)
  /-- The values of a sequence of intervals. -/
  | intervals (s : List Interval)
deriving DecidableEq

namespace Domain

/-- A value is a member when the stored data cover it. -/
instance : Membership Nat Domain where
  mem d v := match d with
    | .empty => False
    | .single w => v = w
    | .mask m => m.getLsbD v = true
    | .intervals s => ∃ r ∈ s, v ∈ r

theorem mem_empty {v : Nat} : v ∈ Domain.empty ↔ False := Iff.rfl

theorem mem_single {v w : Nat} : v ∈ Domain.single w ↔ v = w := Iff.rfl

theorem mem_mask {v : Nat} {m : Mask} : v ∈ Domain.mask m ↔ m.getLsbD v = true := Iff.rfl

theorem mem_intervals {v : Nat} {s : List Interval} :
    v ∈ Domain.intervals s ↔ ∃ r ∈ s, v ∈ r := Iff.rfl

instance (d : Domain) (v : Nat) : Decidable (v ∈ d) :=
  match d with
  | .empty => isFalse mem_empty.mp
  | .single w => inferInstanceAs (Decidable (v = w))
  | .mask m => inferInstanceAs (Decidable (m.getLsbD v = true))
  | .intervals s => inferInstanceAs (Decidable (∃ r ∈ s, v ∈ r))

/-- A domain is a subset of another one when its members are members there. -/
instance : HasSubset Domain where
  Subset d e := ∀ v, v ∈ d → v ∈ e

/-- The name of the form. -/
def kind : Domain → String
  | .empty => "empty"
  | .single _ => "solved"
  | .mask _ => "bitset"
  | .intervals _ => "ranges"

/-- The stored data as a record. -/
def record : Domain → String
  | .empty => "Empty"
  | .single v => s!"Solved({v})"
  | .mask m => s!"Bitset({m.toNat})"
  | .intervals s => s!"Ranges({recordAll s})"
where
  /-- The records of a sequence in square brackets. -/
  recordAll (s : List Interval) : String :=
    "[" ++ String.intercalate ", " (s.map Interval.record) ++ "]"

end Domain

end IntegerDomains

/-!
The bounds of an interval are free: one whose lower bound exceeds its upper bound holds no value,
and whether such an interval may occur is for its user to say.
-/

namespace IntegerDomains

/-- The values from `lo` to `hi`, both included. -/
structure Interval where
  lo : Nat
  hi : Nat
deriving DecidableEq

namespace Interval

/-- A value is a member when it lies between the bounds. -/
instance : Membership Nat Interval where
  mem r v := r.lo ≤ v ∧ v ≤ r.hi

theorem mem_iff {r : Interval} {v : Nat} : v ∈ r ↔ r.lo ≤ v ∧ v ≤ r.hi := Iff.rfl

instance (r : Interval) (v : Nat) : Decidable (v ∈ r) :=
  inferInstanceAs (Decidable (r.lo ≤ v ∧ v ≤ r.hi))

/-- The interval of one value. -/
def single (v : Nat) : Interval := ⟨v, v⟩

/-- Both bounds are the same value. -/
def isSingle (r : Interval) : Bool := r.lo == r.hi

theorem isSingle_iff {r : Interval} : r.isSingle = true ↔ r.lo = r.hi := beq_iff_eq

theorem isSingle_single (v : Nat) : (single v).isSingle = true := beq_self_eq_true v

/-- The value lies between the bounds. -/
def contains (r : Interval) (v : Nat) : Bool := decide (r.lo ≤ v) && decide (v ≤ r.hi)

/-- Each interval starts no later than the other ends. -/
def overlaps (r s : Interval) : Bool := decide (r.lo ≤ s.hi) && decide (s.lo ≤ r.hi)

/-- Intervals are ordered by their lower bounds, and equal lower bounds by the upper ones. -/
protected def compare (r s : Interval) : Ordering :=
  (compare r.lo s.lo).then (compare r.hi s.hi)

/-- The order of `Interval.compare`, strictly. -/
instance : LT Interval where
  lt r s := r.lo < s.lo ∨ r.lo = s.lo ∧ r.hi < s.hi

/-- The order of `Interval.compare`. -/
instance : LE Interval where
  le r s := r.lo < s.lo ∨ r.lo = s.lo ∧ r.hi ≤ s.hi

instance (r s : Interval) : Decidable (r < s) :=
  inferInstanceAs (Decidable (r.lo < s.lo ∨ r.lo = s.lo ∧ r.hi < s.hi))

instance (r s : Interval) : Decidable (r ≤ s) :=
  inferInstanceAs (Decidable (r.lo < s.lo ∨ r.lo = s.lo ∧ r.hi ≤ s.hi))

theorem lt_iff {r s : Interval} : r < s ↔ r.lo < s.lo ∨ r.lo = s.lo ∧ r.hi < s.hi := Iff.rfl

theorem le_iff {r s : Interval} : r ≤ s ↔ r.lo < s.lo ∨ r.lo = s.lo ∧ r.hi ≤ s.hi := Iff.rfl

theorem le_trans {r s t : Interval} (first : r ≤ s) (second : s ≤ t) : r ≤ t := by
  simp only [le_iff] at *
  omega

/-- Two intervals are ordered one way, equal, or ordered the other way. -/
theorem lt_or_eq_or_gt (r s : Interval) : r < s ∨ r = s ∨ s < r := by
  obtain ⟨a, b⟩ := r
  obtain ⟨c, d⟩ := s
  simp only [lt_iff, Interval.mk.injEq]
  omega

theorem contains_iff {r : Interval} {v : Nat} : r.contains v = true ↔ v ∈ r := by
  simp [contains, mem_iff]

/-- Two intervals of values overlap exactly if they have a value in common. -/
theorem overlaps_iff {r s : Interval} (left : r.lo ≤ r.hi) (right : s.lo ≤ s.hi) :
    r.overlaps s = true ↔ ∃ v, v ∈ r ∧ v ∈ s := by
  simp only [overlaps, Bool.and_eq_true, decide_eq_true_eq, mem_iff]
  constructor
  · intro inOrder
    exact ⟨max r.lo s.lo, by omega, by omega⟩
  · rintro ⟨v, inR, inS⟩
    omega

/-- The parts of `r` on either side of the member `v`. -/
def without (r : Interval) (v : Nat) : List Interval :=
  (if r.lo < v then [⟨r.lo, v - 1⟩] else []) ++ (if v < r.hi then [⟨v + 1, r.hi⟩] else [])

theorem mem_without {r : Interval} {v w : Nat} (member : v ∈ r) :
    (∃ part ∈ r.without v, w ∈ part) ↔ w ∈ r ∧ w ≠ v := by
  simp only [mem_iff] at member
  by_cases lower : r.lo < v <;> by_cases upper : v < r.hi <;>
    simp [without, lower, upper, mem_iff] <;> omega

/-- Nothing is left of one value. -/
theorem without_of_isSingle {r : Interval} {v : Nat} (one : r.isSingle = true) (member : v ∈ r) :
    r.without v = [] := by
  rw [isSingle_iff] at one
  rw [mem_iff] at member
  rw [without, if_neg (by omega), if_neg (by omega), List.append_nil]

/-- The other one is left of two values. -/
theorem without_of_pair {r : Interval} {v : Nat} (pair : r.hi - r.lo = 1) (member : v ∈ r) :
    r.without v = [single (if v = r.lo then r.hi else r.lo)] := by
  rw [mem_iff] at member
  by_cases first : v = r.lo
  · have next : v + 1 = r.hi := by omega
    rw [without, if_neg (by omega), if_pos (by omega), if_pos first, next]
    rfl
  · have before : v - 1 = r.lo := by omega
    rw [without, if_pos (by omega), if_neg (by omega), if_neg first, before]
    rfl

/-- The bounds in brackets. -/
def text (r : Interval) : String := s!"[{r.lo},{r.hi}]"

/-- The bounds under their names. -/
def record (r : Interval) : String :=
  "Range \x7b lo: " ++ toString r.lo ++ ", hi: " ++ toString r.hi ++ " \x7d"

end Interval

end IntegerDomains

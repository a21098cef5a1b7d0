import IntegerDomains.Arithmetic.Product
import IntegerDomains.Proofs.Combination

namespace IntegerDomains

open Intervals

/-- No product of values that a domain may hold leaves the wide word. -/
theorem mul_values_eq_ok {a b : Nat} (left : a ≤ maxValue) (right : b ≤ maxValue) :
    Word.mul a b = .ok (a * b) :=
  Word.mul_eq_ok (Nat.le_trans (Nat.mul_le_mul left right) (by decide))

private theorem cappedProduct_eq {a b : Nat} (left : a ≤ maxValue) (right : b ≤ maxValue) :
    cappedProduct a b = .ok (min (a * b) maxValue) := by
  rw [cappedProduct, mul_values_eq_ok left right]
  rfl

theorem IntervalRule.product_answers {r s : Interval} (left : r.lo ≤ r.hi ∧ r.hi ≤ maxValue)
    (right : s.lo ≤ s.hi ∧ s.hi ≤ maxValue) :
    IntervalRule.product.Answers r s fun w =>
      min (r.lo * s.lo) maxValue ≤ w ∧ w ≤ min (r.hi * s.hi) maxValue := by
  have lower : cappedProduct r.lo s.lo = .ok (min (r.lo * s.lo) maxValue) :=
    cappedProduct_eq (Nat.le_trans left.1 left.2) (Nat.le_trans right.1 right.2)
  have upper : cappedProduct r.hi s.hi = .ok (min (r.hi * s.hi) maxValue) :=
    cappedProduct_eq left.2 right.2
  refine ⟨some ⟨min (r.lo * s.lo) maxValue, min (r.hi * s.hi) maxValue⟩, ?_, ?_, fun w => ?_⟩
  · rw [product, lower]
    simp only [bind, Except.bind, upper]
    rfl
  · rintro p equal
    obtain rfl := Option.some.inj equal
    have grows : r.lo * s.lo ≤ r.hi * s.hi := Nat.mul_le_mul left.1 right.1
    simp only
    omega
  · simp only [Option.some.injEq, exists_eq_left', Interval.mem_iff]

namespace Domain

/-- The product has what the pairs of runs contribute. -/
theorem mul_denotes {d e : Domain} (dValid : d.Valid) (eValid : e.Valid) :
    ∃ a b, d.toIntervals = .ok a ∧ e.toIntervals = .ok b ∧ ∃ r, d.mul e = .ok r ∧
      r.Denotes fun w => ∃ p ∈ a, ∃ q ∈ b,
        min (p.lo * q.lo) maxValue ≤ w ∧ w ≤ min (p.hi * q.hi) maxValue := by
  obtain ⟨a, left, aProper, aCovers⟩ := dValid.toIntervals_proper
  obtain ⟨b, right, bProper, bCovers⟩ := eValid.toIntervals_proper
  refine ⟨a, b, left, right, checkBinary_denotes dValid eValid ?_⟩
  rw [products]
  split
  · next nothing =>
    rw [Bool.or_eq_true, isEmpty_iff, isEmpty_iff] at nothing
    refine ⟨.empty, rfl, denotes_empty ?_⟩
    rintro w ⟨p, inLeft, q, inRight, _⟩
    rcases nothing with rfl | rfl
    · exact mem_empty.mp ((aCovers p.lo).mp ⟨p, inLeft, Nat.le_refl _, (aProper.mem inLeft).1⟩)
    · exact mem_empty.mp ((bCovers q.lo).mp ⟨q, inRight, Nat.le_refl _, (bProper.mem inRight).1⟩)
  · rw [left, right]
    exact IntervalRule.combine_denotes fun r inLeft s inRight =>
      IntervalRule.product_answers (aProper.mem inLeft) (bProper.mem inRight)

/-- A product of two members lies between the smallest and the largest one of their runs. -/
theorem mul_holds_products {d e : Domain} (dValid : d.Valid) (eValid : e.Valid) :
    ∃ r, d.mul e = .ok r ∧ r.Valid ∧ ∀ x ∈ d, ∀ y ∈ e, min (x * y) maxValue ∈ r := by
  obtain ⟨a, b, left, right, r, executed, denotes⟩ := mul_denotes dValid eValid
  obtain ⟨_, aCovers⟩ := dValid.runs_proper left
  obtain ⟨_, bCovers⟩ := eValid.runs_proper right
  refine ⟨r, executed, denotes.valid, ?_⟩
  intro x inLeft y inRight
  obtain ⟨p, inRuns, start, stop⟩ := (aCovers x).mpr inLeft
  obtain ⟨q, inOther, otherStart, otherStop⟩ := (bCovers y).mpr inRight
  have lower : p.lo * q.lo ≤ x * y := Nat.mul_le_mul start otherStart
  have upper : x * y ≤ p.hi * q.hi := Nat.mul_le_mul stop otherStop
  exact (denotes.mem_iff _).mpr ⟨p, inRuns, q, inOther, by omega, by omega⟩

end Domain

end IntegerDomains

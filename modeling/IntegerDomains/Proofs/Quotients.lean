import IntegerDomains.Arithmetic.Quotient
import IntegerDomains.Proofs.Combination
import Mathlib.Algebra.Order.Floor.Div

namespace IntegerDomains

open Intervals

theorem ceilDiv_eq (a b : Nat) : ceilDiv a b = a ⌈/⌉ b := (Nat.ceilDiv_eq_add_pred_div a b).symm

theorem ceilDiv_le_iff {a b w : Nat} (positive : 0 < b) : ceilDiv a b ≤ w ↔ a ≤ w * b := by
  rw [ceilDiv_eq, ceilDiv_le_iff_le_mul positive, Nat.mul_comm]

namespace Interval

private theorem largestQuotient_le {divisor : Interval} {v : Nat} (bound : v ≤ maxValue) :
    divisor.largestQuotient v ≤ maxValue := by
  rw [largestQuotient]
  split
  · exact Nat.le_trans (Nat.div_le_self v divisor.lo) bound
  · exact Nat.le_refl maxValue

private theorem quotient?_proper {floor : Bool} {r divisor p : Interval} (bound : r.hi ≤ maxValue)
    (found : r.quotient? floor divisor = some p) : p.lo ≤ p.hi ∧ p.hi ≤ maxValue := by
  have largest : divisor.largestQuotient r.hi ≤ maxValue := largestQuotient_le bound
  simp only [quotient?] at found
  split at found
  · next ordered =>
    obtain rfl := Option.some.inj found
    exact ⟨ordered, largest⟩
  · split at found
    · obtain rfl := Option.some.inj found
      exact ⟨Nat.le_refl _, largest⟩
    · exact absurd found (by simp)

private theorem cofactor?_proper {r factor p : Interval} (bound : r.hi ≤ maxValue)
    (found : r.cofactor? factor = some p) : p.lo ≤ p.hi ∧ p.hi ≤ maxValue := by
  rw [cofactor?, Option.ite_none_right_eq_some] at found
  obtain ⟨ordered, equal⟩ := found
  obtain rfl := Option.some.inj equal
  exact ⟨ordered, largestQuotient_le bound⟩

theorem le_largestQuotient_iff {divisor : Interval} {v w : Nat} (bound : v ≤ maxValue) :
    w ≤ divisor.largestQuotient v ↔ w ≤ maxValue ∧ w * divisor.lo ≤ v := by
  rw [largestQuotient]
  by_cases positive : 0 < divisor.lo
  · rw [if_pos positive, Nat.le_div_iff_mul_le positive]
    constructor
    · intro fits
      have grows : w * 1 ≤ w * divisor.lo := Nat.mul_le_mul_left w positive
      omega
    · exact And.right
  · have zero : divisor.lo = 0 := by omega
    simp [zero]

/-- The quotients are the values by which the largest divisor reaches the interval and the smallest
    one does not leave it. -/
theorem mem_quotient?_iff {r divisor : Interval} (nonzero : divisor.hi ≠ 0)
    (bound : r.hi ≤ maxValue) {w : Nat} :
    (∃ p, r.quotient? false divisor = some p ∧ w ∈ p) ↔
      w ≤ maxValue ∧ r.lo ≤ w * divisor.hi ∧ w * divisor.lo ≤ r.hi := by
  have lower : ceilDiv r.lo divisor.hi ≤ w ↔ r.lo ≤ w * divisor.hi :=
    ceilDiv_le_iff (Nat.pos_of_ne_zero nonzero)
  have upper : w ≤ divisor.largestQuotient r.hi ↔ w ≤ maxValue ∧ w * divisor.lo ≤ r.hi :=
    le_largestQuotient_iff bound
  rw [← lower, and_left_comm, ← upper]
  simp only [quotient?, Bool.false_eq_true, if_false, Option.ite_none_right_eq_some,
    Option.some.injEq, and_assoc, exists_and_left, exists_eq_left', mem_iff]
  omega

theorem mem_cofactor?_iff {r factor : Interval} (bound : r.hi ≤ maxValue) {w : Nat} :
    (∃ p, r.cofactor? factor = some p ∧ w ∈ p) ↔
      w ≤ maxValue ∧ (factor.hi = 0 ∨ r.lo ≤ w * factor.hi) ∧ w * factor.lo ≤ r.hi := by
  have upper : w ≤ factor.largestQuotient r.hi ↔ w ≤ maxValue ∧ w * factor.lo ≤ r.hi :=
    le_largestQuotient_iff bound
  have lower : (if 0 < factor.hi then ceilDiv r.lo factor.hi else minValue) ≤ w ↔
      factor.hi = 0 ∨ r.lo ≤ w * factor.hi := by
    by_cases positive : 0 < factor.hi
    · rw [if_pos positive, ceilDiv_le_iff positive]
      omega
    · simp only [positive, if_false, minValue]
      omega
  rw [← lower, and_left_comm, ← upper]
  simp only [cofactor?, Option.ite_none_right_eq_some, Option.some.injEq, and_assoc,
    exists_and_left, exists_eq_left', mem_iff]
  omega

end Interval

namespace Intervals

private theorem mem_quotients {floor : Bool} {s divisors : List Interval} {p : Interval} :
    p ∈ quotients floor s divisors ↔
      ∃ r ∈ s, ∃ divisor ∈ divisors, divisor.hi ≠ 0 ∧ r.quotient? floor divisor = some p := by
  simp only [quotients, List.mem_flatMap, List.mem_filter, List.mem_filterMap, decide_eq_true_eq]
  constructor
  · rintro ⟨divisor, ⟨inRight, nonzero⟩, r, inLeft, found⟩
    exact ⟨r, inLeft, divisor, inRight, nonzero, found⟩
  · rintro ⟨r, inLeft, divisor, inRight, nonzero, found⟩
    exact ⟨divisor, ⟨inRight, nonzero⟩, r, inLeft, found⟩

private theorem mem_cofactors {s factors : List Interval} {p : Interval} :
    p ∈ cofactors s factors ↔ ∃ r ∈ s, ∃ factor ∈ factors, r.cofactor? factor = some p := by
  simp only [cofactors, List.mem_flatMap, List.mem_filterMap]
  constructor
  · rintro ⟨factor, inRight, r, inLeft, found⟩
    exact ⟨r, inLeft, factor, inRight, found⟩
  · rintro ⟨r, inLeft, factor, inRight, found⟩
    exact ⟨factor, inRight, r, inLeft, found⟩

theorem covers_quotients {floor : Bool} {s divisors : List Interval} {w : Nat} :
    Covers (quotients floor s divisors) w ↔ ∃ r ∈ s, ∃ divisor ∈ divisors,
      divisor.hi ≠ 0 ∧ ∃ p, r.quotient? floor divisor = some p ∧ w ∈ p := by
  constructor
  · rintro ⟨p, member, inside⟩
    obtain ⟨r, inLeft, divisor, inRight, nonzero, found⟩ := mem_quotients.mp member
    exact ⟨r, inLeft, divisor, inRight, nonzero, p, found, inside⟩
  · rintro ⟨r, inLeft, divisor, inRight, nonzero, p, found, inside⟩
    exact ⟨p, mem_quotients.mpr ⟨r, inLeft, divisor, inRight, nonzero, found⟩, inside⟩

theorem covers_quotients_iff {s divisors : List Interval} (proper : Proper s) {w : Nat} :
    Covers (quotients false s divisors) w ↔ w ≤ maxValue ∧ ∃ r ∈ s, ∃ divisor ∈ divisors,
      divisor.hi ≠ 0 ∧ r.lo ≤ w * divisor.hi ∧ w * divisor.lo ≤ r.hi := by
  rw [covers_quotients]
  constructor
  · rintro ⟨r, inLeft, divisor, inRight, nonzero, found⟩
    obtain ⟨bound, within⟩ := (Interval.mem_quotient?_iff nonzero (proper.mem inLeft).2).mp found
    exact ⟨bound, r, inLeft, divisor, inRight, nonzero, within⟩
  · rintro ⟨bound, r, inLeft, divisor, inRight, nonzero, within⟩
    refine ⟨r, inLeft, divisor, inRight, nonzero, ?_⟩
    exact (Interval.mem_quotient?_iff nonzero (proper.mem inLeft).2).mpr ⟨bound, within⟩

theorem covers_cofactors_iff {s factors : List Interval} (proper : Proper s) {w : Nat} :
    Covers (cofactors s factors) w ↔ w ≤ maxValue ∧ ∃ r ∈ s, ∃ factor ∈ factors,
      (factor.hi = 0 ∨ r.lo ≤ w * factor.hi) ∧ w * factor.lo ≤ r.hi := by
  constructor
  · rintro ⟨p, member, inside⟩
    obtain ⟨r, inLeft, factor, inRight, found⟩ := mem_cofactors.mp member
    obtain ⟨bound, within⟩ :=
      (Interval.mem_cofactor?_iff (proper.mem inLeft).2).mp ⟨p, found, inside⟩
    exact ⟨bound, r, inLeft, factor, inRight, within⟩
  · rintro ⟨bound, r, inLeft, factor, inRight, within⟩
    obtain ⟨p, found, inside⟩ :=
      (Interval.mem_cofactor?_iff (proper.mem inLeft).2).mpr ⟨bound, within⟩
    exact ⟨p, mem_cofactors.mpr ⟨r, inLeft, factor, inRight, found⟩, inside⟩

/-- A divisor that is zero alone has no quotient but leaves the cofactor open; all others divide. -/
theorem covers_cofactors_iff_quotients {s factors : List Interval} (proper : Proper s)
    (nonzero : ∀ factor ∈ factors, factor.hi ≠ 0) {w : Nat} :
    Covers (cofactors s factors) w ↔ Covers (quotients false s factors) w := by
  rw [covers_cofactors_iff proper, covers_quotients_iff proper]
  refine and_congr_right fun _ => exists_congr fun r => and_congr_right fun _ =>
    exists_congr fun factor => and_congr_right fun member => ?_
  simp [nonzero factor member]

theorem covers_cofactors_of_quotients {s factors : List Interval} (proper : Proper s) {w : Nat}
    (covered : Covers (quotients false s factors) w) : Covers (cofactors s factors) w := by
  rw [covers_quotients_iff proper] at covered
  rw [covers_cofactors_iff proper]
  obtain ⟨bound, r, inLeft, factor, inRight, _, reaches, stays⟩ := covered
  exact ⟨bound, r, inLeft, factor, inRight, .inr reaches, stays⟩

end Intervals

namespace Domain

/-- What an operation makes of the runs of two domains is brought into smallest form, if it is
    proper and nothing comes of no runs. -/
private theorem ofPieces_denotes {op : Operation}
    {pieces : List Interval → List Interval → List Interval}
    {d e : Domain} (dValid : d.Valid) (eValid : e.Valid)
    (leftNil : ∀ b, pieces [] b = []) (rightNil : ∀ a, pieces a [] = [])
    (proper : ∀ {a b}, Proper a → ∀ p ∈ pieces a b, p.lo ≤ p.hi ∧ p.hi ≤ maxValue) :
    ∃ a b, d.toIntervals = .ok a ∧ e.toIntervals = .ok b ∧
      ∃ r, checkBinary op (fun d e => if d.isEmpty || e.isEmpty then .ok .empty
          else do ofIntervals (pieces (← d.toIntervals) (← e.toIntervals))) d e = .ok r ∧
        r.Denotes (Covers (pieces a b)) := by
  obtain ⟨a, left, aProper, _⟩ := dValid.toIntervals_proper
  obtain ⟨b, right, _⟩ := eValid.toIntervals_proper
  refine ⟨a, b, left, right, checkBinary_denotes dValid eValid ?_⟩
  split
  · next nothing =>
    have none : pieces a b = [] := by
      rw [Bool.or_eq_true, isEmpty_iff, isEmpty_iff] at nothing
      rcases nothing with rfl | rfl
      · rw [← Except.ok.inj left, leftNil]
      · rw [← Except.ok.inj right, rightNil]
    rw [none]
    exact ⟨.empty, rfl, denotes_empty fun w => covers_nil⟩
  · rw [left, right]
    exact ofIntervals_denotes (proper aProper)

/-- The quotient has what the pairs of runs contribute. -/
theorem div_denotes {d divisor : Domain} (dValid : d.Valid) (divisorValid : divisor.Valid)
    (floor : Bool) :
    ∃ a b, d.toIntervals = .ok a ∧ divisor.toIntervals = .ok b ∧ ∃ r, d.div divisor floor = .ok r ∧
      r.Denotes (Covers (Intervals.quotients floor a b)) := by
  refine ofPieces_denotes dValid divisorValid (fun b => by simp [Intervals.quotients])
    (fun a => rfl) fun aProper p member => ?_
  obtain ⟨r, inLeft, divisor, _, _, found⟩ := mem_quotients.mp member
  exact Interval.quotient?_proper (aProper.mem inLeft).2 found

/-- The cofactor has what the pairs of runs contribute. -/
theorem cofactor_denotes {d factor : Domain} (dValid : d.Valid) (factorValid : factor.Valid) :
    ∃ a b, d.toIntervals = .ok a ∧ factor.toIntervals = .ok b ∧ ∃ r, d.cofactor factor = .ok r ∧
      r.Denotes (Covers (Intervals.cofactors a b)) := by
  refine ofPieces_denotes dValid factorValid (fun b => by simp [Intervals.cofactors])
    (fun a => rfl) fun aProper p member => ?_
  obtain ⟨r, inLeft, factor, _, found⟩ := mem_cofactors.mp member
  exact Interval.cofactor?_proper (aProper.mem inLeft).2 found

/-- What multiplies with a member of the factor into a member of the product is a cofactor. A zero
    factor bounds it neither from below, as the product is zero, nor from above. -/
theorem cofactor_holds_factors {d factor : Domain} (dValid : d.Valid) (factorValid : factor.Valid) :
    ∃ r, d.cofactor factor = .ok r ∧ r.Valid ∧
      ∀ x ≤ maxValue, ∀ y ∈ factor, x * y ∈ d → x ∈ r := by
  obtain ⟨a, b, left, right, r, executed, denotes⟩ := cofactor_denotes dValid factorValid
  obtain ⟨aProper, aCovers⟩ := dValid.runs_proper left
  obtain ⟨_, bCovers⟩ := factorValid.runs_proper right
  refine ⟨r, executed, denotes.valid, ?_⟩
  intro x bound y inFactor product
  obtain ⟨p, inRuns, start, stop⟩ := (aCovers (x * y)).mpr product
  obtain ⟨q, inOther, otherStart, otherStop⟩ := (bCovers y).mpr inFactor
  have upper : x * y ≤ x * q.hi := Nat.mul_le_mul_left x otherStop
  have lower : x * q.lo ≤ x * y := Nat.mul_le_mul_left x otherStart
  exact (denotes.mem_iff x).mpr ((covers_cofactors_iff aProper).mpr
    ⟨bound, p, inRuns, q, inOther, .inr (by omega), by omega⟩)

end Domain

end IntegerDomains

import IntegerDomains.Proofs.Construction
import IntegerDomains.Proofs.MaximalRuns
import IntegerDomains.Proofs.Quotients

/-!
Division skips a run of the divisor that is zero alone, but as a factor such a run leaves the other
one open and answers every value, whatever the other runs do (`cofactor_eq_all`).
-/

namespace IntegerDomains.Domain

open Intervals

variable {d factor : Domain}

/-- Cofactors and quotients differ only by what zero alone contributes to some run. -/
theorem cofactor_eq_div (dValid : d.Valid) (factorValid : factor.Valid)
    (divides : (0 ∈ factor → 1 ∈ factor) ∨ d = .empty) :
    d.cofactor factor = d.div factor false := by
  obtain ⟨a, b, left, right, r, executed, denotes⟩ := cofactor_denotes dValid factorValid
  obtain ⟨a', b', left', right', r', executed', denotes'⟩ := div_denotes dValid factorValid false
  cases left.symm.trans left'
  cases right.symm.trans right'
  have proper := (dValid.runs_proper left).1
  have same : ∀ w,
      Covers (Intervals.cofactors a b) w ↔ Covers (Intervals.quotients false a b) w := by
    intro w
    rcases divides with accompanied | rfl
    · exact covers_cofactors_iff_quotients proper (factorValid.run_hi_ne_zero accompanied right)
    · cases left
      rw [covers_cofactors_iff proper, covers_quotients_iff proper]
      simp
  exact answers_eq ⟨r, executed, denotes⟩ ⟨r', executed', denotes'⟩ same

/-- For zero alone every run of the product leaves the cofactor open. -/
theorem cofactor_eq_all (dValid : d.Valid) (factorValid : factor.Valid) (nonempty : d ≠ .empty)
    (zero : 0 ∈ factor) (one : 1 ∉ factor) :
    ∃ r, d.cofactor factor = .ok r ∧ r.Denotes fun w => 0 ≤ w ∧ w ≤ maxValue := by
  obtain ⟨a, b, left, right, r, executed, denotes⟩ := cofactor_denotes dValid factorValid
  obtain ⟨x, member⟩ := dValid.exists_mem nonempty
  obtain ⟨p, run, _⟩ := dValid.mem_iff_exists_isRun.mp member
  have inLeft : p ∈ a := (dValid.isRun_iff left).mp run
  have inRight : Interval.single 0 ∈ b :=
    (factorValid.isRun_iff right).mp (isRun_zero_iff.mpr ⟨zero, one⟩)
  refine ⟨r, executed, denotes.congr fun w => ?_⟩
  rw [covers_cofactors_iff (dValid.runs_proper left).1]
  constructor
  · rintro ⟨bound, _⟩
    exact ⟨Nat.zero_le w, bound⟩
  · rintro ⟨_, bound⟩
    exact ⟨bound, p, inLeft, Interval.single 0, inRight, .inl rfl, Nat.zero_le p.hi⟩

/-- The cofactor is the quotient that is not floored, as long as the factor has no zero or has one
    as well, or one of the two is empty; otherwise it has all values. In each case it has every
    value that multiplies with a member of the factor into the domain. -/
theorem cofactor_by_division (dValid : d.validate = .ok ())
    (factorValid : factor.validate = .ok ()) :
    ∃ r, d.cofactor factor = .ok r ∧ r.validate = .ok () ∧
      (0 ∉ factor ∨ 1 ∈ factor ∨ d = .empty ∨ factor = .empty → d.div factor false = .ok r) ∧
      (d ≠ .empty → 0 ∈ factor → 1 ∉ factor →
        ofBounds 0 maxValue = .ok r ∧ ∀ w, w ∈ r ↔ w ≤ maxValue) ∧
      ∀ x ∈ factor, ∀ y ≤ maxValue, x * y ∈ d → y ∈ r := by
  rw [validate_eq_ok_iff] at dValid factorValid
  obtain ⟨r, executed, valid, holds⟩ := cofactor_holds_factors dValid factorValid
  refine ⟨r, executed, validate_eq_ok_iff.mpr valid, ?_, ?_, ?_⟩
  · intro divides
    rw [← executed, cofactor_eq_div dValid factorValid]
    rcases divides with lacks | one | rfl | rfl
    · exact .inl fun zero => absurd zero lacks
    · exact .inl fun _ => one
    · exact .inr rfl
    · exact .inl fun zero => (mem_empty.mp zero).elim
  · intro nonempty zero one
    obtain ⟨r', executed', denotes⟩ := cofactor_eq_all dValid factorValid nonempty zero one
    cases executed.symm.trans executed'
    refine ⟨?_, fun w => (denotes.mem_iff w).trans (and_iff_right (Nat.zero_le w))⟩
    exact valid.rebuilt (ofBounds_denotes (Nat.zero_le maxValue) (Nat.le_refl maxValue))
      fun w => (denotes.mem_iff w).symm
  · intro x member y bound product
    exact holds y bound x member (Nat.mul_comm x y ▸ product)

/-- A factor with zero alone beside a longer run, and one whose first run goes on to one. -/
theorem cofactor_by_division_intervals :
    (Domain.intervals [⟨10, 20⟩, ⟨50, 60⟩]).validate = .ok () ∧
      (Domain.intervals [⟨0, 0⟩, ⟨35, 36⟩]).validate = .ok () ∧
      (Domain.intervals [⟨0, 1⟩, ⟨35, 36⟩]).validate = .ok () ∧
      (∃ r,
        (Domain.intervals [⟨10, 20⟩, ⟨50, 60⟩]).cofactor (.intervals [⟨0, 0⟩, ⟨35, 36⟩]) = .ok r ∧
        ∀ w, w ∈ r ↔ w ≤ maxValue) ∧
      ∃ r,
        (Domain.intervals [⟨10, 20⟩, ⟨50, 60⟩]).cofactor (.intervals [⟨0, 1⟩, ⟨35, 36⟩]) = .ok r ∧
        (Domain.intervals [⟨10, 20⟩, ⟨50, 60⟩]).div (.intervals [⟨0, 1⟩, ⟨35, 36⟩]) false =
          .ok r := by
  obtain ⟨r, executed, _, _, all, _⟩ := @cofactor_by_division
    (.intervals [⟨10, 20⟩, ⟨50, 60⟩]) (.intervals [⟨0, 0⟩, ⟨35, 36⟩]) rfl rfl
  obtain ⟨r', executed', _, divides, _⟩ := @cofactor_by_division
    (.intervals [⟨10, 20⟩, ⟨50, 60⟩]) (.intervals [⟨0, 1⟩, ⟨35, 36⟩]) rfl rfl
  refine ⟨rfl, rfl, rfl, ⟨r, executed, ?_⟩, r', executed', divides (.inr (.inl (by decide)))⟩
  exact (all nofun (by decide) (by decide)).2

end IntegerDomains.Domain

import IntegerDomains.Proofs.MaximalRuns
import IntegerDomains.Proofs.Products

namespace IntegerDomains.Domain

variable {d e r : Domain} {a b c f : Nat}

theorem mul_runs_denotes (dValid : d.Valid) (eValid : e.Valid) :
    ∃ r, d.mul e = .ok r ∧ r.Denotes fun w => ∃ p q, d.IsRun p ∧ e.IsRun q ∧
      min (p.lo * q.lo) maxValue ≤ w ∧ w ≤ min (p.hi * q.hi) maxValue := by
  obtain ⟨s, t, left, right, r, executed, denotes⟩ := mul_denotes dValid eValid
  refine ⟨r, executed, denotes.congr fun w => ?_⟩
  constructor
  · rintro ⟨p, inLeft, q, inRight, within⟩
    exact ⟨p, q, (dValid.isRun_iff left).mpr inLeft, (eValid.isRun_iff right).mpr inRight, within⟩
  · rintro ⟨p, q, run, run', within⟩
    exact ⟨p, (dValid.isRun_iff left).mp run, q, (eValid.isRun_iff right).mp run', within⟩

/-- The runs contribute the same with the operands exchanged. -/
theorem Valid.mul_swap (dValid : d.Valid) (eValid : e.Valid) : d.mul e = e.mul d := by
  refine answers_eq (mul_runs_denotes dValid eValid) (mul_runs_denotes eValid dValid) fun w => ?_
  rw [exists_comm]
  refine exists_congr fun q => exists_congr fun p => ?_
  rw [Nat.mul_comm p.lo, Nat.mul_comm p.hi, and_left_comm]

/-- The smallest members multiply to the smallest product, and the largest ones to the largest. -/
theorem Spans.mul (dValid : d.Valid) (eValid : e.Valid) (left : d.Spans a b) (right : e.Spans c f)
    (executed : d.mul e = .ok r) :
    r.Spans (min (a * c) maxValue) (min (b * f) maxValue) := by
  obtain ⟨_, executed', denotes⟩ := mul_runs_denotes dValid eValid
  cases executed.symm.trans executed'
  obtain ⟨_, executed', _, products⟩ := mul_holds_products dValid eValid
  cases executed.symm.trans executed'
  refine denotes.valid.spans (products a left.lo_mem c right.lo_mem)
    (products b left.hi_mem f right.hi_mem) fun w member => ?_
  obtain ⟨p, q, run, run', start, stop⟩ := (denotes.mem_iff w).mp member
  have pStart := left.within p.lo run.lo_mem
  have pStop := left.within p.hi run.hi_mem
  have qStart := right.within q.lo run'.lo_mem
  have qStop := right.within q.hi run'.hi_mem
  have lower : a * c ≤ p.lo * q.lo := Nat.mul_le_mul pStart.1 qStart.1
  have upper : p.hi * q.hi ≤ b * f := Nat.mul_le_mul pStop.2 qStop.2
  omega

/-- The product of two domains with members has what their runs contribute, among it all products of
    members, none of which leaves the wide word before it is capped. -/
theorem mul_by_runs (dValid : d.validate = .ok ()) (eValid : e.validate = .ok ())
    (dNonempty : d ≠ .empty) (eNonempty : e ≠ .empty) :
    ∃ r, d.mul e = .ok r ∧ e.mul d = .ok r ∧ r.validate = .ok () ∧
      (∀ w, w ∈ r ↔ ∃ p q, d.IsRun p ∧ e.IsRun q ∧
        min (p.lo * q.lo) maxValue ≤ w ∧ w ≤ min (p.hi * q.hi) maxValue) ∧
      (∀ x ∈ d, ∀ y ∈ e, Word.mul x y = .ok (x * y) ∧ min (x * y) maxValue ∈ r) ∧
      ∃ a b c f, d.Spans a b ∧ e.Spans c f ∧
        r.Spans (min (a * c) maxValue) (min (b * f) maxValue) := by
  rw [validate_eq_ok_iff] at dValid eValid
  obtain ⟨r, executed, denotes⟩ := mul_runs_denotes dValid eValid
  obtain ⟨a, b, left⟩ := dValid.exists_spans dNonempty
  obtain ⟨c, f, right⟩ := eValid.exists_spans eNonempty
  refine ⟨r, executed, (dValid.mul_swap eValid).symm.trans executed,
    validate_eq_ok_iff.mpr denotes.valid, denotes.mem_iff, fun x inLeft y inRight => ⟨?_, ?_⟩,
    a, b, c, f, left, right, left.mul dValid eValid right executed⟩
  · exact mul_values_eq_ok (dValid.le_maxValue inLeft) (eValid.le_maxValue inRight)
  · obtain ⟨_, executed', _, products⟩ := mul_holds_products dValid eValid
    cases executed.symm.trans executed'
    exact products x inLeft y inRight

/-- Two runs on either side, whose largest products are capped. -/
theorem mul_by_runs_capped :
    (Domain.intervals [⟨2, 3⟩, ⟨40, 50⟩]).validate = .ok () ∧
      (Domain.intervals [⟨1, 1⟩, ⟨30000000, 30000001⟩]).validate = .ok () ∧
      ∃ r,
        (Domain.intervals [⟨2, 3⟩, ⟨40, 50⟩]).mul (.intervals [⟨1, 1⟩, ⟨30000000, 30000001⟩]) =
          .ok r ∧
        (Domain.intervals [⟨1, 1⟩, ⟨30000000, 30000001⟩]).mul (.intervals [⟨2, 3⟩, ⟨40, 50⟩]) =
          .ok r ∧
        60000001 ∈ r ∧ maxValue ∈ r ∧ ∀ w ∈ r, 2 ≤ w := by
  obtain ⟨r, executed, exchanged, _, runs, products, a, b, c, f, left, right, span⟩ := @mul_by_runs
    (.intervals [⟨2, 3⟩, ⟨40, 50⟩]) (.intervals [⟨1, 1⟩, ⟨30000000, 30000001⟩]) rfl rfl nofun nofun
  refine ⟨rfl, rfl, r, executed, exchanged, ?_, ?_, ?_⟩
  · have run : (Domain.intervals [⟨2, 3⟩, ⟨40, 50⟩]).IsRun ⟨2, 3⟩ :=
      ((validate_eq_ok_iff.mp rfl).isRun_iff rfl).mpr (by simp)
    have run' : (Domain.intervals [⟨1, 1⟩, ⟨30000000, 30000001⟩]).IsRun ⟨30000000, 30000001⟩ :=
      ((validate_eq_ok_iff.mp rfl).isRun_iff rfl).mpr (by simp)
    exact (runs 60000001).mpr ⟨_, _, run, run', by decide, by decide⟩
  · have capped := products 50 ⟨⟨40, 50⟩, by simp, by decide⟩ 30000000
      ⟨⟨30000000, 30000001⟩, by simp, by decide⟩
    exact capped.2
  · intro w member
    have least : 2 = a := Option.some.inj (Except.ok.inj left.least)
    have least' : 1 = c := Option.some.inj (Except.ok.inj right.least)
    have start := (span.within w member).1
    subst least least'
    exact Nat.le_trans (by decide) start

end IntegerDomains.Domain

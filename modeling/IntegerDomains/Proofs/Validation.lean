import IntegerDomains.Domain.Validity
import IntegerDomains.Proofs.Bits
import IntegerDomains.Proofs.Outcomes
import IntegerDomains.Proofs.Scanning

namespace IntegerDomains

namespace Intervals

/-- Two values differ in a separated sequence unless it is one interval of one value. -/
theorem two_values_iff {s : List Interval} (separated : Separated s) :
    (∃ v, Covers s v ∧ ∃ w, Covers s w ∧ v ≠ w) ↔ s ≠ [] ∧ ∀ r, s = [r] → r.lo ≠ r.hi := by
  match s with
  | [] => simp
  | [r] =>
    have ordered := (separated_cons.mp separated).1
    simp only [covers_cons, covers_nil, or_false, Interval.mem_iff, ne_eq, List.cons.injEq,
      and_true, forall_eq', reduceCtorEq, not_false_eq_true, true_and]
    constructor
    · rintro ⟨v, inside, w, other, different⟩
      omega
    · intro wide
      exact ⟨r.lo, by omega, r.hi, by omega, wide⟩
  | r :: next :: rest =>
    refine iff_of_true ⟨r.lo, covers_lo separated, next.lo, ?_, ?_⟩ (by simp)
    · exact covers_cons.mpr (.inr (covers_lo (separated_cons.mp separated).2.2))
    · obtain ⟨ordered, gaps, _⟩ := separated_cons.mp separated
      have gap := gaps next List.mem_cons_self
      omega

/-- A separated sequence belongs into no smaller form exactly if it has two values and one of
    them exceeds `maskMax`. -/
private theorem formDefect?_eq_none_iff {s : List Interval} (separated : Separated s)
    {last : Interval} (isLast : s.getLast? = some last) :
    Domain.formDefect? s last = none ↔
      (∃ v, Covers s v ∧ maskMax < v) ∧ ∃ v, Covers s v ∧ ∃ w, Covers s w ∧ v ≠ w := by
  have high : (∃ v, Covers s v ∧ maskMax < v) ↔ maskMax < last.hi := by
    constructor
    · rintro ⟨v, covered, beyond⟩
      have bound := le_hi_of_getLast? separated isLast covered
      omega
    · intro beyond
      exact ⟨last.hi, covers_getLast? separated isLast, beyond⟩
  have largest : Domain.formDefect?.largestDefect? last = none ↔ maskMax < last.hi := by
    rw [Domain.formDefect?.largestDefect?]
    split
    · simp only [reduceCtorEq, false_iff]
      omega
    · simp only [true_iff]
      omega
  rw [high, two_values_iff separated]
  match s, isLast with
  | [r], isLast =>
    rw [Domain.formDefect?, Interval.isSingle]
    by_cases single : r.lo = r.hi
    · simp [single]
    · simp [single, largest]
  | r :: next :: rest, isLast => simp [Domain.formDefect?, largest]

end Intervals

namespace Domain

open Intervals

/-- The check of a mask finds no defect exactly if it fits and has two members. -/
private theorem mask_accepted_iff (m : Mask) :
    (if m &&& ~~~Mask.full ≠ 0#32 then some (Defect.maskOverflow m)
      else if m = 0#32 then some .noMembers
      else if m.count = 1 then some (.unsolved m.lowest) else none) = none ↔
      (Domain.mask m).Valid := by
  by_cases fits : m.Fits
  · have inside := Mask.fits_iff.mpr fits
    rw [if_neg (not_not_intro inside)]
    by_cases zero : m = 0#32
    · subst zero
      refine iff_of_false (by simp) ?_
      rintro ⟨_, v, member, _⟩
      simp [mem_mask] at member
    · rw [if_neg zero]
      by_cases alone : m.dropLowest = 0#32
      · refine iff_of_false (by simp [(Mask.count_eq_one_iff zero).mpr alone]) ?_
        rintro ⟨_, v, left, w, right, different⟩
        have only := Mask.dropLowest_eq_zero_iff.mp alone
        exact different ((only v left).trans (only w right).symm)
      · refine iff_of_true (if_neg (mt (Mask.count_eq_one_iff zero).mp alone)) ⟨fits, ?_⟩
        obtain ⟨set, other⟩ := Mask.getLsbD_dropLowest.mp (Mask.getLsbD_lowest alone)
        exact ⟨_, Mask.getLsbD_lowest zero, _, set, other.symm⟩
  · refine iff_of_false ?_ fun valid => fits valid.1
    rw [if_pos (mt Mask.fits_iff.mp fits)]
    exact Option.some_ne_none _

/-- The form of a sequence counts only if the scan finds nothing. -/
theorem defect?_intervals {s : List Interval} {last : Interval} {found : Option Defect}
    (isLast : s.getLast? = some last) (scanned : sequenceDefect? 0 none s = .ok found) :
    (Domain.intervals s).defect? = .ok (found.or (formDefect? s last)) := by
  rw [defect?, isLast, scanned]
  cases found <;> rfl

/-- The check ends for all stored data, and without a defect exactly for well-formed ones. -/
theorem defect?_total (d : Domain) :
    ∃ found, d.defect? = .ok found ∧ (found = none ↔ d.Valid) := by
  cases d with
  | empty => exact ⟨none, rfl, iff_of_true rfl trivial⟩
  | single v =>
    refine ⟨_, rfl, ?_⟩
    simp [Valid]
  | mask m => exact ⟨_, rfl, mask_accepted_iff m⟩
  | intervals s =>
    cases isLast : s.getLast? with
    | none =>
      refine ⟨some .noIntervals, by simp [defect?, isLast], iff_of_false (by simp) ?_⟩
      rintro ⟨_, _, ⟨v, ⟨r, member, _⟩, _⟩, _⟩
      rw [List.getLast?_eq_none_iff.mp isLast] at member
      exact absurd member List.not_mem_nil
    | some last =>
      rcases sequenceDefect?_finds s with ⟨executed, proper⟩ | ⟨defect, executed, broken⟩
      · have large : (Domain.intervals s).Valid ↔ (∃ v, Covers s v ∧ maskMax < v) ∧
            ∃ v, Covers s v ∧ ∃ w, Covers s w ∧ v ≠ w :=
          (and_iff_right proper.separated).trans (and_iff_right proper.bounded)
        rw [large]
        exact ⟨formDefect? s last, defect?_intervals isLast executed,
          formDefect?_eq_none_iff proper.separated isLast⟩
      · refine ⟨some defect, defect?_intervals isLast executed, iff_of_false (by simp) ?_⟩
        rintro ⟨separated, bounded, _⟩
        exact broken.not_proper ⟨separated, bounded⟩

/-- Validation accepts exactly the well-formed domains. -/
theorem validate_eq_ok_iff {d : Domain} : d.validate = .ok () ↔ d.Valid := by
  obtain ⟨found, executed, accepted⟩ := defect?_total d
  rw [validate, mapError_eq_ok_iff.mpr executed, ← accepted]
  cases found <;> simp [bind, Except.bind, pure, Except.pure, throw, throwThe, MonadExceptOf.throw]

/-- Validation rejects with the defect that the check found. -/
theorem validate_eq_rejected_iff {d : Domain} {defect : Defect} :
    d.validate = .error (.rejected defect) ↔ d.defect? = .ok (some defect) := by
  obtain ⟨found, executed, _⟩ := defect?_total d
  rw [validate, executed]
  cases found <;> simp [bind, Except.bind, pure, Except.pure, throw, throwThe, MonadExceptOf.throw]

private theorem defect?_eq_none {d : Domain} (valid : d.Valid) : d.defect? = .ok none := by
  obtain ⟨found, executed, accepted⟩ := defect?_total d
  rw [executed, accepted.mpr valid]

theorem checkOperand_eq_ok {op : Operation} {d : Domain} (valid : d.Valid) :
    checkOperand op d = .ok () := by
  rw [checkOperand, defect?_eq_none valid]
  rfl

theorem checkResult_eq_ok {op : Operation} {d : Domain} (valid : d.Valid) :
    checkResult op d = .ok d := by
  rw [checkResult, defect?_eq_none valid]
  rfl

end Domain

end IntegerDomains

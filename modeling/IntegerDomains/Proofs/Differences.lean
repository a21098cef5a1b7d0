import IntegerDomains.Arithmetic.Difference
import IntegerDomains.Proofs.Combination
import IntegerDomains.Proofs.Construction

namespace IntegerDomains

open Intervals

/-- A minuend inside a gap moves to one of its edges as the subtrahend moves by as much. -/
theorem slides_difference (w : Nat) : Slides fun x y => x = w + y := by
  rintro x y p q s rfl after before inside width
  rw [Interval.mem_iff] at inside
  by_cases down : s.lo + (w + y - p) ≤ y
  · exact ⟨y - (w + y - p), ⟨by omega, by omega⟩, .inl (by omega)⟩
  · exact ⟨y + (q - (w + y)), ⟨by omega, by omega⟩, .inr (by omega)⟩

/-- So does a subtrahend with its minuend. -/
theorem slides_flip_difference (w : Nat) : Slides (flip fun x y => x = w + y) := by
  intro y x p q s difference after before inside width
  simp only [flip] at difference ⊢
  rw [Interval.mem_iff] at inside
  by_cases down : s.lo + (y - p) ≤ x
  · exact ⟨x - (y - p), ⟨by omega, by omega⟩, .inl (by omega)⟩
  · exact ⟨x + (q - y), ⟨by omega, by omega⟩, .inr (by omega)⟩

/-- Two intervals answer their differences that are not negative. -/
theorem IntervalRule.difference_answers {r s : Interval} (left : r.lo ≤ r.hi ∧ r.hi ≤ maxValue)
    (right : s.lo ≤ s.hi ∧ s.hi ≤ maxValue) :
    IntervalRule.difference.Answers r s fun w => True ∧ ∃ x ∈ r, ∃ y ∈ s, x = w + y := by
  rw [Answers, difference]
  split
  · next negative =>
    refine ⟨none, rfl, by simp, fun w => iff_of_false (by simp) ?_⟩
    rintro ⟨_, x, inLeft, y, inRight, rfl⟩
    rw [Interval.mem_iff] at inLeft inRight
    omega
  · next _ =>
    have upper : Word.sub r.hi s.lo = .ok (r.hi - s.lo) := Word.sub_eq_ok (by omega)
    rw [upper]
    refine ⟨some ⟨r.lo - s.hi, r.hi - s.lo⟩, rfl, ?_, fun w => ?_⟩
    · rintro p equal
      obtain rfl := Option.some.inj equal
      simp only
      omega
    · simp only [Option.some.injEq, exists_eq_left', Interval.mem_iff]
      constructor
      · rintro ⟨start, stop⟩
        -- The subtrahend is the smallest one that brings the minuend into its interval.
        exact ⟨trivial, w + max s.lo (r.lo - w), by omega, max s.lo (r.lo - w), by omega, rfl⟩
      · rintro ⟨_, x, inLeft, y, inRight, rfl⟩
        omega

namespace Domain

theorem differenceByIntervals_denotes {d e : Domain} (dValid : d.Valid) (eValid : e.Valid) :
    ∃ r, differenceByIntervals d e = .ok r ∧
      r.Denotes fun w => ∃ x ∈ d, ∃ y ∈ e, x = w + y := by
  obtain ⟨r, executed, denotes⟩ := combineBridged_denotes dValid eValid slides_difference
    slides_flip_difference IntervalRule.difference_answers
  exact ⟨r, executed, denotes.congr fun w => and_iff_right trivial⟩

/-- A difference is no larger than its minuend, so all differences fit a mask. -/
theorem ofMask_differences_denotes {d e : Domain} (dValid : d.Valid) (eValid : e.Valid) {a b : Mask}
    (left : d.asMask? = some a) (right : e.asMask? = some b) :
    ∃ r, ofMask (a.differences b) = .ok r ∧ r.Denotes fun w => ∃ x ∈ d, ∃ y ∈ e, x = w + y := by
  obtain ⟨aFits, aBits⟩ := dValid.asMask?_bits left
  obtain ⟨_, bBits⟩ := eValid.asMask?_bits right
  have fits : (a.differences b).Fits := fun w set => by
    obtain ⟨x, y, inLeft, _, rfl⟩ := Mask.getLsbD_differences.mp set
    exact Nat.le_trans (Nat.le_add_right w y) (aFits _ inLeft)
  obtain ⟨r, executed, denotes⟩ := ofMask_denotes fits
  refine ⟨r, executed, denotes.congr fun w => ?_⟩
  rw [Mask.getLsbD_differences]
  constructor
  · rintro ⟨x, y, inLeft, inRight, difference⟩
    exact ⟨x, (aBits x).mp inLeft, y, (bBits y).mp inRight, difference⟩
  · rintro ⟨x, inLeft, y, inRight, difference⟩
    exact ⟨x, y, (aBits x).mpr inLeft, (bBits y).mpr inRight, difference⟩

private theorem differenceByMasks?_denotes {d e : Domain} (dValid : d.Valid) (eValid : e.Valid) :
    ∃ found, differenceByMasks? d e = .ok found ∧ ∀ r, found = some r →
      r.Denotes fun w => ∃ x ∈ d, ∃ y ∈ e, x = w + y := by
  rw [differenceByMasks?]
  split
  · next a b left right =>
    obtain ⟨r, executed, denotes⟩ := ofMask_differences_denotes dValid eValid left right
    refine ⟨some r, by rw [executed]; rfl, fun r' equal => ?_⟩
    obtain rfl := Option.some.inj equal
    exact denotes
  · exact ⟨none, rfl, by simp⟩

/-- Of two domains with zero the difference is the interval up to the largest member. -/
private theorem differences_eq_of_zero {d e : Domain} (dValid : d.Valid) (eValid : e.Valid)
    (left : 0 ∈ d) (right : 0 ∈ e) :
    ∃ top, top ∈ d ∧ (∀ x ∈ d, x ≤ top) ∧ differences d e = ofBounds 0 top := by
  have nonempty : d ≠ .empty := by rintro rfl; exact mem_empty.mp left
  have full : ¬e.isEmpty = true := by
    rw [isEmpty_iff]
    rintro rfl
    exact mem_empty.mp right
  obtain ⟨top, greatest, member, bound⟩ := dValid.greatest?_isGreatest nonempty
  obtain ⟨b, dZero, bIff⟩ := dValid.hasZero_eq
  obtain ⟨c, eZero, cIff⟩ := eValid.hasZero_eq
  refine ⟨top, member, bound, ?_⟩
  rw [differences, if_neg full, greatest]
  simp only [bind, Except.bind, dZero, eZero, bIff.mpr left, cIff.mpr right]
  rfl

private theorem differences_denotes {d e : Domain} (dValid : d.Valid) (eValid : e.Valid)
    (apart : ¬(0 ∈ d ∧ 0 ∈ e)) :
    ∃ r, differences d e = .ok r ∧ r.Denotes fun w => ∃ x ∈ d, ∃ y ∈ e, x = w + y := by
  rw [differences]
  split
  · next nothing =>
    obtain rfl := isEmpty_iff.mp nothing
    refine ⟨.empty, rfl, denotes_empty ?_⟩
    rintro w ⟨x, _, y, inRight, _⟩
    exact mem_empty.mp inRight
  by_cases nonempty : d = .empty
  · subst nonempty
    refine ⟨.empty, rfl, denotes_empty ?_⟩
    rintro w ⟨x, inLeft, _⟩
    exact mem_empty.mp inLeft
  obtain ⟨top, greatest, _, _⟩ := dValid.greatest?_isGreatest nonempty
  obtain ⟨b, dZero, bIff⟩ := dValid.hasZero_eq
  obtain ⟨c, eZero, cIff⟩ := eValid.hasZero_eq
  have notBoth : (b && c) = false := by
    rw [← Bool.not_eq_true, Bool.and_eq_true, bIff, cIff]
    exact apart
  obtain ⟨found, executed, denotes⟩ := differenceByMasks?_denotes dValid eValid
  rw [greatest]
  simp only [bind, Except.bind, dZero, eZero, notBoth, executed]
  cases found with
  | some small => exact ⟨small, by cases b <;> rfl, denotes small rfl⟩
  | none =>
    obtain ⟨r, computed, denotes⟩ := differenceByIntervals_denotes dValid eValid
    exact ⟨r, by cases b <;> exact computed, denotes⟩

/-- Of two domains with zero, the values up to the largest member of the first include
    all their differences. -/
theorem difference_or_below_iff {d e : Domain} {top w : Nat} (left : 0 ∈ d) (right : 0 ∈ e)
    (member : top ∈ d) (greatest : ∀ x ∈ d, x ≤ top) :
    0 ≤ w ∧ w ≤ top ↔ (0 ∈ d ∧ 0 ∈ e ∧ ∃ x ∈ d, w ≤ x) ∨ ∃ x ∈ d, ∃ y ∈ e, x = w + y := by
  constructor
  · rintro ⟨_, bound⟩
    exact .inl ⟨left, right, top, member, bound⟩
  · rintro (⟨_, _, x, inLeft, bound⟩ | ⟨x, inLeft, y, _, rfl⟩)
    · exact ⟨Nat.zero_le w, Nat.le_trans bound (greatest x inLeft)⟩
    · have bound := greatest (w + y) inLeft
      omega

/-- The difference has every value up to a member of the first domain if both hold zero, and every
    difference that is not negative in any case. -/
theorem sub_denotes {d e : Domain} (dValid : d.Valid) (eValid : e.Valid) :
    ∃ r, d.sub e = .ok r ∧ r.Denotes fun w =>
      (0 ∈ d ∧ 0 ∈ e ∧ ∃ x ∈ d, w ≤ x) ∨ ∃ x ∈ d, ∃ y ∈ e, x = w + y := by
  refine checkBinary_denotes dValid eValid ?_
  by_cases zero : 0 ∈ d ∧ 0 ∈ e
  · obtain ⟨top, member, greatest, same⟩ := differences_eq_of_zero dValid eValid zero.1 zero.2
    obtain ⟨r, built, denotes⟩ := ofBounds_denotes (Nat.zero_le top) (dValid.le_maxValue member)
    exact ⟨r, same.trans built, denotes.congr fun w =>
      difference_or_below_iff zero.1 zero.2 member greatest⟩
  · obtain ⟨r, executed, denotes⟩ := differences_denotes dValid eValid zero
    refine ⟨r, executed, denotes.congr fun w => (or_iff_right ?_).symm⟩
    rintro ⟨left, right, _⟩
    exact zero ⟨left, right⟩

/-- The difference of two well-formed domains is well formed. Its members are the differences of
    their members that are not negative, unless both hold zero: then it is the interval from zero to
    the largest member of the first. -/
theorem mem_sub_iff {d e : Domain} (dValid : d.validate = .ok ()) (eValid : e.validate = .ok ()) :
    ∃ r, d.sub e = .ok r ∧ r.validate = .ok () ∧
      (¬(0 ∈ d ∧ 0 ∈ e) → ∀ w, w ∈ r ↔ ∃ x ∈ d, ∃ y ∈ e, y ≤ x ∧ x - y = w) ∧
      (0 ∈ d ∧ 0 ∈ e → ∃ top, d.greatest? = .ok (some top) ∧ (top ∈ d ∧ ∀ x ∈ d, x ≤ top) ∧
        ofBounds 0 top = .ok r ∧ (∀ w, w ∈ r ↔ w ≤ top) ∧
        ∀ x ∈ d, ∀ y ∈ e, y ≤ x → x - y ∈ r) ∧
      (d = .empty ∨ e = .empty → r = .empty) := by
  rw [validate_eq_ok_iff] at dValid eValid
  obtain ⟨r, executed, denotes⟩ := sub_denotes dValid eValid
  refine ⟨r, executed, validate_eq_ok_iff.mpr denotes.valid, fun apart w => ?_, fun both => ?_,
    fun nothing => denotes.valid.eq_empty fun w inside => ?_⟩
  · rw [denotes.mem_iff, or_iff_right fun both => apart ⟨both.1, both.2.1⟩]
    refine exists_congr fun x => and_congr_right fun _ => exists_congr fun y =>
      and_congr_right fun _ => ?_
    omega
  · obtain ⟨top, greatest, member, bound⟩ :=
      dValid.greatest?_isGreatest (by rintro rfl; exact mem_empty.mp both.1)
    obtain ⟨whole, built, wholeDenotes⟩ :=
      ofBounds_denotes (Nat.zero_le top) (dValid.le_maxValue member)
    have upTo : r.Denotes fun w => 0 ≤ w ∧ w ≤ top := denotes.congr fun w =>
      (difference_or_below_iff both.1 both.2 member bound).symm
    obtain rfl := upTo.eq wholeDenotes
    refine ⟨top, greatest, ⟨member, bound⟩, built, fun w => ?_, fun x inLeft y _ _ => ?_⟩
    · exact (upTo.mem_iff w).trans (and_iff_right (Nat.zero_le w))
    · exact (upTo.mem_iff _).mpr ⟨Nat.zero_le _, Nat.le_trans (Nat.sub_le x y) (bound x inLeft)⟩
  · rcases nothing with rfl | rfl
    · rcases (denotes.mem_iff w).mp inside with ⟨left, _⟩ | ⟨x, inLeft, _⟩
      · exact mem_empty.mp left
      · exact mem_empty.mp inLeft
    · rcases (denotes.mem_iff w).mp inside with ⟨_, right, _⟩ | ⟨x, _, y, inRight, _⟩
      · exact mem_empty.mp right
      · exact mem_empty.mp inRight

/-- Intervals with zero, less intervals without it. -/
theorem mem_sub_iff_intervals :
    (Domain.intervals [⟨0, 4⟩, ⟨6, 9⟩, ⟨100, 120⟩]).validate = .ok () ∧
      (Domain.intervals [⟨5, 6⟩, ⟨8, 40⟩]).validate = .ok () ∧
      ∃ r, (Domain.intervals [⟨0, 4⟩, ⟨6, 9⟩, ⟨100, 120⟩]).sub
          (.intervals [⟨5, 6⟩, ⟨8, 40⟩]) = .ok r ∧ r.validate = .ok () ∧
        ∀ w, w ∈ r ↔ ∃ x ∈ Domain.intervals [⟨0, 4⟩, ⟨6, 9⟩, ⟨100, 120⟩],
          ∃ y ∈ Domain.intervals [⟨5, 6⟩, ⟨8, 40⟩], y ≤ x ∧ x - y = w := by
  refine ⟨rfl, rfl, ?_⟩
  obtain ⟨r, executed, valid, exact, _⟩ := mem_sub_iff
    (d := .intervals [⟨0, 4⟩, ⟨6, 9⟩, ⟨100, 120⟩]) (e := .intervals [⟨5, 6⟩, ⟨8, 40⟩]) rfl rfl
  exact ⟨r, executed, valid, exact fun zero => by simp [mem_intervals, Interval.mem_iff] at zero⟩

end Domain

end IntegerDomains

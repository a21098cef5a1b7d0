import IntegerDomains.Proofs.Differences
import IntegerDomains.Proofs.Groupings

namespace IntegerDomains.Domain

variable {d : Domain} {v : Nat}

theorem subValue_denotes (valid : d.Valid) (bound : v ≤ maxValue) :
    ∃ r, d.subValue v = .ok r ∧ r.Denotes fun w =>
      (v = 0 ∧ 0 ∈ d ∧ ∃ x ∈ d, w ≤ x) ∨ w + v ∈ d := by
  obtain ⟨r, executed, denotes⟩ := sub_denotes valid (e := .single v) bound
  refine ⟨r, by rw [subValue, ofValue_eq_ok bound]; exact executed, denotes.congr fun w => ?_⟩
  constructor
  · rintro (⟨zero, same, below⟩ | ⟨x, member, y, same, rfl⟩)
    · exact .inl ⟨(mem_single.mp same).symm, zero, below⟩
    · rw [← mem_single.mp same]
      exact .inr member
  · rintro (⟨rfl, zero, below⟩ | member)
    · exact .inl ⟨zero, rfl, below⟩
    · exact .inr ⟨w + v, member, v, rfl, rfl⟩

/-- Subtracting zero from a domain with zero answers every value up to the largest member. -/
theorem subValue_zero_eq (valid : d.Valid) (zero : 0 ∈ d) :
    ∃ top, d.greatest? = .ok (some top) ∧ d.subValue 0 = ofBounds 0 top := by
  obtain ⟨top, greatest, member, above⟩ :=
    valid.greatest?_isGreatest (by rintro rfl; exact mem_empty.mp zero)
  obtain ⟨r, executed, denotes⟩ := sub_denotes valid (e := .single 0) (Nat.zero_le maxValue)
  have upTo := denotes.congr fun w => (difference_or_below_iff zero rfl member above).symm
  obtain ⟨whole, built, wholeDenotes⟩ :=
    ofBounds_denotes (Nat.zero_le top) (valid.le_maxValue member)
  refine ⟨top, greatest, ?_⟩
  rw [subValue, ofValue_eq_ok (Nat.zero_le _), built, ← upTo.eq wholeDenotes]
  exact executed

/-- So it answers the domain itself only if no value is missing below a member. -/
theorem subValue_zero_eq_self_iff (valid : d.Valid) :
    d.subValue 0 = .ok d ↔ (0 ∈ d → ∀ x ∈ d, ∀ w ≤ x, w ∈ d) := by
  obtain ⟨r, executed, denotes⟩ := subValue_denotes valid (Nat.zero_le maxValue)
  rw [executed, Except.ok.injEq]
  constructor
  · rintro rfl zero x member w below
    exact (denotes.mem_iff w).mpr (.inl ⟨rfl, zero, x, member, below⟩)
  · intro full
    refine denotes.valid.ext valid fun w => (denotes.mem_iff w).trans ?_
    constructor
    · rintro (⟨_, zero, x, member, below⟩ | member)
      · exact full zero x member w below
      · exact member
    · exact .inr

/-- A value is subtracted from all members that reach it, unless it is zero and a member:
    then every value up to the largest member is answered. So subtracting zero answers the
    domain itself exactly if no value is missing below a member of a domain with zero, and
    adding zero always does. -/
theorem mem_subValue_iff (valid : d.validate = .ok ()) (bound : v ≤ maxValue) :
    ∃ r, d.subValue v = .ok r ∧ r.validate = .ok () ∧
      (v ≠ 0 ∨ 0 ∉ d → ∀ w, w ∈ r ↔ ∃ x ∈ d, v ≤ x ∧ x - v = w) ∧
      (v = 0 → 0 ∈ d → ∃ top, d.greatest? = .ok (some top) ∧ ofBounds 0 top = .ok r) ∧
      (v = 0 → (r = d ↔ (0 ∈ d → ∀ x ∈ d, ∀ w ≤ x, w ∈ d))) ∧
      d.addValue 0 = .ok d := by
  rw [validate_eq_ok_iff] at valid
  obtain ⟨r, executed, denotes⟩ := subValue_denotes valid bound
  refine ⟨r, executed, validate_eq_ok_iff.mpr denotes.valid, ?_, ?_, ?_, ?_⟩
  · intro moves w
    have exempt : ¬(v = 0 ∧ 0 ∈ d ∧ ∃ x ∈ d, w ≤ x) := by
      rintro ⟨none, zero, _⟩
      exact moves.elim (fun nonzero => nonzero none) fun lacks => lacks zero
    rw [denotes.mem_iff, or_iff_right exempt]
    constructor
    · intro member
      exact ⟨w + v, member, Nat.le_add_left v w, Nat.add_sub_cancel w v⟩
    · rintro ⟨x, member, reaches, rfl⟩
      rwa [Nat.sub_add_cancel reaches]
  · rintro rfl zero
    obtain ⟨top, greatest, same⟩ := subValue_zero_eq valid zero
    exact ⟨top, greatest, same.symm.trans executed⟩
  · rintro rfl
    rw [← subValue_zero_eq_self_iff valid, executed, Except.ok.injEq]
  · rw [addValue, ofValue_eq_ok (Nat.zero_le _)]
    exact (add_zero_eq valid).1

/-- Intervals with zero move down by seven, and lose their first run. -/
theorem mem_subValue_iff_intervals :
    (Domain.intervals [⟨0, 4⟩, ⟨9, 9⟩, ⟨40, 60⟩]).validate = .ok () ∧ 7 ≤ maxValue ∧
      ∃ r, (Domain.intervals [⟨0, 4⟩, ⟨9, 9⟩, ⟨40, 60⟩]).subValue 7 = .ok r ∧
        r.validate = .ok () ∧ ∀ w, w ∈ r ↔
          ∃ x ∈ Domain.intervals [⟨0, 4⟩, ⟨9, 9⟩, ⟨40, 60⟩], 7 ≤ x ∧ x - 7 = w := by
  obtain ⟨r, executed, valid, shifted, _⟩ :=
    @mem_subValue_iff (.intervals [⟨0, 4⟩, ⟨9, 9⟩, ⟨40, 60⟩]) 7 rfl (by decide)
  exact ⟨rfl, by decide, r, executed, valid, shifted (.inl (by decide))⟩

/-- Subtracting zero from zero and two fills the gap between them. -/
theorem subValue_zero_fills_gap :
    (Domain.mask 5#32).validate = .ok () ∧ (Domain.mask 5#32).subValue 0 = .ok (.mask 7#32) ∧
      1 ∈ Domain.mask 7#32 ∧ ¬∃ x ∈ Domain.mask 5#32, 0 ≤ x ∧ x - 0 = 1 := by
  obtain ⟨top, greatest, filled⟩ :=
    @subValue_zero_eq (.mask 5#32) (validate_eq_ok_iff.mp rfl) (by decide)
  cases greatest
  refine ⟨rfl, filled, rfl, ?_⟩
  rintro ⟨x, member, _, (rfl : x = 1)⟩
  exact absurd member (by decide)

end IntegerDomains.Domain

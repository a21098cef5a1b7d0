import IntegerDomains.Proofs.Exports

namespace IntegerDomains

namespace Intervals

/-- What is wrong with stored intervals: there is none, or the sequence breaks somewhere, or else it
    is proper and its values are a single one or fit a mask. -/
inductive SequenceDefect (s : List Interval) : Defect → Prop
  | missing (none : s = []) : SequenceDefect s .noIntervals
  | broken {defect : Defect} (broken : Broken s defect) : SequenceDefect s defect
  | unsolved {v : Nat} (proper : Proper s) (one : s = [⟨v, v⟩]) : SequenceDefect s (.unsolved v)
  | maskable {last : Interval} (proper : Proper s) (several : ∀ v, s ≠ [⟨v, v⟩])
    (isLast : s.getLast? = some last) (small : last.hi ≤ maskMax) :
    SequenceDefect s (.maskable last.hi)

private theorem largestDefect?_eq_some_iff {last : Interval} {defect : Defect} :
    Domain.formDefect?.largestDefect? last = some defect ↔
      last.hi ≤ maskMax ∧ defect = .maskable last.hi := by
  rw [Domain.formDefect?.largestDefect?]
  by_cases small : last.hi ≤ maskMax <;> simp [small, eq_comm]

/-- A single value is told before its size. -/
theorem formDefect?_eq_some_iff {s : List Interval} {last : Interval} {defect : Defect} :
    Domain.formDefect? s last = some defect ↔
      (∃ v, s = [⟨v, v⟩] ∧ defect = .unsolved v) ∨
      (∀ v, s ≠ [⟨v, v⟩]) ∧ last.hi ≤ maskMax ∧ defect = .maskable last.hi := by
  match s with
  | [] => simp [Domain.formDefect?, largestDefect?_eq_some_iff]
  | [⟨lo, hi⟩] =>
    rw [Domain.formDefect?, Interval.isSingle]
    by_cases single : lo = hi
    · simp [single, eq_comm]
    · have wide : ∀ v, ¬(lo = v ∧ hi = v) := by omega
      simp [single, wide, largestDefect?_eq_some_iff]
  | _ :: _ :: _ => simp [Domain.formDefect?, largestDefect?_eq_some_iff]

/-- A proper sequence has the defects of its form and no others. -/
private theorem Proper.sequenceDefect_iff {s : List Interval} (proper : Proper s) {last : Interval}
    (isLast : s.getLast? = some last) {defect : Defect} :
    SequenceDefect s defect ↔ Domain.formDefect? s last = some defect := by
  rw [formDefect?_eq_some_iff]
  constructor
  · intro defective
    cases defective with
    | missing none => simp [none] at isLast
    | broken broken => exact absurd proper broken.not_proper
    | unsolved _ one => exact .inl ⟨_, one, rfl⟩
    | maskable _ several isLast' small =>
      obtain rfl := Option.some.inj (isLast.symm.trans isLast')
      exact .inr ⟨several, small, rfl⟩
  · rintro (⟨v, one, rfl⟩ | ⟨several, small, rfl⟩)
    · exact .unsolved proper one
    · exact .maskable proper several isLast small

/-- A broken sequence has the defect of its first break and no others. -/
private theorem Broken.sequenceDefect_iff {s : List Interval} {found : Defect}
    (broken : Broken s found) {defect : Defect} : SequenceDefect s defect ↔ found = defect := by
  constructor
  · intro defective
    cases defective with
    | missing none =>
      rw [none] at broken
      exact absurd proper_nil broken.not_proper
    | broken broken' => exact broken.unique broken'
    | unsolved proper _ => exact absurd proper broken.not_proper
    | maskable proper _ _ _ => exact absurd proper broken.not_proper
  · rintro rfl
    exact .broken broken

end Intervals

namespace Domain

open Intervals

/-- The check of stored intervals finds what is wrong with them. -/
theorem validate_intervals_iff {s : List Interval} {defect : Defect} :
    (Domain.intervals s).validate = .error (.rejected defect) ↔ SequenceDefect s defect := by
  rw [validate_eq_rejected_iff]
  cases isLast : s.getLast? with
  | none =>
    obtain rfl := List.getLast?_eq_none_iff.mp isLast
    constructor
    · intro found
      obtain rfl : .noIntervals = defect := by simpa [defect?] using found
      exact .missing rfl
    · intro defective
      cases defective with
      | missing _ => rfl
      | broken broken => exact absurd proper_nil broken.not_proper
      | unsolved _ one => simp at one
      | maskable _ _ isLast' _ => simp at isLast'
  | some last =>
    rcases sequenceDefect?_finds s with ⟨executed, proper⟩ | ⟨found, executed, broken⟩
    · rw [defect?_intervals isLast executed, Except.ok.injEq, proper.sequenceDefect_iff isLast]
      rfl
    · rw [defect?_intervals isLast executed, Except.ok.injEq, broken.sequenceDefect_iff]
      exact Option.some_inj

theorem validate_total (d : Domain) :
    d.validate = .ok () ∨ ∃ defect, d.validate = .error (.rejected defect) := by
  obtain ⟨found, executed, accepted⟩ := defect?_total d
  cases found with
  | none => exact .inl (validate_eq_ok_iff.mpr (accepted.mp rfl))
  | some defect => exact .inr ⟨defect, validate_eq_rejected_iff.mpr executed⟩

theorem valid_iff_ofList_toList {d : Domain} : d.Valid ↔ ofList d.toList = .ok d := by
  constructor
  · intro valid
    apply valid.ofList_eq
    intro v
    exact valid.mem_toList
  · intro listed
    exact (ofList_eq_ok_iff.mp listed).2.valid

/-- The well-formed domains are those of sets of values. -/
theorem valid_iff_exists_ofList {d : Domain} :
    d.Valid ↔ ∃ values, (∀ v ∈ values, v ≤ maxValue) ∧ ofList values = .ok d := by
  constructor
  · intro valid
    have listed := valid_iff_ofList_toList.mp valid
    exact ⟨d.toList, (ofList_eq_ok_iff.mp listed).1, listed⟩
  · rintro ⟨values, _, listed⟩
    exact (ofList_eq_ok_iff.mp listed).2.valid

/-- Validation accepts or rejects all stored data and never faults. It accepts exactly the domains
    of sets of values up to `maxValue`, which are those that their own values are collected into.
    And it rejects stored intervals exactly for what is wrong with them, at the first place. -/
theorem validate_exact :
    (∀ d : Domain, d.validate = .ok () ∨ ∃ defect, d.validate = .error (.rejected defect)) ∧
      (∀ d : Domain, d.validate = .ok () ↔ ofList d.toList = .ok d) ∧
      (∀ d : Domain, d.validate = .ok () ↔
        ∃ values, (∀ v ∈ values, v ≤ maxValue) ∧ ofList values = .ok d) ∧
      ∀ s defect, (Domain.intervals s).validate = .error (.rejected defect) ↔
        SequenceDefect s defect :=
  ⟨validate_total, fun _ => validate_eq_ok_iff.trans valid_iff_ofList_toList,
    fun _ => validate_eq_ok_iff.trans valid_iff_exists_ofList, fun _ _ => validate_intervals_iff⟩

/-- The third interval is the first to break the sequence, although the fourth is worse. -/
example : (Domain.intervals [⟨1, 2⟩, ⟨5, 9⟩, ⟨10, 40⟩, ⟨50, 4294967295⟩]).validate =
    .error (.rejected (.unmerged 2)) := rfl

end Domain

end IntegerDomains

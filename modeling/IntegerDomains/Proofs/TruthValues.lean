import IntegerDomains.Proofs.Listing
import IntegerDomains.Proofs.Subsets

namespace IntegerDomains

open Intervals

/-- A separated sequence covers zero exactly if its first interval starts there. -/
private theorem Intervals.starts_at_zero_iff {s : List Interval} (separated : Separated s) :
    (s.head?.any fun r => r.lo == 0) = true ↔ Covers s 0 := by
  cases s with
  | nil => simp
  | cons r rest =>
    have starts : r.lo = 0 ↔ Covers (r :: rest) 0 := by
      constructor
      · intro zero
        rw [← zero]
        exact covers_lo separated
      · intro covered
        exact Nat.le_zero.mp (lo_le_of_covers separated covered)
    simpa using starts

/-- Two numbers in ascending order of which one is zero. -/
private theorem zero_pair_iff {vs : List Nat} (ascending : vs.Pairwise (· < ·)) :
    0 ∈ vs ∧ vs.length = 2 ↔ ∃ v, 0 < v ∧ ∀ w, w ∈ vs ↔ w = 0 ∨ w = v := by
  constructor
  · rintro ⟨zero, two⟩
    obtain ⟨a, b, rfl⟩ := List.length_eq_two.mp two
    have less : a < b := by simpa using ascending
    have first : a = 0 := by
      simp only [List.mem_cons, List.not_mem_nil, or_false] at zero
      omega
    subst first
    exact ⟨b, less, by simp⟩
  · rintro ⟨v, positive, members⟩
    have pair : vs = [0, v] := by
      refine ascending.eq_of_mem_iff ?_ ?_
      · simpa using positive
      · simpa using members
    simp [pair]

namespace Domain

variable {d e : Domain} {P : Nat → Prop}

/-- The values that are listed are those with the property. -/
def Lists (d : Domain) (P : Nat → Prop) : Prop := ∀ v, v ∈ d.toList ↔ P v

private theorem Denotes.lists (denotes : d.Denotes P) : d.Lists P := by
  intro v
  rw [denotes.valid.mem_toList, denotes.mem_iff]

/-- A well-formed domain is known by what it lists. -/
private theorem Denotes.eq_iff_lists (denotes : e.Denotes P) (valid : d.Valid) :
    d = e ↔ d.Lists P := by
  constructor
  · rintro rfl
    exact denotes.lists
  · intro lists
    apply valid.ext denotes.valid
    intro v
    rw [← valid.mem_toList, lists v, denotes.mem_iff]

private theorem Denotes.isEmpty_eq_false_iff (denotes : d.Denotes P) :
    d.isEmpty = false ↔ ∃ v, P v := by
  rw [← Bool.not_eq_true, isEmpty_iff, denotes.eq_empty_iff, Classical.not_forall_not]

theorem isZero_iff : d.isZero = true ↔ d = .single 0 := by
  cases d with
  | single v => cases v <;> simp [isZero]
  | _ => simp [isZero]

theorem isBool_iff : d.isBool = true ↔ d = .mask 3#32 := by
  cases d <;> simp [isBool]

private theorem zeroAndOne_denotes : (Domain.mask 3#32).Denotes fun v => v = 0 ∨ v = 1 := by
  refine ⟨validate_eq_ok_iff.mp rfl, ?_⟩
  intro v
  have bits : 3#32 = Mask.block 0 1 := rfl
  rw [mem_mask, bits, Mask.getLsbD_ofBlock (by decide)]
  omega

theorem lacksZero_eq {b : Bool} (answered : d.hasZero = .ok b) : d.lacksZero = .ok !b := by
  rw [lacksZero, answered]
  rfl

/-- A mask or a sequence of intervals has a member other than zero, so it matters only whether
    zero is one. -/
theorem Valid.isUndecided_iff (valid : d.Valid) :
    d.isUndecided = true ↔ 0 ∈ d ∧ ∃ v ∈ d, v ≠ 0 := by
  have exists_ne_zero : (∃ v ∈ d, ∃ w ∈ d, v ≠ w) → ∃ v ∈ d, v ≠ 0 := by
    rintro ⟨v, left, w, right, different⟩
    by_cases zero : v = 0
    · exact ⟨w, right, zero ▸ different.symm⟩
    · exact ⟨v, left, zero⟩
  cases d with
  | empty => simp [isUndecided, mem_empty]
  | single w =>
    simp only [isUndecided, mem_single]
    refine iff_of_false Bool.false_ne_true ?_
    rintro ⟨zero, v, rfl, nonzero⟩
    exact nonzero zero.symm
  | mask m =>
    rw [and_iff_left (exists_ne_zero valid.2)]
    exact Iff.rfl
  | intervals s =>
    rw [and_iff_left (exists_ne_zero valid.2.2.2)]
    exact starts_at_zero_iff valid.1

/-- Of the domains with zero and another value, the size tells those of two values. -/
theorem Valid.isZeroPair_eq (valid : d.Valid) :
    ∃ b, d.isZeroPair = .ok b ∧ (b = true ↔ ∃ v, 0 < v ∧ d.Lists fun w => w = 0 ∨ w = v) := by
  refine ⟨d.isUndecided && d.toList.length == 2, ?_, ?_⟩
  · rw [isZeroPair, valid.size_eq]
    cases d.isUndecided <;> rfl
  rw [Bool.and_eq_true, beq_iff_eq, valid.isUndecided_iff]
  simp only [Lists, ← zero_pair_iff valid.toList_ascending, ← valid.mem_toList]
  constructor
  · rintro ⟨⟨zero, _⟩, two⟩
    exact ⟨zero, two⟩
  · intro pair
    obtain ⟨v, positive, members⟩ := (zero_pair_iff valid.toList_ascending).mp pair
    exact ⟨⟨pair.1, v, (members v).mpr (.inr rfl), Nat.ne_of_gt positive⟩, pair.2⟩

private theorem Valid.zeroAnd_eq_ok_iff (valid : d.Valid) {v : Nat} (bound : v ≤ maxValue) :
    zeroAnd v = .ok d ↔ d.Lists fun w => w = 0 ∨ w = v := by
  obtain ⟨e, executed, denotes⟩ := zeroAnd_denotes bound
  rw [executed, Except.ok.injEq, eq_comm, denotes.eq_iff_lists valid]

/-- The domains of zero and one other value are those that are built as such. -/
private theorem Valid.lists_zero_pair_iff (valid : d.Valid) :
    (∃ v, 0 < v ∧ d.Lists fun w => w = 0 ∨ w = v) ↔
      ∃ v, 1 ≤ v ∧ v ≤ maxValue ∧ zeroAnd v = .ok d := by
  apply exists_congr
  intro v
  apply and_congr_right
  intro _
  constructor
  · intro lists
    have bound := valid.le_maxValue (valid.mem_toList.mp ((lists v).mpr (.inr rfl)))
    exact ⟨bound, (valid.zeroAnd_eq_ok_iff bound).mpr lists⟩
  · rintro ⟨bound, built⟩
    exact (valid.zeroAnd_eq_ok_iff bound).mp built

/-- Each question about a well-formed domain as a truth value is answered as from the set of its
    members. Resolving it keeps the members with the given truth value, and it is undecided exactly
    if either way some member is kept. -/
theorem truth_values_by_members (valid : d.validate = .ok ()) :
    (d.isZero = true ↔ d.Lists fun v => v = 0) ∧
      (∃ has lacks, d.hasZero = .ok has ∧ d.lacksZero = .ok lacks ∧
        (has = true ↔ 0 ∈ d.toList) ∧ (lacks = true ↔ 0 ∉ d.toList)) ∧
      (d.isBool = true ↔ d.Lists fun v => v = 0 ∨ v = 1) ∧
      (d.isUndecided = true ↔ 0 ∈ d.toList ∧ ∃ v ∈ d.toList, v ≠ 0) ∧
      (∃ pair, d.isZeroPair = .ok pair ∧
        (pair = true ↔ ∃ v, 0 < v ∧ d.Lists fun w => w = 0 ∨ w = v) ∧
        (pair = true ↔ ∃ v, 1 ≤ v ∧ v ≤ maxValue ∧ zeroAnd v = .ok d)) ∧
      ∃ holds fails, d.resolve true = .ok holds ∧ d.resolve false = .ok fails ∧
        holds.validate = .ok () ∧ fails.validate = .ok () ∧
        (holds.Lists fun v => v ∈ d.toList ∧ v ≠ 0) ∧ (fails.Lists fun v => v ∈ d.toList ∧ v = 0) ∧
        (d.isUndecided = true ↔ holds.isEmpty = false ∧ fails.isEmpty = false) := by
  rw [validate_eq_ok_iff] at valid
  have undecided : d.isUndecided = true ↔ 0 ∈ d.toList ∧ ∃ v ∈ d.toList, v ≠ 0 := by
    simpa only [valid.mem_toList] using valid.isUndecided_iff
  refine ⟨?_, ?_, ?_, undecided, ?_, ?_⟩
  · rw [isZero_iff, (denotes_single (Nat.zero_le _) fun _ => Iff.rfl).eq_iff_lists valid]
  · obtain ⟨has, answered, zero⟩ := valid.hasZero_eq
    refine ⟨has, !has, answered, lacksZero_eq answered, ?_, ?_⟩
    · rw [zero, valid.mem_toList]
    · rw [valid.mem_toList, ← zero, Bool.not_eq_true', Bool.not_eq_true]
  · rw [isBool_iff, zeroAndOne_denotes.eq_iff_lists valid]
  · obtain ⟨pair, answered, isPair⟩ := valid.isZeroPair_eq
    exact ⟨pair, answered, isPair, isPair.trans valid.lists_zero_pair_iff⟩
  · obtain ⟨holds, holdsExecuted, kept⟩ := resolve_denotes valid true
    obtain ⟨fails, failsExecuted, dropped⟩ := resolve_denotes valid false
    replace kept : holds.Denotes fun v => v ∈ d.toList ∧ v ≠ 0 :=
      kept.congr fun v => by simp [valid.mem_toList]
    replace dropped : fails.Denotes fun v => v ∈ d.toList ∧ v = 0 :=
      dropped.congr fun v => by simp [valid.mem_toList]
    refine ⟨holds, fails, holdsExecuted, failsExecuted, validate_eq_ok_iff.mpr kept.valid,
      validate_eq_ok_iff.mpr dropped.valid, kept.lists, dropped.lists, ?_⟩
    rw [undecided, kept.isEmpty_eq_false_iff, dropped.isEmpty_eq_false_iff, and_comm]
    simp

/-- Zero and one value beyond the reach of a mask. -/
theorem truth_values_by_members_zeroPair :
    (Domain.intervals [⟨0, 0⟩, ⟨700, 700⟩]).validate = .ok () ∧
      (Domain.intervals [⟨0, 0⟩, ⟨700, 700⟩]).isZeroPair = .ok true ∧
      (∃ v, 1 ≤ v ∧ v ≤ maxValue ∧ zeroAnd v = .ok (.intervals [⟨0, 0⟩, ⟨700, 700⟩])) ∧
      ∃ holds, (Domain.intervals [⟨0, 0⟩, ⟨700, 700⟩]).resolve true = .ok holds ∧
        holds.validate = .ok () ∧ 700 ∈ holds.toList ∧ 0 ∉ holds.toList := by
  have valid : (Domain.intervals [⟨0, 0⟩, ⟨700, 700⟩]).validate = .ok () := rfl
  obtain ⟨_, _, _, _, ⟨pair, answered, _, built⟩, holds, _, executed, _, holdsValid, _, kept, _⟩ :=
    truth_values_by_members valid
  obtain rfl : pair = true := Except.ok.inj (answered.symm.trans rfl)
  refine ⟨valid, answered, built.mp rfl, holds, executed, holdsValid, ?_, ?_⟩
  · exact (kept 700).mpr (by decide)
  · intro listed
    exact ((kept 0).mp listed).2 rfl

end Domain

end IntegerDomains

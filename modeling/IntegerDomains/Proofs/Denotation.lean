import IntegerDomains.Domain.Query
import IntegerDomains.Proofs.SmallestForms

namespace IntegerDomains.Domain

open Intervals

/-- The domain is well formed, and its members are the values with the property. -/
structure Denotes (d : Domain) (P : Nat → Prop) : Prop where
  valid : d.Valid
  mem_iff : ∀ v, v ∈ d ↔ P v

theorem Denotes.congr {d : Domain} {P Q : Nat → Prop} (denotes : d.Denotes P)
    (same : ∀ v, P v ↔ Q v) : d.Denotes Q :=
  ⟨denotes.valid, fun v => (denotes.mem_iff v).trans (same v)⟩

/-- Values that a domain may hold are denoted by their smallest form. -/
theorem Stores.denotes {d : Domain} {P : Nat → Prop} (stores : d.Stores P)
    (bounded : ∀ v, P v → v ≤ maxValue) : d.Denotes P := by
  refine ⟨valid_iff_smallest.mpr ⟨stores.smallest, ?_⟩, stores.mem_iff⟩
  exact fun v member => bounded v ((stores.mem_iff v).mp member)

/-- A well-formed domain denotes its own members. -/
theorem Valid.denotes {d : Domain} (valid : d.Valid) : d.Denotes (· ∈ d) :=
  ⟨valid, fun _ => Iff.rfl⟩

theorem denotes_empty {P : Nat → Prop} (none : ∀ v, ¬P v) : Domain.empty.Denotes P :=
  ⟨trivial, fun v => iff_of_false mem_empty.mp (none v)⟩

theorem denotes_single {v : Nat} {P : Nat → Prop} (bound : v ≤ maxValue)
    (only : ∀ w, P w ↔ w = v) : (Domain.single v).Denotes P :=
  ⟨bound, fun w => mem_single.trans (only w).symm⟩

theorem Valid.le_maxValue {d : Domain} (valid : d.Valid) {v : Nat} (member : v ∈ d) :
    v ≤ maxValue :=
  (valid_iff_smallest.mp valid).2 v member

theorem isEmpty_iff {d : Domain} : d.isEmpty = true ↔ d = .empty := by
  cases d <;> simp [isEmpty]

theorem Valid.exists_mem {d : Domain} (valid : d.Valid) (nonempty : d ≠ .empty) : ∃ v, v ∈ d :=
  valid.smallest.exists_mem nonempty

/-- In a separated sequence the search for a value stops only where it cannot lie any more. -/
theorem isSome_locate?_iff {s : List Interval} (separated : Separated s) {v : Nat} :
    (Intervals.locate? v s).isSome = true ↔ Covers s v := by
  induction s with
  | nil => simp [Intervals.locate?]
  | cons r rest ih =>
    rw [Intervals.locate?]
    by_cases before : v < r.lo
    · rw [if_pos before]
      refine iff_of_false (by simp) fun covered => ?_
      have start := lo_le_of_covers separated covered
      omega
    rw [if_neg before]
    by_cases inside : v ≤ r.hi
    · rw [if_pos inside]
      exact iff_of_true rfl (covers_cons.mpr (.inl ⟨by omega, inside⟩))
    · rw [if_neg inside, Option.isSome_map, ih (separated_cons.mp separated).2.2, covers_cons,
        Interval.mem_iff]
      refine (or_iff_right ?_).symm
      omega

theorem Smallest.contains_iff {d : Domain} (smallest : d.Smallest) {v : Nat} :
    d.contains v = true ↔ v ∈ d := by
  cases d with
  | empty => simp [contains, mem_empty]
  | single w =>
    rw [contains, mem_single, beq_iff_eq]
    exact eq_comm
  | mask m => exact Iff.rfl
  | intervals s => exact isSome_locate?_iff smallest.1

theorem Valid.contains_iff {d : Domain} (valid : d.Valid) {v : Nat} :
    d.contains v = true ↔ v ∈ d := valid.smallest.contains_iff

/-- What validation and the question for membership tell of a domain is what it denotes. -/
theorem denotes_iff_contains {d : Domain} {P : Nat → Prop} :
    d.Denotes P ↔ d.validate = .ok () ∧ ∀ v, d.contains v = true ↔ P v := by
  rw [validate_eq_ok_iff]
  constructor
  · intro denotes
    refine ⟨denotes.valid, ?_⟩
    intro v
    rw [denotes.valid.contains_iff, denotes.mem_iff]
  · rintro ⟨valid, answers⟩
    refine ⟨valid, ?_⟩
    intro v
    rw [← valid.contains_iff, answers]

/-- Only the empty form is well formed without members. -/
theorem Valid.eq_empty {d : Domain} (valid : d.Valid) (none : ∀ v, v ∉ d) : d = .empty :=
  valid.smallest.eq_empty none

theorem Denotes.eq_empty_iff {d : Domain} {P : Nat → Prop} (denotes : d.Denotes P) :
    d = .empty ↔ ∀ v, ¬P v := by
  constructor
  · rintro rfl v holds
    exact mem_empty.mp ((denotes.mem_iff v).mpr holds)
  · intro none
    exact denotes.valid.eq_empty fun v member => none v ((denotes.mem_iff v).mp member)

/-- Well-formed domains of the same members are equal. -/
theorem Valid.ext {d e : Domain} (left : d.Valid) (right : e.Valid)
    (same : ∀ v, v ∈ d ↔ v ∈ e) : d = e :=
  left.smallest.ext right.smallest same

theorem Denotes.eq {d e : Domain} {P : Nat → Prop} (left : d.Denotes P) (right : e.Denotes P) :
    d = e :=
  left.valid.ext right.valid fun v => (left.mem_iff v).trans (right.mem_iff v).symm

/-- Answers that denote the same set are equal. -/
theorem answers_eq {ε : Type} {left right : Except ε Domain} {P Q : Nat → Prop}
    (first : ∃ r, left = .ok r ∧ r.Denotes P) (second : ∃ r, right = .ok r ∧ r.Denotes Q)
    (same : ∀ v, P v ↔ Q v) : left = right := by
  obtain ⟨r, executed, denotes⟩ := first
  obtain ⟨s, executed', denotes'⟩ := second
  rw [executed, executed', (denotes.congr same).eq denotes']

/-- What denotes the members of a well-formed domain is the domain. -/
theorem Valid.rebuilt {ε : Type} {answer : Except ε Domain} {P : Nat → Prop} {d : Domain}
    (valid : d.Valid) (built : ∃ r, answer = .ok r ∧ r.Denotes P) (same : ∀ v, P v ↔ v ∈ d) :
    answer = .ok d :=
  answers_eq built ⟨d, rfl, valid.denotes⟩ same

/-- What is answered for exactly the data of one kind, and then denotes a set, is the domain
    that denotes it. -/
theorem eq_ok_iff_denotes {ε : Type} {answer : Except ε Domain} {A : Prop} {P : Nat → Prop}
    (accepts : (∃ d, answer = .ok d) ↔ A) (built : A → ∃ r, answer = .ok r ∧ r.Denotes P)
    {d : Domain} : answer = .ok d ↔ A ∧ d.Denotes P := by
  constructor
  · intro executed
    have accepted := accepts.mp ⟨d, executed⟩
    obtain ⟨r, executed', denotes⟩ := built accepted
    cases executed.symm.trans executed'
    exact ⟨accepted, denotes⟩
  · rintro ⟨accepted, denotes⟩
    apply denotes.valid.rebuilt (built accepted)
    intro v
    exact (denotes.mem_iff v).symm

/-- Equality of well-formed domains is equality of the sets that they answer membership for, and the
    values of the machine word suffice to tell them apart. -/
theorem eq_iff_contains_eq {d e : Domain} (dValid : d.validate = .ok ())
    (eValid : e.validate = .ok ()) :
    d = e ↔ ∀ v ≤ wordMax, d.contains v = e.contains v := by
  have left := validate_eq_ok_iff.mp dValid
  have right := validate_eq_ok_iff.mp eValid
  constructor
  · rintro rfl v _
    rfl
  · intro same
    have fits : maxValue ≤ wordMax := by decide
    have agree : ∀ v ≤ maxValue, v ∈ d ↔ v ∈ e := fun v bound => by
      rw [← left.contains_iff, ← right.contains_iff, same v (Nat.le_trans bound fits)]
    refine left.ext right fun v => ⟨fun member => ?_, fun member => ?_⟩
    · exact (agree v (left.le_maxValue member)).mp member
    · exact (agree v (right.le_maxValue member)).mpr member

/-- A mask and a sequence of intervals that agree up to 39. -/
theorem mask_eq_iff_contains_eq :
    (Domain.mask 9#32).validate = .ok () ∧
      (Domain.intervals [⟨0, 0⟩, ⟨3, 3⟩, ⟨40, 40⟩]).validate = .ok () ∧
      (Domain.mask 9#32 = .intervals [⟨0, 0⟩, ⟨3, 3⟩, ⟨40, 40⟩] ↔ ∀ v ≤ wordMax,
        (Domain.mask 9#32).contains v =
          (Domain.intervals [⟨0, 0⟩, ⟨3, 3⟩, ⟨40, 40⟩]).contains v) :=
  ⟨rfl, rfl, eq_iff_contains_eq rfl rfl⟩

theorem ofMask_denotes {m : Mask} (fits : m.Fits) :
    ∃ d, ofMask m = .ok d ∧ d.Denotes fun v => m.getLsbD v = true := by
  obtain ⟨d, executed, stores⟩ := ofMask_stores fits
  refine ⟨d, executed, stores.denotes fun v set => ?_⟩
  exact Nat.le_trans (fits v set) (Nat.le_of_lt maskMax_lt_maxValue)

/-- Every separated sequence has a form, also one of values that no domain may hold. -/
theorem ofSeparated_total {s : List Interval} (separated : Separated s) :
    ∃ d, ofSeparated s = .ok d := by
  obtain ⟨d, executed, _⟩ := ofSeparated_stores separated
  exact ⟨d, executed⟩

theorem ofSeparated_denotes {s : List Interval} (separated : Separated s)
    (bounded : ∀ v, Covers s v → v ≤ maxValue) :
    ∃ d, ofSeparated s = .ok d ∧ d.Denotes (Covers s) := by
  obtain ⟨d, executed, stores⟩ := ofSeparated_stores separated
  exact ⟨d, executed, stores.denotes bounded⟩

/-- Any ordered intervals of values that a domain may hold are brought into smallest form. -/
theorem ofIntervals_denotes {s : List Interval}
    (proper : ∀ r ∈ s, r.lo ≤ r.hi ∧ r.hi ≤ maxValue) :
    ∃ d, ofIntervals s = .ok d ∧ d.Denotes (Covers s) := by
  obtain ⟨d, executed, stores⟩ := ofIntervals_stores fun r member =>
    ⟨(proper r member).1, Nat.lt_of_le_of_lt (proper r member).2 maxValue_lt_wordMax⟩
  have bounded := (bounded_iff fun r member => (proper r member).1).mpr
    fun r member => (proper r member).2
  exact ⟨d, executed, stores.denotes bounded⟩

/-- A well-formed domain is the separated sequence of its members. -/
theorem Valid.toIntervals_covers {d : Domain} (valid : d.Valid) :
    ∃ s, d.toIntervals = .ok s ∧ Separated s ∧ ∀ v, Covers s v ↔ v ∈ d := by
  cases d with
  | empty => exact ⟨[], rfl, separated_nil, fun v => iff_of_false covers_nil mem_empty.mp⟩
  | single v =>
    refine ⟨[Interval.single v], rfl, separated_single (Nat.le_refl v), fun w => ?_⟩
    rw [mem_single, covers_cons, Interval.mem_iff, Interval.single]
    simp only [covers_nil, or_false]
    omega
  | mask m => exact Mask.runs_covers m valid.1
  | intervals s => exact ⟨s, rfl, valid.1, fun v => Iff.rfl⟩

theorem Valid.greatest?_isGreatest {d : Domain} (valid : d.Valid) (nonempty : d ≠ .empty) :
    ∃ v, d.greatest? = .ok (some v) ∧ v ∈ d ∧ ∀ w ∈ d, w ≤ v := by
  cases d with
  | empty => exact absurd rfl nonempty
  | single v => exact ⟨v, rfl, rfl, fun w member => Nat.le_of_eq (mem_single.mp member)⟩
  | mask m =>
    obtain ⟨v, member⟩ := valid.exists_mem nonempty
    have nonzero := Mask.ne_zero_of_bit (mem_mask.mp member)
    refine ⟨m.highest, ?_, Mask.getLsbD_highest nonzero, fun w member => Mask.le_highest member⟩
    rw [greatest?, Mask.greatest_eq_ok nonzero]
    rfl
  | intervals s =>
    obtain ⟨v, r, member, _⟩ := valid.exists_mem nonempty
    cases isLast : s.getLast? with
    | none =>
      rw [List.getLast?_eq_none_iff.mp isLast] at member
      exact absurd member List.not_mem_nil
    | some last =>
      refine ⟨last.hi, ?_, covers_getLast? valid.1 isLast,
        fun w covered => le_hi_of_getLast? valid.1 isLast covered⟩
      rw [greatest?, Intervals.greatest?, isLast]
      rfl

theorem Valid.least?_isLeast {d : Domain} (valid : d.Valid) (nonempty : d ≠ .empty) :
    ∃ v, d.least? = .ok (some v) ∧ v ∈ d ∧ ∀ w ∈ d, v ≤ w := by
  cases d with
  | empty => exact absurd rfl nonempty
  | single v => exact ⟨v, rfl, rfl, fun w member => Nat.le_of_eq (mem_single.mp member).symm⟩
  | mask m =>
    obtain ⟨v, member⟩ := valid.exists_mem nonempty
    have nonzero := Mask.ne_zero_of_bit (mem_mask.mp member)
    refine ⟨m.lowest, ?_, Mask.getLsbD_lowest nonzero, fun w member => Mask.lowest_le member⟩
    rw [least?, Mask.least_eq_ok nonzero]
    rfl
  | intervals s =>
    obtain ⟨v, r, member, _⟩ := valid.exists_mem nonempty
    cases s with
    | nil => exact absurd member List.not_mem_nil
    | cons first rest =>
      exact ⟨first.lo, rfl, covers_lo valid.1, fun w covered => lo_le_of_covers valid.1 covered⟩

/-- The smallest member is `lo` and the largest one `hi`, and they are answered as such. -/
structure Spans (d : Domain) (lo hi : Nat) : Prop where
  least : d.least? = .ok (some lo)
  greatest : d.greatest? = .ok (some hi)
  lo_mem : lo ∈ d
  hi_mem : hi ∈ d
  within : ∀ v ∈ d, lo ≤ v ∧ v ≤ hi

theorem Valid.exists_spans {d : Domain} (valid : d.Valid) (nonempty : d ≠ .empty) :
    ∃ lo hi, d.Spans lo hi := by
  obtain ⟨lo, least, lo_mem, below⟩ := valid.least?_isLeast nonempty
  obtain ⟨hi, greatest, hi_mem, above⟩ := valid.greatest?_isGreatest nonempty
  exact ⟨lo, hi, least, greatest, lo_mem, hi_mem, fun v member => ⟨below v member, above v member⟩⟩

/-- Members between which all others lie are the ones that are answered. -/
theorem Valid.spans {d : Domain} (valid : d.Valid) {lo hi : Nat} (lo_mem : lo ∈ d) (hi_mem : hi ∈ d)
    (within : ∀ v ∈ d, lo ≤ v ∧ v ≤ hi) : d.Spans lo hi := by
  obtain ⟨least, greatest, spans⟩ := valid.exists_spans (by rintro rfl; exact mem_empty.mp lo_mem)
  have first : least = lo :=
    Nat.le_antisymm (spans.within lo lo_mem).1 (within least spans.lo_mem).1
  have last : greatest = hi :=
    Nat.le_antisymm (within greatest spans.hi_mem).2 (spans.within hi hi_mem).2
  rwa [first, last] at spans

/-- Zero is a member exactly if it is the smallest one. -/
theorem Valid.hasZero_eq {d : Domain} (valid : d.Valid) :
    ∃ b, d.hasZero = .ok b ∧ (b = true ↔ 0 ∈ d) := by
  by_cases nonempty : d = .empty
  · subst nonempty
    exact ⟨false, rfl, iff_of_false Bool.false_ne_true mem_empty.mp⟩
  obtain ⟨v, executed, member, least⟩ := valid.least?_isLeast nonempty
  refine ⟨some v == some 0, by rw [hasZero, executed]; rfl, ?_⟩
  rw [beq_iff_eq, Option.some_inj]
  constructor
  · rintro rfl
    exact member
  · intro zero
    exact Nat.le_zero.mp (least 0 zero)

theorem checkUnary_denotes {op : Operation} {run : Domain → Except Fault Domain} {d : Domain}
    {P : Nat → Prop} (valid : d.Valid) (runs : ∃ r, run d = .ok r ∧ r.Denotes P) :
    ∃ r, checkUnary op run d = .ok r ∧ r.Denotes P := by
  obtain ⟨r, executed, denotes⟩ := runs
  refine ⟨r, ?_, denotes⟩
  rw [checkUnary, checkOperand_eq_ok valid, executed]
  exact checkResult_eq_ok denotes.valid

theorem checkBinary_denotes {op : Operation} {run : Domain → Domain → Except Fault Domain}
    {d e : Domain} {P : Nat → Prop} (dValid : d.Valid) (eValid : e.Valid)
    (runs : ∃ r, run d e = .ok r ∧ r.Denotes P) :
    ∃ r, checkBinary op run d e = .ok r ∧ r.Denotes P := by
  obtain ⟨r, executed, denotes⟩ := runs
  refine ⟨r, ?_, denotes⟩
  rw [checkBinary, checkOperand_eq_ok dValid, checkOperand_eq_ok eValid, executed]
  exact checkResult_eq_ok denotes.valid

end IntegerDomains.Domain

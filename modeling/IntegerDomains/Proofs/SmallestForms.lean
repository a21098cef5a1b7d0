import IntegerDomains.Domain.Canonical
import IntegerDomains.Proofs.Runs
import IntegerDomains.Proofs.Separating
import IntegerDomains.Proofs.Validation

/-!
The number of the values and the largest of them select the form that stores a set, and the form
holds no choice: two smallest forms of one set are equal (`Smallest.ext`).
-/

namespace IntegerDomains.Domain

open Intervals

/-- No earlier form can hold the stored values. -/
def Smallest : Domain → Prop
  | .empty => True
  | .single _ => True
  | .mask m =>
    (∀ v ∈ Domain.mask m, v ≤ maskMax) ∧ ∃ v ∈ Domain.mask m, ∃ w ∈ Domain.mask m, v ≠ w
  | .intervals s =>
    Separated s ∧ (∃ v ∈ Domain.intervals s, maskMax < v) ∧
      ∃ v ∈ Domain.intervals s, ∃ w ∈ Domain.intervals s, v ≠ w

/-- A well-formed domain is a smallest form of values that a domain may hold. -/
theorem valid_iff_smallest {d : Domain} : d.Valid ↔ d.Smallest ∧ ∀ v ∈ d, v ≤ maxValue := by
  cases d with
  | empty => exact iff_of_true trivial ⟨trivial, fun v member => (mem_empty.mp member).elim⟩
  | single v =>
    constructor
    · intro bound
      refine ⟨trivial, fun w member => ?_⟩
      rw [mem_single.mp member]
      exact bound
    · rintro ⟨_, bounded⟩
      exact bounded v rfl
  | mask m =>
    constructor
    · intro valid
      refine ⟨valid, fun v member => ?_⟩
      exact Nat.le_trans (valid.1 v member) (Nat.le_of_lt maskMax_lt_maxValue)
    · exact And.left
  | intervals s =>
    constructor
    · rintro ⟨separated, bounded, high, several⟩
      exact ⟨⟨separated, high, several⟩, bounded⟩
    · rintro ⟨⟨separated, high, several⟩, bounded⟩
      exact ⟨separated, bounded, high, several⟩

theorem Valid.smallest {d : Domain} (valid : d.Valid) :
    d.Smallest := (valid_iff_smallest.mp valid).1

theorem Smallest.exists_mem {d : Domain} (smallest : d.Smallest) (nonempty : d ≠ .empty) :
    ∃ v, v ∈ d := by
  cases d with
  | empty => exact absurd rfl nonempty
  | single v => exact ⟨v, rfl⟩
  | mask m =>
    obtain ⟨_, v, member, _⟩ := smallest
    exact ⟨v, member⟩
  | intervals s =>
    obtain ⟨_, ⟨v, member, _⟩, _⟩ := smallest
    exact ⟨v, member⟩

/-- Only the empty form stores no value. -/
theorem Smallest.eq_empty {d : Domain} (smallest : d.Smallest) (none : ∀ v, v ∉ d) : d = .empty :=
  Decidable.byContradiction fun nonempty =>
    (smallest.exists_mem nonempty).elim fun v member => none v member

private theorem Smallest.eq_single {d : Domain} (smallest : d.Smallest) {v : Nat}
    (only : ∀ w, w ∈ d ↔ w = v) : d = .single v := by
  have same : ∀ {x y : Nat}, x ∈ d → y ∈ d → x = y := fun left right =>
    ((only _).mp left).trans ((only _).mp right).symm
  cases d with
  | empty => exact (mem_empty.mp ((only v).mpr rfl)).elim
  | single w => rw [mem_single.mp ((only v).mpr rfl)]
  | mask m =>
    obtain ⟨_, x, left, y, right, different⟩ := smallest
    exact absurd (same left right) different
  | intervals s =>
    obtain ⟨_, _, x, left, y, right, different⟩ := smallest
    exact absurd (same left right) different

/-- Several values up to `maskMax` are stored as a mask. -/
private theorem Smallest.exists_eq_mask {d : Domain} (smallest : d.Smallest)
    (small : ∀ v ∈ d, v ≤ maskMax) (several : ∃ v ∈ d, ∃ w ∈ d, v ≠ w) : ∃ m, d = .mask m := by
  obtain ⟨v, left, w, right, different⟩ := several
  cases d with
  | empty => exact (mem_empty.mp left).elim
  | single x => exact absurd ((mem_single.mp left).trans (mem_single.mp right).symm) different
  | mask m => exact ⟨m, rfl⟩
  | intervals s =>
    obtain ⟨_, ⟨x, member, beyond⟩, _⟩ := smallest
    have bound := small x member
    omega

/-- Several values, of which one exceeds `maskMax`, are stored as intervals. -/
private theorem Smallest.exists_eq_intervals {d : Domain} (smallest : d.Smallest)
    (high : ∃ v ∈ d, maskMax < v) (several : ∃ v ∈ d, ∃ w ∈ d, v ≠ w) :
    ∃ s, d = .intervals s := by
  obtain ⟨v, left, w, right, different⟩ := several
  cases d with
  | empty => exact (mem_empty.mp left).elim
  | single x => exact absurd ((mem_single.mp left).trans (mem_single.mp right).symm) different
  | mask m =>
    obtain ⟨x, member, beyond⟩ := high
    have bound := smallest.1 x member
    omega
  | intervals s => exact ⟨s, rfl⟩

/-- Smallest forms of the same values are equal. -/
theorem Smallest.ext {d e : Domain} (left : d.Smallest) (right : e.Smallest)
    (same : ∀ v, v ∈ d ↔ v ∈ e) : d = e := by
  -- What makes `d` smallest in its form holds of the members of `e` and forces the same form.
  cases d with
  | empty => exact (right.eq_empty fun v member => mem_empty.mp ((same v).mpr member)).symm
  | single v => exact (right.eq_single fun w => (same w).symm.trans mem_single).symm
  | mask m =>
    obtain ⟨small, x, first, y, second, different⟩ := left
    obtain ⟨n, rfl⟩ := right.exists_eq_mask (fun v member => small v ((same v).mpr member))
      ⟨x, (same x).mp first, y, (same y).mp second, different⟩
    rw [Mask.eq_of_bits same]
  | intervals s =>
    obtain ⟨separated, ⟨top, member, beyond⟩, x, first, y, second, different⟩ := left
    obtain ⟨t, rfl⟩ := right.exists_eq_intervals ⟨top, (same top).mp member, beyond⟩
      ⟨x, (same x).mp first, y, (same y).mp second, different⟩
    rw [separated_ext separated right.1 same]

/-- The domain is the smallest form of the values with the property. -/
structure Stores (d : Domain) (P : Nat → Prop) : Prop where
  smallest : d.Smallest
  mem_iff : ∀ v, v ∈ d ↔ P v

private theorem Stores.congr {d : Domain} {P Q : Nat → Prop} (stores : d.Stores P)
    (same : ∀ v, P v ↔ Q v) : d.Stores Q :=
  ⟨stores.smallest, fun v => (stores.mem_iff v).trans (same v)⟩

theorem stores_empty {P : Nat → Prop} (none : ∀ v, ¬P v) : Domain.empty.Stores P :=
  ⟨trivial, fun v => iff_of_false mem_empty.mp (none v)⟩

theorem stores_single {v : Nat} {P : Nat → Prop} (only : ∀ w, P w ↔ w = v) :
    (Domain.single v).Stores P :=
  ⟨trivial, fun w => mem_single.trans (only w).symm⟩

theorem ofMask_stores {m : Mask} (fits : m.Fits) :
    ∃ d, ofMask m = .ok d ∧ d.Stores fun v => m.getLsbD v = true := by
  rw [ofMask, if_neg (not_not_intro (Mask.fits_iff.mpr fits))]
  by_cases zero : m = 0#32
  · refine ⟨.empty, if_pos zero, stores_empty fun v => ?_⟩
    simp [zero]
  rw [if_neg zero]
  cases alone : m.sole? with
  | some v => exact ⟨.single v, rfl, stores_single (Mask.sole?_eq_some_iff.mp alone)⟩
  | none =>
    obtain ⟨v, w, left, right, different⟩ := Mask.exists_two_of_sole?_eq_none zero alone
    exact ⟨.mask m, rfl, ⟨fits, v, left, w, right, different⟩, fun v => Iff.rfl⟩

theorem ofRuns_stores {s : List Interval} (separated : Separated s) :
    ∃ d, ofRuns s = .ok d ∧ d.Stores (Covers s) := by
  match s with
  | [] => exact ⟨.empty, rfl, stores_empty fun v => covers_nil⟩
  | r :: rest =>
    rw [ofRuns]
    have isLast := List.getLast?_eq_some_getLast (List.cons_ne_nil r rest)
    generalize (r :: rest).getLast (List.cons_ne_nil r rest) = last at isLast
    by_cases one : (rest.isEmpty && r.isSingle) = true
    · rw [if_pos one]
      rw [Bool.and_eq_true, List.isEmpty_iff, Interval.isSingle_iff] at one
      obtain ⟨rfl, same⟩ := one
      refine ⟨.single r.lo, rfl, stores_single fun w => ?_⟩
      rw [covers_cons, Interval.mem_iff]
      simp only [covers_nil, or_false]
      omega
    have several : ∃ v, Covers (r :: rest) v ∧ ∃ w, Covers (r :: rest) w ∧ v ≠ w := by
      refine (two_values_iff separated).mpr ⟨List.cons_ne_nil r rest, fun u equal same => one ?_⟩
      obtain ⟨rfl, rfl⟩ := List.cons.inj equal
      simp [Interval.isSingle, same]
    rw [if_neg one]
    by_cases small : last.hi ≤ maskMax
    · obtain ⟨m, executed, bits⟩ := Mask.ofIntervals_covers _ separated
      have bits : ∀ v, m.getLsbD v = true ↔ Covers (r :: rest) v := fun v =>
        (bits v).trans (and_iff_right_of_imp fun covered =>
          Nat.le_trans (le_hi_of_getLast? separated isLast covered) small)
      obtain ⟨v, left, w, right, different⟩ := several
      refine ⟨.mask m, by rw [if_pos small, executed]; rfl, ⟨fun v member => ?_, ?_⟩, bits⟩
      · exact Nat.le_trans (le_hi_of_getLast? separated isLast ((bits v).mp member)) small
      · exact ⟨v, (bits v).mpr left, w, (bits w).mpr right, different⟩
    · obtain ⟨v, left, w, right, different⟩ := several
      have top := covers_getLast? separated isLast
      exact ⟨.intervals (r :: rest), if_neg small,
        ⟨separated, ⟨last.hi, top, Nat.lt_of_not_le small⟩, v, left, w, right, different⟩,
        fun v => Iff.rfl⟩

theorem ofSeparated_stores {s : List Interval} (separated : Separated s) :
    ∃ d, ofSeparated s = .ok d ∧ d.Stores (Covers s) := by
  rw [ofSeparated, if_pos (isSeparated_iff.mpr separated)]
  exact ofRuns_stores separated

/-- Any ordered intervals whose ends leave room in the machine word are brought into
    smallest form. -/
theorem ofIntervals_stores {s : List Interval} (words : ∀ r ∈ s, r.lo ≤ r.hi ∧ r.hi < wordMax) :
    ∃ d, ofIntervals s = .ok d ∧ d.Stores (Covers s) := by
  rw [ofIntervals]
  by_cases nothing : s.isEmpty = true
  · obtain rfl := List.isEmpty_iff.mp nothing
    exact ⟨.empty, rfl, stores_empty fun v => covers_nil⟩
  rw [if_neg nothing]
  obtain ⟨t, executed, separated, covers⟩ := separate_covers (s := s)
    (fun r member => (words r member).1) fun r member => (words r member).2
  obtain ⟨d, built, stores⟩ := ofSeparated_stores separated
  exact ⟨d, by rw [executed]; exact built, stores.congr covers⟩

/-- Data that can be brought into a form: bits up to `maskMax`, or ordered intervals whose ends
    leave room in the machine word. -/
def Repairable : Domain → Prop
  | .empty => True
  | .single _ => True
  | .mask m => m.Fits
  | .intervals s => ∀ r ∈ s, r.lo ≤ r.hi ∧ r.hi < wordMax

theorem Valid.repairable {d : Domain} (valid : d.Valid) : d.Repairable := by
  cases d with
  | empty => trivial
  | single v => trivial
  | mask m => exact valid.1
  | intervals s =>
    intro r member
    have bound := (bounded_iff valid.1.1).mp valid.2.1 r member
    exact ⟨valid.1.1 r member, Nat.lt_of_le_of_lt bound maxValue_lt_wordMax⟩

theorem compact_stores {d : Domain} (repairable : d.Repairable) :
    ∃ r, d.compact = .ok r ∧ r.Stores (· ∈ d) := by
  cases d with
  | empty => exact ⟨.empty, rfl, trivial, fun v => Iff.rfl⟩
  | single v => exact ⟨.single v, rfl, trivial, fun w => Iff.rfl⟩
  | mask m => exact ofMask_stores repairable
  | intervals s => exact ofIntervals_stores repairable

end IntegerDomains.Domain

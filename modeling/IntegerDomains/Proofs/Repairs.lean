import IntegerDomains.Proofs.Denotation

namespace IntegerDomains.Domain

open Intervals

variable {d r : Domain}

/-- What is compacted is the only smallest form of the stored values. -/
private theorem compact_eq_ok_iff (repairable : d.Repairable) :
    d.compact = .ok r ↔ r.Stores (· ∈ d) := by
  obtain ⟨e, executed, stores⟩ := compact_stores repairable
  rw [executed, Except.ok.injEq]
  constructor
  · rintro rfl
    exact stores
  · intro other
    exact stores.smallest.ext other.smallest fun v => (stores.mem_iff v).trans (other.mem_iff v).symm

/-- One value may fill the machine word, but of several none does. -/
private theorem Repairable.lt_wordMax (repairable : d.Repairable)
    (several : ∃ v ∈ d, ∃ w ∈ d, v ≠ w) {v : Nat} (member : v ∈ d) : v < wordMax := by
  cases d with
  | empty => exact (mem_empty.mp member).elim
  | single x =>
    obtain ⟨v, left, w, right, different⟩ := several
    exact absurd ((mem_single.mp left).trans (mem_single.mp right).symm) different
  | mask m =>
    have small := repairable v member
    exact Nat.lt_of_le_of_lt small (Nat.lt_trans maskMax_lt_maxValue maxValue_lt_wordMax)
  | intervals s =>
    obtain ⟨u, inside, _, stop⟩ := mem_intervals.mp member
    exact Nat.lt_of_le_of_lt stop (repairable u inside).2

/-- The smallest form of repairable data is repairable itself. -/
private theorem Stores.repairable (stores : r.Stores (· ∈ d)) (repairable : d.Repairable) :
    r.Repairable := by
  have smallest := stores.smallest
  cases r with
  | empty => trivial
  | single v => trivial
  | mask m => exact smallest.1
  | intervals s =>
    obtain ⟨separated, _, x, left, y, right, different⟩ := smallest
    have several : ∃ v ∈ d, ∃ w ∈ d, v ≠ w :=
      ⟨x, (stores.mem_iff x).mp left, y, (stores.mem_iff y).mp right, different⟩
    intro u inside
    have ordered := separated.1 u inside
    have member : u.hi ∈ d := (stores.mem_iff u.hi).mp ⟨u, inside, ordered, Nat.le_refl _⟩
    exact ⟨ordered, repairable.lt_wordMax several member⟩

/-- Compaction answers a domain of exactly the stored values, which it leaves as it is when applied
    again. The domain is well formed exactly if no value exceeds `maxValue`, and it is the given one
    if that was well formed. -/
theorem compact_repairs (repairable : d.Repairable) :
    ∃ r, d.compact = .ok r ∧ (∀ v, v ∈ r ↔ v ∈ d) ∧ (∀ v, r.contains v = true ↔ v ∈ d) ∧
      r.compact = .ok r ∧ (r.validate = .ok () ↔ ∀ v ∈ d, v ≤ maxValue) ∧
      (d.validate = .ok () → r = d) := by
  obtain ⟨r, executed, stores⟩ := compact_stores repairable
  have again := (compact_eq_ok_iff (stores.repairable repairable)).mpr
    ⟨stores.smallest, fun _ => Iff.rfl⟩
  refine ⟨r, executed, stores.mem_iff, fun v => ?_, again, ?_, fun accepted => ?_⟩
  · rw [stores.smallest.contains_iff, stores.mem_iff]
  · rw [validate_eq_ok_iff, valid_iff_smallest, and_iff_right stores.smallest]
    simp only [stores.mem_iff]
  · have valid := validate_eq_ok_iff.mp accepted
    exact stores.smallest.ext valid.smallest stores.mem_iff

/-- Touching and overlapping intervals out of order, one of them beyond `maxValue`. -/
theorem compact_repairs_beyondMaxValue :
    (Domain.intervals [⟨400000000, 400000007⟩, ⟨9, 30⟩, ⟨5, 8⟩, ⟨6, 12⟩]).Repairable ∧
      (Domain.intervals [⟨400000000, 400000007⟩, ⟨9, 30⟩, ⟨5, 8⟩, ⟨6, 12⟩]).compact =
        .ok (.intervals [⟨5, 30⟩, ⟨400000000, 400000007⟩]) ∧
      (Domain.intervals [⟨5, 30⟩, ⟨400000000, 400000007⟩]).compact =
        .ok (.intervals [⟨5, 30⟩, ⟨400000000, 400000007⟩]) ∧
      (Domain.intervals [⟨5, 30⟩, ⟨400000000, 400000007⟩]).validate ≠ .ok () := by
  have repairable : (Domain.intervals
      [⟨400000000, 400000007⟩, ⟨9, 30⟩, ⟨5, 8⟩, ⟨6, 12⟩]).Repairable := by
    show ∀ r ∈ _, _
    decide
  have smallest : (Domain.intervals [⟨5, 30⟩, ⟨400000000, 400000007⟩]).Smallest :=
    ⟨isSeparated_iff.mp rfl, ⟨400000007, by decide, by decide⟩, 5, by decide, 6, by decide, by decide⟩
  have executed : (Domain.intervals
      [⟨400000000, 400000007⟩, ⟨9, 30⟩, ⟨5, 8⟩, ⟨6, 12⟩]).compact =
        .ok (.intervals [⟨5, 30⟩, ⟨400000000, 400000007⟩]) := by
    refine (compact_eq_ok_iff repairable).mpr ⟨smallest, fun v => ?_⟩
    show Covers _ v ↔ Covers _ v
    simp only [covers_cons, covers_nil, or_false, Interval.mem_iff]
    omega
  obtain ⟨r, found, _, _, again, accepts, _⟩ := compact_repairs repairable
  obtain rfl := Except.ok.inj (executed.symm.trans found)
  refine ⟨repairable, executed, again, fun accepted => ?_⟩
  have beyond := accepts.mp accepted 400000007 (by decide)
  revert beyond
  decide

end IntegerDomains.Domain

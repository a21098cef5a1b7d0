import IntegerDomains.Proofs.Combination
import IntegerDomains.Proofs.Construction

namespace IntegerDomains

open Intervals

namespace Packed

private theorem toValue_ofValue {v : Nat} (fits : v ≤ wordMax) :
    toValue (ofValue v).1 (ofValue v).2 = v := by
  simp only [toValue, ofValue, UInt16.toNat_ofNat', wordMax] at *
  omega

private theorem toInterval_ofInterval {r : Interval} (lower : r.lo ≤ wordMax)
    (upper : r.hi ≤ wordMax) :
    toInterval (ofValue r.lo).1 (ofValue r.lo).2 (ofValue r.hi).1 (ofValue r.hi).2 = r := by
  rw [toInterval, toValue_ofValue lower, toValue_ofValue upper]

theorem length_ofIntervals (s : List Interval) : (ofIntervals s).length = 4 * s.length := by
  induction s with
  | nil => rfl
  | cons r rest ih =>
    simp only [ofIntervals, ofInterval, List.flatMap_cons, List.length_append, List.length_cons,
      List.length_nil] at ih ⊢
    omega

theorem allGroups_ofIntervals {s : List Interval}
    (fits : ∀ r ∈ s, r.lo ≤ wordMax ∧ r.hi ≤ wordMax) : allGroups (ofIntervals s) = s := by
  induction s with
  | nil => rfl
  | cons r rest ih =>
    obtain ⟨⟨lower, upper⟩, others⟩ := List.forall_mem_cons.mp fits
    have whole := toInterval_ofInterval lower upper
    have remaining := ih others
    simp only [ofIntervals, List.flatMap_cons] at remaining ⊢
    simp [ofInterval, allGroups, whole, remaining]

end Packed

namespace Intervals

theorem Proper.allGroups_ofIntervals {s : List Interval} (proper : Proper s) :
    Packed.allGroups (Packed.ofIntervals s) = s := by
  apply Packed.allGroups_ofIntervals
  intro r member
  have bounds := proper.mem member
  have room := maxValue_lt_wordMax
  omega

theorem mem_values {s : List Interval} {v : Nat} : v ∈ values s ↔ Covers s v := by
  simp only [values, List.mem_flatMap, List.mem_range'_1, Covers, Interval.mem_iff]
  apply exists_congr
  intro r
  apply and_congr_right
  intro _
  omega

end Intervals

namespace Domain

theorem Valid.mem_toList {d : Domain} (valid : d.Valid) {v : Nat} : v ∈ d.toList ↔ v ∈ d := by
  cases d with
  | empty => simp [toList, mem_empty]
  | single w => simp [toList, mem_single]
  | mask m => exact Mask.mem_values
  | intervals s => exact Intervals.mem_values

theorem Valid.tryOfPairs_toPairs {d : Domain} (valid : d.Valid) :
    ∃ pairs, d.toPairs = .ok pairs ∧ tryOfPairs pairs = .ok d := by
  obtain ⟨s, executed, proper, covers⟩ := valid.toIntervals_proper
  refine ⟨s.map fun r => (r.lo, r.hi), by rw [toPairs, executed]; rfl, ?_⟩
  refine valid.rebuilt (tryOfPairs_denotes ?_) ?_
  · intro pair member
    obtain ⟨r, inside, rfl⟩ := List.mem_map.mp member
    exact proper.mem inside
  · intro v
    rw [← covers v]
    constructor
    · rintro ⟨pair, member, inside⟩
      obtain ⟨r, inRuns, rfl⟩ := List.mem_map.mp member
      exact ⟨r, inRuns, inside⟩
    · rintro ⟨r, inRuns, inside⟩
      exact ⟨(r.lo, r.hi), List.mem_map.mpr ⟨r, inRuns, rfl⟩, inside⟩

theorem Valid.ofSeparated_toIntervals {d : Domain} (valid : d.Valid) :
    ∃ s, d.toIntervals = .ok s ∧ d.copyIntervals = .ok s ∧ ofSeparated s = .ok d ∧
      ofIntervals s = .ok d := by
  obtain ⟨s, executed, proper, covers⟩ := valid.toIntervals_proper
  refine ⟨s, executed, by rw [copyIntervals_eq, executed], ?_, ?_⟩
  · exact valid.rebuilt (ofSeparated_denotes proper.separated proper.bounded) covers
  · exact valid.rebuilt (ofIntervals_denotes fun r member => proper.mem member) covers

theorem Valid.ofPacked_toPacked {d : Domain} (valid : d.Valid) :
    ∃ words, d.toPacked = .ok words ∧ ofPacked words = .ok d := by
  obtain ⟨s, executed, proper, covers⟩ := valid.toIntervals_proper
  have decoded := proper.allGroups_ofIntervals
  refine ⟨Packed.ofIntervals s, by rw [toPacked, executed]; rfl, ?_⟩
  refine valid.rebuilt (ofPacked_denotes ?_ ?_) ?_
  · rw [Packed.length_ofIntervals]
    omega
  · rw [decoded]
    intro r member
    exact proper.mem member
  · rw [decoded]
    exact covers

theorem Valid.ofList_eq {d : Domain} (valid : d.Valid) {vs : List Nat}
    (same : ∀ v, v ∈ vs ↔ v ∈ d) : ofList vs = .ok d := by
  apply valid.rebuilt (ofList_denotes _) same
  intro v member
  exact valid.le_maxValue ((same v).mp member)

theorem Valid.ofList_toListByRuns {d : Domain} (valid : d.Valid) :
    ∃ vs, d.toListByRuns = .ok vs ∧ ofList vs = .ok d := by
  obtain ⟨s, executed, _, covers⟩ := valid.toIntervals_proper
  refine ⟨Intervals.values s, by rw [toListByRuns, executed]; rfl, valid.ofList_eq ?_⟩
  intro v
  rw [Intervals.mem_values, covers]

/-- Whatever a well-formed domain is written out as, the constructor that reads it answers the same
    domain: pairs of bounds, checked or not, intervals as they are or to be separated, packed words,
    and the values listed from the form or run by run. -/
theorem constructors_undo_exports {d : Domain} (valid : d.validate = .ok ()) :
    (∃ pairs, d.toPairs = .ok pairs ∧ ofPairs pairs = .ok d ∧ tryOfPairs pairs = .ok d) ∧
      (∃ s, d.toIntervals = .ok s ∧ d.copyIntervals = .ok s ∧ ofSeparated s = .ok d ∧
        ofIntervals s = .ok d) ∧
      (∃ words, d.toPacked = .ok words ∧ ofPacked words = .ok d) ∧
      ofList d.toList = .ok d ∧ ∃ vs, d.toListByRuns = .ok vs ∧ ofList vs = .ok d := by
  rw [validate_eq_ok_iff] at valid
  obtain ⟨pairs, exported, rebuilt⟩ := valid.tryOfPairs_toPairs
  refine ⟨⟨pairs, exported, mapError_eq_ok_iff.mpr rebuilt, rebuilt⟩,
    valid.ofSeparated_toIntervals, valid.ofPacked_toPacked, valid.ofList_eq ?_,
    valid.ofList_toListByRuns⟩
  intro v
  exact valid.mem_toList

/-- Runs on either side of the limit of a packed word, up to the largest value. -/
theorem constructors_undo_exports_intervals :
    (Domain.intervals [⟨0, 3⟩, ⟨65534, 65537⟩, ⟨100000000, 100000000⟩]).validate = .ok () ∧
      ∃ words, (Domain.intervals [⟨0, 3⟩, ⟨65534, 65537⟩, ⟨100000000, 100000000⟩]).toPacked =
          .ok words ∧
        ofPacked words = .ok (.intervals [⟨0, 3⟩, ⟨65534, 65537⟩, ⟨100000000, 100000000⟩]) := by
  refine ⟨rfl, ?_⟩
  obtain ⟨_, _, packed, _⟩ := constructors_undo_exports
    (d := .intervals [⟨0, 3⟩, ⟨65534, 65537⟩, ⟨100000000, 100000000⟩]) rfl
  exact packed

end Domain

end IntegerDomains

import IntegerDomains.Proofs.Packing
import IntegerDomains.Proofs.SeparatedForm

namespace IntegerDomains.Packed

open Intervals

/-- The bounds fit the machine word, in any order. -/
def WordBounds (s : List Interval) : Prop := ∀ r ∈ s, r.lo ≤ wordMax ∧ r.hi ≤ wordMax

variable {words : List UInt16} {s : List Interval}

private theorem toValue_le_wordMax (high low : UInt16) : toValue high low ≤ wordMax := by
  have lowFits := UInt16.toNat_lt low
  have highFits := UInt16.toNat_lt high
  simp only [toValue, wordMax]
  omega

private theorem wordBounds_allGroups (words : List UInt16) : WordBounds (allGroups words) := by
  fun_induction allGroups words with
  | case1 a b c d rest ih =>
    exact List.forall_mem_cons.mpr ⟨⟨toValue_le_wordMax a b, toValue_le_wordMax c d⟩, ih⟩
  | case2 => simp [WordBounds]

/-- A sequence is packed into the words whose groups are its intervals. -/
theorem ofIntervals_eq_iff (bounds : WordBounds s) :
    ofIntervals s = words ↔ words.length % 4 = 0 ∧ s = allGroups words := by
  constructor
  · rintro rfl
    rw [length_ofIntervals, allGroups_ofIntervals bounds]
    exact ⟨Nat.mul_mod_right 4 _, rfl⟩
  · rintro ⟨whole, rfl⟩
    exact ofIntervals_allGroups whole

/-- Exactly the packed sequences of ordered intervals are unpacked. -/
theorem toIntervals_eq_ok_iff_packed :
    toIntervals words = .ok s ↔ OfWords s ∧ ofIntervals s = words := by
  rw [toIntervals_eq_ok_iff]
  constructor
  · rintro ⟨whole, ordered, rfl⟩
    have bounds := wordBounds_allGroups words
    exact ⟨fun r member => ⟨ordered r member, (bounds r member).2⟩, ofIntervals_allGroups whole⟩
  · rintro ⟨ofWords, packed⟩
    have bounds : WordBounds s := fun r member =>
      ⟨Nat.le_trans (ofWords r member).1 (ofWords r member).2, (ofWords r member).2⟩
    obtain ⟨whole, rfl⟩ := (ofIntervals_eq_iff bounds).mp packed
    exact ⟨whole, fun r member => (ofWords r member).1, rfl⟩

theorem toIntervals_eq_packedLength_iff {count : Nat} :
    toIntervals words = .error (.packedLength count) ↔
      words.length % 4 ≠ 0 ∧ count = words.length := by
  rw [toIntervals_eq_error_iff]
  simp

/-- Whole groups are refused for the first inverted one alone. -/
private theorem toIntervals_allGroups_eq_error_iff (whole : words.length % 4 = 0)
    {defect : Defect} : toIntervals words = .error defect ↔
      ∃ r, IsFirst (fun q => q.hi < q.lo) (allGroups words) r ∧ defect = .inverted r.lo r.hi := by
  rw [toIntervals_eq_error_iff]
  simp [whole]

/-- Packing and unpacking are inverse between the ordered intervals of machine words and the
    words that are accepted. Words are refused for their number if they are no whole groups.
    Otherwise they are the packed form of one sequence, and refused for its first inverted
    interval if it has one. -/
theorem words_correspond_to_intervals :
    (∀ s, OfWords s → toIntervals (ofIntervals s) = .ok s) ∧
      (∀ words s, toIntervals words = .ok s → OfWords s ∧ ofIntervals s = words) ∧
      (∀ words count, toIntervals words = .error (.packedLength count) ↔
        words.length % 4 ≠ 0 ∧ count = words.length) ∧
      ∀ words, words.length % 4 = 0 →
        ∃ s, (WordBounds s ∧ ofIntervals s = words) ∧
          (∀ t, WordBounds t → ofIntervals t = words → t = s) ∧
          ∀ defect, toIntervals words = .error defect ↔
            ∃ r, IsFirst (fun q => q.hi < q.lo) s r ∧ defect = .inverted r.lo r.hi := by
  refine ⟨?_, ?_, fun _ _ => toIntervals_eq_packedLength_iff, ?_⟩
  · intro s ofWords
    exact toIntervals_eq_ok_iff_packed.mpr ⟨ofWords, rfl⟩
  · intro words s unpacked
    exact toIntervals_eq_ok_iff_packed.mp unpacked
  · intro words whole
    refine ⟨allGroups words, ⟨wordBounds_allGroups words, ofIntervals_allGroups whole⟩, ?_, ?_⟩
    · intro t bounds packed
      exact ((ofIntervals_eq_iff bounds).mp packed).2
    · intro defect
      exact toIntervals_allGroups_eq_error_iff whole

/-- Bounds on either side of a half word, and two inverted groups behind an ordered one. -/
theorem words_correspond_to_intervals_inverted :
    OfWords [⟨0, wordMax⟩, ⟨65535, 65536⟩] ∧
      toIntervals (ofIntervals [⟨0, wordMax⟩, ⟨65535, 65536⟩]) = .ok [⟨0, wordMax⟩, ⟨65535, 65536⟩] ∧
      toIntervals [1, 2, 3, 4] = .ok [⟨65538, 196612⟩] ∧
      ofIntervals [⟨65538, 196612⟩] = [1, 2, 3, 4] ∧
      [0, 1, 0, 2, 0, 9, 0, 4, 1, 0, 0, 8].length % 4 = 0 ∧
      toIntervals [0, 1, 0, 2, 0, 9, 0, 4, 1, 0, 0, 8] = .error (.inverted 9 4) ∧
      ∃ s, ofIntervals s = [0, 1, 0, 2, 0, 9, 0, 4, 1, 0, 0, 8] ∧
        ∃ r, IsFirst (fun q => q.hi < q.lo) s r ∧ Defect.inverted 9 4 = .inverted r.lo r.hi := by
  have bounds : OfWords [⟨0, wordMax⟩, ⟨65535, 65536⟩] := by decide
  have accepted : toIntervals [1, 2, 3, 4] = .ok [⟨65538, 196612⟩] := rfl
  have refused : toIntervals [0, 1, 0, 2, 0, 9, 0, 4, 1, 0, 0, 8] = .error (.inverted 9 4) := rfl
  obtain ⟨packs, unpacks, _, groups⟩ := words_correspond_to_intervals
  obtain ⟨s, ⟨_, packed⟩, _, defects⟩ := groups [0, 1, 0, 2, 0, 9, 0, 4, 1, 0, 0, 8] rfl
  exact ⟨bounds, packs _ bounds, accepted, (unpacks _ _ accepted).2, rfl, refused, s, packed,
    (defects _).mp refused⟩

end IntegerDomains.Packed

import IntegerDomains.Proofs.Exports

/-!
The words of one domain differ by how they split it into intervals. The packed form is a shortest
one among them, since no cover has fewer intervals than the separated one.
-/

namespace IntegerDomains

open Intervals

namespace Packed

private theorem ofValue_toValue (high low : UInt16) : ofValue (toValue high low) = (high, low) := by
  have lowFits := UInt16.toNat_lt low
  have highFits := UInt16.toNat_lt high
  refine Prod.ext ?_ ?_
  · apply UInt16.toNat_inj.mp
    simp only [ofValue, toValue, UInt16.toNat_ofNat']
    omega
  · apply UInt16.toNat_inj.mp
    simp only [ofValue, toValue, UInt16.toNat_ofNat']
    omega

private theorem ofInterval_toInterval (a b c d : UInt16) :
    ofInterval (toInterval a b c d) = [a, b, c, d] := by
  simp only [ofInterval, toInterval, ofValue_toValue]

/-- Whole groups are packed again into the words that they came from. -/
theorem ofIntervals_allGroups {words : List UInt16} (whole : words.length % 4 = 0) :
    ofIntervals (allGroups words) = words := by
  fun_induction allGroups words with
  | case1 a b c d rest ih =>
    have others := ih (by simp only [List.length_cons] at whole; omega)
    rw [ofIntervals] at others ⊢
    rw [List.flatMap_cons, ofInterval_toInterval, others]
    rfl
  | case2 words short =>
    rcases words with _ | ⟨a, _ | ⟨b, _ | ⟨c, _ | ⟨d, rest⟩⟩⟩⟩
    · rfl
    · simp at whole
    · simp at whole
    · simp at whole
    · exact absurd rfl (short a b c d rest)

/-- The groups are read in turn up to the first inverted one. -/
private theorem groups_eq_mapM (words : List UInt16) :
    groups words = (allGroups words).mapM fun r =>
      if r.hi < r.lo then .error (.inverted r.lo r.hi) else .ok r := by
  fun_induction allGroups words with
  | case1 a b c d rest ih =>
    rw [groups, List.mapM_cons, ih]
    by_cases inverted : (toInterval a b c d).hi < (toInterval a b c d).lo <;>
      simp only [inverted, if_true, if_false] <;> rfl
  | case2 words short =>
    rw [groups]
    · rfl
    · exact short

theorem toIntervals_eq_ok_iff {words : List UInt16} {s : List Interval} :
    toIntervals words = .ok s ↔
      words.length % 4 = 0 ∧ (∀ r ∈ allGroups words, r.lo ≤ r.hi) ∧ s = allGroups words := by
  rw [toIntervals, ← groups_eq_ok_iff]
  by_cases whole : words.length % 4 = 0 <;> simp [whole]

theorem toIntervals_eq_error_iff {words : List UInt16} {defect : Defect} :
    toIntervals words = .error defect ↔
      words.length % 4 ≠ 0 ∧ defect = .packedLength words.length ∨
      words.length % 4 = 0 ∧ ∃ r, IsFirst (fun q => q.hi < q.lo) (allGroups words) r ∧
        defect = .inverted r.lo r.hi := by
  have fails : ∀ r : Interval, (∃ defect, (if r.hi < r.lo then
      Except.error (Defect.inverted r.lo r.hi) else .ok r) = .error defect) ↔ r.hi < r.lo := by
    intro r
    by_cases inverted : r.hi < r.lo <;> simp [inverted]
  rw [toIntervals]
  by_cases whole : words.length % 4 = 0
  · simp only [whole, ne_eq, not_true_eq_false, if_false, false_and, false_or, true_and]
    rw [groups_eq_mapM, mapM_eq_error_iff fails]
    apply exists_congr
    intro r
    apply and_congr_right
    rintro ⟨_, _, _, _, inverted⟩
    rw [if_pos inverted, Except.error.injEq, eq_comm]
  · simp [whole, eq_comm]

/-- The answer to packed words: a domain of all values that some group covers, or the first reason
    why there is none, with what was found in order before it. -/
def Answer (words : List UInt16) : Except Refusal Domain → Prop
  | .ok d => words.length % 4 = 0 ∧ (∀ r ∈ allGroups words, r.lo ≤ r.hi ∧ r.hi ≤ maxValue) ∧
      d.validate = .ok () ∧ ∀ v, v ∈ d ↔ Covers (allGroups words) v
  | .error (.rejected (.packedLength count)) => words.length % 4 ≠ 0 ∧ count = words.length
  | .error (.rejected (.inverted lo hi)) => words.length % 4 = 0 ∧
      IsFirst (fun r => r.hi < r.lo) (allGroups words) ⟨lo, hi⟩
  | .error (.rejected (.outOfBounds v)) => words.length % 4 = 0 ∧
      (∀ r ∈ allGroups words, r.lo ≤ r.hi) ∧
      ∃ r, IsFirst (fun r => maxValue < r.hi) (allGroups words) r ∧ r.hi = v
  | _ => False

end Packed

namespace Domain

theorem ofPacked_eq_ok_iff {words : List UInt16} {d : Domain} :
    ofPacked words = .ok d ↔ (words.length % 4 = 0 ∧
      ∀ r ∈ Packed.allGroups words, r.lo ≤ r.hi ∧ r.hi ≤ maxValue) ∧
      d.Denotes (Covers (Packed.allGroups words)) := by
  apply eq_ok_iff_denotes ofPacked_accepts_iff
  rintro ⟨whole, accepted⟩
  exact ofPacked_denotes whole accepted

/-- The words are refused by the decoder, or else for the first interval that a domain
    cannot hold. -/
theorem ofPacked_eq_error_iff {words : List UInt16} {refusal : Refusal} :
    ofPacked words = .error refusal ↔
      (∃ defect, Packed.toIntervals words = .error defect ∧ refusal = .rejected defect) ∨
      ∃ s, Packed.toIntervals words = .ok s ∧ ∃ r, IsFirst (fun q => maxValue < q.hi) s r ∧
        refusal = .rejected (.outOfBounds r.hi) := by
  rw [ofPacked]
  cases decoded : Packed.toIntervals words with
  | error defect => simp [bind, Except.bind, eq_comm]
  | ok s =>
    simp only [mapError_ok, bind, Except.bind, reduceCtorEq, false_and, exists_false, false_or,
      Except.ok.injEq, exists_eq_left', ← find?_eq_some_iff_isFirst]
    cases found : s.find? fun r => decide (maxValue < r.hi) with
    | some first => simp [throw, throwThe, MonadExceptOf.throw, eq_comm]
    | none =>
      obtain ⟨_, ordered, rfl⟩ := Packed.toIntervals_eq_ok_iff.mp decoded
      have proper : ∀ r ∈ Packed.allGroups words, r.lo ≤ r.hi ∧ r.hi ≤ maxValue := by
        intro r member
        have within := List.find?_eq_none.mp found r member
        rw [decide_eq_true_eq] at within
        exact ⟨ordered r member, Nat.le_of_not_lt within⟩
      obtain ⟨d, built, _⟩ := ofIntervals_denotes proper
      simp [built]

end Domain

namespace Packed

private theorem answer_ok_iff {words : List UInt16} {d : Domain} :
    Answer words (.ok d) ↔ Domain.ofPacked words = .ok d := by
  rw [Domain.ofPacked_eq_ok_iff, Answer, Domain.validate_eq_ok_iff]
  constructor
  · rintro ⟨whole, accepted, valid, covers⟩
    exact ⟨⟨whole, accepted⟩, valid, covers⟩
  · rintro ⟨⟨whole, accepted⟩, denotes⟩
    exact ⟨whole, accepted, denotes.valid, denotes.mem_iff⟩

private theorem answer_error_iff {words : List UInt16} {refusal : Refusal} :
    Answer words (.error refusal) ↔ Domain.ofPacked words = .error refusal := by
  rw [Domain.ofPacked_eq_error_iff]
  simp only [toIntervals_eq_error_iff, toIntervals_eq_ok_iff]
  cases refusal with
  | failed fault => simp [Answer]
  | rejected defect =>
    cases defect with
    | packedLength count =>
      constructor
      · rintro ⟨short, rfl⟩
        exact .inl ⟨_, .inl ⟨short, rfl⟩, rfl⟩
      · rintro (⟨_, ⟨short, rfl⟩ | ⟨_, _, _, rfl⟩, ⟨⟩⟩ | ⟨_, _, _, _, ⟨⟩⟩)
        exact ⟨short, rfl⟩
    | inverted lo hi =>
      constructor
      · rintro ⟨whole, first⟩
        exact .inl ⟨_, .inr ⟨whole, _, first, rfl⟩, rfl⟩
      · rintro (⟨_, ⟨_, rfl⟩ | ⟨whole, _, first, rfl⟩, ⟨⟩⟩ | ⟨_, _, _, _, ⟨⟩⟩)
        exact ⟨whole, first⟩
    | outOfBounds v =>
      constructor
      · rintro ⟨whole, ordered, r, first, rfl⟩
        exact .inr ⟨_, ⟨whole, ordered, rfl⟩, r, first, rfl⟩
      · rintro (⟨_, ⟨_, rfl⟩ | ⟨_, _, _, rfl⟩, ⟨⟩⟩ | ⟨_, ⟨whole, ordered, rfl⟩, r, first, ⟨⟩⟩)
        exact ⟨whole, ordered, r, first, rfl⟩
    | _ => simp [Answer]

end Packed

namespace Domain

theorem ofPacked_eq_iff {words : List UInt16} {answer : Except Refusal Domain} :
    ofPacked words = answer ↔ Packed.Answer words answer := by
  cases answer with
  | ok d => exact Packed.answer_ok_iff.symm
  | error refusal => exact Packed.answer_error_iff.symm

theorem toPacked_shortest {words : List UInt16} {d : Domain} (unpacked : ofPacked words = .ok d) :
    ∃ packed, d.toPacked = .ok packed ∧ packed.length ≤ words.length ∧
      (packed = words ↔ Separated (Packed.allGroups words)) := by
  obtain ⟨⟨whole, _⟩, denotes⟩ := ofPacked_eq_ok_iff.mp unpacked
  obtain ⟨s, executed, proper, covers⟩ := denotes.valid.toIntervals_proper
  have same : ∀ v, Covers s v ↔ Covers (Packed.allGroups words) v := by
    intro v
    rw [covers, denotes.mem_iff]
  have repacked := Packed.ofIntervals_allGroups whole
  refine ⟨Packed.ofIntervals s, by rw [toPacked, executed]; rfl, ?_, ?_⟩
  · calc (Packed.ofIntervals s).length = 4 * s.length := Packed.length_ofIntervals s
      _ ≤ 4 * (Packed.allGroups words).length :=
        Nat.mul_le_mul_left 4 (length_le_of_covers proper.separated same)
      _ = words.length := by rw [← Packed.length_ofIntervals, repacked]
  · constructor
    · intro equal
      rw [← equal, proper.allGroups_ofIntervals]
      exact proper.separated
    · intro separated
      rw [separated_ext proper.separated separated same, repacked]

/-- Packed words are read exactly as their groups say: as the domain of the values that the
    groups cover, or else they are refused for the first reason there is. No words of a domain
    are fewer than those into which it is packed, and they are the same words exactly if their
    groups are separated. -/
theorem ofPacked_exact_toPacked_shortest (words : List UInt16) :
    (∀ answer, ofPacked words = answer ↔ Packed.Answer words answer) ∧
      ∀ d, ofPacked words = .ok d →
        ∃ packed, d.toPacked = .ok packed ∧ packed.length ≤ words.length ∧
          (packed = words ↔ Separated (Packed.allGroups words)) :=
  ⟨fun _ => ofPacked_eq_iff, fun _ => toPacked_shortest⟩

/-- Two groups that touch across the limit of a word are read as one run, which is
    packed shorter. -/
theorem ofPacked_exact_toPacked_shortest_touching :
    ofPacked [0, 3, 1, 0, 1, 1, 1, 4] = .ok (.intervals [⟨3, 65540⟩]) ∧
      Packed.Answer [0, 3, 1, 0, 1, 1, 1, 4] (.ok (.intervals [⟨3, 65540⟩])) ∧
      ∃ packed, (Domain.intervals [⟨3, 65540⟩]).toPacked = .ok packed ∧
        packed.length ≤ 8 ∧
        (packed = [0, 3, 1, 0, 1, 1, 1, 4] ↔
          Separated (Packed.allGroups [0, 3, 1, 0, 1, 1, 1, 4])) := by
  have unpacked : ofPacked [0, 3, 1, 0, 1, 1, 1, 4] = .ok (.intervals [⟨3, 65540⟩]) := by rfl
  obtain ⟨answers, shortest⟩ := ofPacked_exact_toPacked_shortest [0, 3, 1, 0, 1, 1, 1, 4]
  exact ⟨unpacked, (answers _).mp unpacked, shortest _ unpacked⟩

end Domain

end IntegerDomains

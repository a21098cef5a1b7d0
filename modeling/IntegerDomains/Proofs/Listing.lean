import IntegerDomains.Proofs.Cuts
import IntegerDomains.Proofs.Exports

namespace IntegerDomains

private theorem head?_of_ascending {vs : List Nat} (ascending : vs.Pairwise (· < ·)) {least : Nat}
    (member : least ∈ vs) (below : ∀ v ∈ vs, least ≤ v) : vs.head? = some least := by
  cases vs with
  | nil => simp at member
  | cons first rest =>
    rcases List.mem_cons.mp member with rfl | later
    · rfl
    · have behind := (List.pairwise_cons.mp ascending).1 least later
      have bound := below first List.mem_cons_self
      omega

theorem getLast?_of_ascending {vs : List Nat} (ascending : vs.Pairwise (· < ·)) {greatest : Nat}
    (member : greatest ∈ vs) (above : ∀ v ∈ vs, v ≤ greatest) : vs.getLast? = some greatest := by
  cases isLast : vs.getLast? with
  | none => simp [List.getLast?_eq_none_iff.mp isLast] at member
  | some last =>
    obtain ⟨front, rfl⟩ := List.getLast?_eq_some_iff.mp isLast
    have bound := above last (by simp)
    rcases List.mem_append.mp member with before | here
    · have behind := (List.pairwise_append.mp ascending).2.2 greatest before last (by simp)
      omega
    · rw [List.mem_singleton.mp here]

/-- Below a bound there is no room for more numbers than that. -/
private theorem length_le_of_ascending {vs : List Nat} (ascending : vs.Pairwise (· < ·))
    {bound : Nat} (bounded : ∀ v ∈ vs, v < bound) : vs.length ≤ bound := by
  have distinct : vs.Nodup := ascending.imp Nat.ne_of_lt
  have within : vs ⊆ List.range bound := fun v member => List.mem_range.mpr (bounded v member)
  calc
    vs.length ≤ (List.range bound).length := (List.subperm_of_subset distinct within).length_le
    _ = bound := List.length_range

/-- The member at a position is found by clearing the lower ones. -/
theorem Mask.get?_eq_getElem? (m : Mask) (index : Nat) : m.get? index = m.values[index]? := by
  induction index generalizing m with
  | zero =>
    by_cases zero : m = 0#32
    · simp [get?, zero, values_zero]
    · simp [get?, zero, values_of_ne_zero zero]
  | succ index ih =>
    by_cases zero : m = 0#32
    · simp [get?, zero, values_zero]
    · simp [get?, zero, values_of_ne_zero zero, ih]

namespace Intervals

private theorem values_cons (r : Interval) (s : List Interval) :
    values (r :: s) = List.range' r.lo (r.hi + 1 - r.lo) ++ values s := rfl

theorem values_ascending {s : List Interval} (separated : Separated s) :
    (values s).Pairwise (· < ·) := by
  induction s with
  | nil => exact List.Pairwise.nil
  | cons r rest ih =>
    rw [values_cons, List.pairwise_append]
    refine ⟨List.pairwise_lt_range', ih (separated_cons.mp separated).2.2, ?_⟩
    intro v inside w later
    have gap := lt_of_covers_tail separated (mem_values.mp later)
    rw [List.mem_range'_1] at inside
    omega

private theorem Proper.length_values_le {s : List Interval} (proper : Proper s) :
    (values s).length ≤ maxValue + 1 := by
  refine length_le_of_ascending (values_ascending proper.separated) fun v member => ?_
  exact Nat.lt_succ_of_le (proper.bounded v (mem_values.mp member))

/-- Adding the sizes up counts the values, as long as the machine word holds their number. -/
private theorem foldlM_size {s : List Interval} {total : Nat}
    (bounds : ∀ r ∈ s, r.lo ≤ r.hi ∧ r.hi ≤ maxValue)
    (fits : total + (values s).length ≤ wordMax) :
    s.foldlM (fun total r => do Word.add total (← r.size)) total =
      .ok (total + (values s).length) := by
  induction s generalizing total with
  | nil => rfl
  | cons r rest ih =>
    obtain ⟨⟨ordered, bound⟩, others⟩ := List.forall_mem_cons.mp bounds
    rw [values_cons, List.length_append, List.length_range'] at fits ⊢
    have added : Word.add total (r.hi + 1 - r.lo) = .ok (total + (r.hi + 1 - r.lo)) :=
      Word.add_eq_ok (by omega)
    rw [List.foldlM_cons, size_eq_ok ordered bound]
    simp only [bind, Except.bind, added]
    rw [← Nat.add_assoc]
    exact ih others (by omega)

theorem size_eq_length {s : List Interval} (proper : Proper s) :
    size s = .ok (values s).length := by
  have fits : 0 + (values s).length ≤ wordMax := by
    have counted := proper.length_values_le
    have room := maxValue_lt_wordMax
    omega
  rw [size, foldlM_size (fun r member => proper.mem member) fits, Nat.zero_add]

/-- Positions within an interval count from its lower bound, others are left to the rest. -/
theorem nth?_eq_getElem? {s : List Interval} (proper : ∀ r ∈ s, r.lo ≤ r.hi ∧ r.hi ≤ maxValue)
    (position : Nat) : nth? position s = .ok (values s)[position]? := by
  induction s generalizing position with
  | nil => rfl
  | cons r rest ih =>
    obtain ⟨⟨ordered, bound⟩, others⟩ := List.forall_mem_cons.mp proper
    rw [nth?, size_eq_ok ordered bound, values_cons]
    by_cases inside : position < r.hi + 1 - r.lo
    · have reached : Word.add r.lo position = .ok (r.lo + position) :=
        Word.add_eq_ok_of_le (by omega)
      rw [List.getElem?_append_left (by rwa [List.length_range'])]
      simp [bind, Except.bind, inside, reached, pure, Except.pure]
    · have left : Word.sub position (r.hi + 1 - r.lo) = .ok (position - (r.hi + 1 - r.lo)) :=
        Word.sub_eq_ok (by omega)
      rw [List.getElem?_append_right (by rw [List.length_range']; omega), List.length_range']
      simp only [bind, Except.bind, inside, if_false, left]
      exact ih others _

/-- The search names the position of the interval that covers the value. -/
theorem locate?_eq_some_iff {s : List Interval} (separated : Separated s) {v index : Nat} :
    locate? v s = some index ↔ ∃ r, s[index]? = some r ∧ v ∈ r := by
  constructor
  · exact getElem?_of_locate?
  · rintro ⟨r, here, inside⟩
    obtain ⟨front, back, rfl, rfl⟩ := exists_append_of_getElem? here
    clear here
    induction front with
    | nil =>
      rw [Interval.mem_iff] at inside
      simp [locate?, inside]
    | cons u front ih =>
      have covered : Covers (front ++ r :: back) v := covers_of_mem (by simp) inside
      have beyond := lt_of_covers_tail separated covered
      have ordered := (separated_cons.mp separated).1
      rw [List.cons_append, locate?, if_neg (by omega), if_neg (by omega),
        ih (separated_cons.mp separated).2.2]
      simp

end Intervals

namespace Domain

open Intervals

variable {d : Domain}

theorem Valid.toList_ascending (valid : d.Valid) : d.toList.Pairwise (· < ·) := by
  cases d with
  | empty => exact List.Pairwise.nil
  | single v => exact List.pairwise_singleton _ v
  | mask m => exact m.values_ascending
  | intervals s => exact Intervals.values_ascending valid.1

theorem Valid.toListByRuns_eq (valid : d.Valid) : d.toListByRuns = .ok d.toList := by
  obtain ⟨s, executed, proper, covers⟩ := valid.toIntervals_proper
  have same : Intervals.values s = d.toList :=
    (Intervals.values_ascending proper.separated).eq_of_mem_iff valid.toList_ascending fun v => by
      rw [Intervals.mem_values, covers, valid.mem_toList]
  rw [toListByRuns, executed, ← same]
  rfl

private theorem Valid.length_toList_le (valid : d.Valid) : d.toList.length ≤ maxValue + 1 := by
  refine length_le_of_ascending valid.toList_ascending fun v member => ?_
  exact Nat.lt_succ_of_le (valid.le_maxValue (valid.mem_toList.mp member))

private theorem Valid.toList_eq_nil_iff (valid : d.Valid) : d.toList = [] ↔ d = .empty := by
  constructor
  · intro nothing
    refine valid.eq_empty fun v member => ?_
    have listed := valid.mem_toList.mpr member
    simp [nothing] at listed
  · rintro rfl
    rfl

theorem Valid.size_eq (valid : d.Valid) : d.size = .ok d.toList.length := by
  cases d with
  | empty => rfl
  | single v => rfl
  | mask m => exact congrArg Except.ok m.size_eq_length
  | intervals s => exact Intervals.size_eq_length ⟨valid.1, valid.2.1⟩

theorem Valid.ends_eq (valid : d.Valid) :
    d.least? = .ok d.toList.head? ∧ d.greatest? = .ok d.toList.getLast? := by
  by_cases nonempty : d = .empty
  · subst nonempty
    exact ⟨rfl, rfl⟩
  · obtain ⟨lo, hi, spans⟩ := valid.exists_spans nonempty
    have within : ∀ v ∈ d.toList, lo ≤ v ∧ v ≤ hi := fun v member =>
      spans.within v (valid.mem_toList.mp member)
    rw [spans.least, spans.greatest,
      head?_of_ascending valid.toList_ascending (valid.mem_toList.mpr spans.lo_mem)
        fun v member => (within v member).1,
      getLast?_of_ascending valid.toList_ascending (valid.mem_toList.mpr spans.hi_mem)
        fun v member => (within v member).2]
    exact ⟨rfl, rfl⟩

theorem Valid.middle?_eq (valid : d.Valid) :
    d.middle? = .ok d.toList[d.toList.length / 2]? := by
  cases d with
  | empty => rfl
  | single v => simp [middle?, toList]
  | mask m =>
    rw [middle?, Mask.get?_eq_getElem?, Mask.size_eq_length]
    rfl
  | intervals s =>
    have proper : Proper s := ⟨valid.1, valid.2.1⟩
    rw [middle?, Intervals.size_eq_length proper]
    exact nth?_eq_getElem? (fun r member => proper.mem member) _

/-- Each question about a well-formed domain is answered as from the ascending list of its
    members, and that list is the same from the form and run by run. The runs, lent or copied, are
    separated, and a value is found in the list, by the question for membership, and in one run
    alone, whose position is named. -/
theorem views_agree (valid : d.validate = .ok ()) :
    d.toList.Pairwise (· < ·) ∧ d.toListByRuns = .ok d.toList ∧
      (∃ s, d.toIntervals = .ok s ∧ d.copyIntervals = .ok s ∧ isSeparated s = true ∧
        ∀ v, (d.contains v = true ↔ v ∈ d.toList) ∧
          ∃ found, d.locate? v = .ok found ∧ (v ∈ d.toList ↔ found ≠ none) ∧
            ∀ index, found = some index ↔ ∃ r, s[index]? = some r ∧ r.lo ≤ v ∧ v ≤ r.hi) ∧
      (d.size = .ok d.toList.length ∧ d.toList.length ≤ maxValue + 1) ∧
      (d.least? = .ok d.toList.head? ∧ d.greatest? = .ok d.toList.getLast?) ∧
      d.middle? = .ok d.toList[d.toList.length / 2]? ∧
      (d.least? = .ok none ↔ d = .empty) ∧ (d.greatest? = .ok none ↔ d = .empty) ∧
      (d.middle? = .ok none ↔ d = .empty) := by
  have valid := validate_eq_ok_iff.mp valid
  obtain ⟨s, executed, proper, covers⟩ := valid.toIntervals_proper
  obtain ⟨least, greatest⟩ := valid.ends_eq
  refine ⟨valid.toList_ascending, valid.toListByRuns_eq,
    ⟨s, executed, by rw [copyIntervals_eq, executed], isSeparated_iff.mpr proper.separated,
      fun v => ⟨?_, Intervals.locate? v s, ?_, ?_,
        fun index => locate?_eq_some_iff proper.separated⟩⟩,
    ⟨valid.size_eq, valid.length_toList_le⟩, ⟨least, greatest⟩, valid.middle?_eq, ?_, ?_, ?_⟩
  · rw [valid.contains_iff, valid.mem_toList]
  · rw [locate?, executed]
    rfl
  · rw [valid.mem_toList, ← covers, ← isSome_locate?_iff proper.separated, Option.isSome_iff_ne_none]
  · rw [least, Except.ok.injEq, List.head?_eq_none_iff, valid.toList_eq_nil_iff]
  · rw [greatest, Except.ok.injEq, List.getLast?_eq_none_iff, valid.toList_eq_nil_iff]
  · rw [valid.middle?_eq, Except.ok.injEq, List.getElem?_eq_none_iff, ← valid.toList_eq_nil_iff,
      ← List.length_eq_zero_iff]
    omega

/-- Seven members in three runs: position three lies inside of the second one. -/
theorem views_agree_threeRuns :
    (Domain.intervals [⟨0, 0⟩, ⟨3, 6⟩, ⟨40, 41⟩]).validate = .ok () ∧
      (Domain.intervals [⟨0, 0⟩, ⟨3, 6⟩, ⟨40, 41⟩]).toListByRuns = .ok [0, 3, 4, 5, 6, 40, 41] ∧
      (Domain.intervals [⟨0, 0⟩, ⟨3, 6⟩, ⟨40, 41⟩]).size = .ok 7 ∧
      (Domain.intervals [⟨0, 0⟩, ⟨3, 6⟩, ⟨40, 41⟩]).least? = .ok (some 0) ∧
      (Domain.intervals [⟨0, 0⟩, ⟨3, 6⟩, ⟨40, 41⟩]).greatest? = .ok (some 41) ∧
      (Domain.intervals [⟨0, 0⟩, ⟨3, 6⟩, ⟨40, 41⟩]).middle? = .ok (some 5) := by
  have valid : (Domain.intervals [⟨0, 0⟩, ⟨3, 6⟩, ⟨40, 41⟩]).validate = .ok () := rfl
  obtain ⟨_, listed, _, ⟨size, _⟩, ⟨least, greatest⟩, middle, _⟩ := views_agree valid
  exact ⟨valid, listed, size, least, greatest, middle⟩

end Domain

end IntegerDomains

import IntegerDomains.Proofs.Separating

namespace IntegerDomains.Intervals

/-- Ordered intervals of machine words. -/
def OfWords (s : List Interval) : Prop := ∀ r ∈ s, r.lo ≤ r.hi ∧ r.hi ≤ wordMax

/-- An interval with another one behind it in order ends with the machine word. -/
def Overruns (s : List Interval) : Prop := ∃ r ∈ (sort s).dropLast, r.hi = wordMax

instance (s : List Interval) : Decidable (OfWords s) :=
  inferInstanceAs (Decidable (∀ r ∈ s, r.lo ≤ r.hi ∧ r.hi ≤ wordMax))

instance (s : List Interval) : Decidable (Overruns s) :=
  inferInstanceAs (Decidable (∃ r ∈ (sort s).dropLast, r.hi = wordMax))

variable {s t : List Interval}

private theorem OfWords.of_covers (words : OfWords s) (ordered : ∀ r ∈ t, r.lo ≤ r.hi)
    (inside : ∀ v, Covers t v → Covers s v) : OfWords t := by
  have bounded := (bounded_iff fun r member => (words r member).1).mpr
    fun r member => (words r member).2
  exact fun r member =>
    ⟨ordered r member, (bounded_iff ordered).mp (fun v covered => bounded v (inside v covered)) r member⟩

private theorem separate_of_fits (words : OfWords s) (fits : ¬Overruns s) :
    ∃ t, separate s = .ok t ∧ Separated t ∧ ∀ v, Covers t v ↔ Covers s v := by
  refine separate_separates (fun r member => (words r member).1) fun r member => ?_
  have bound := (words r ((sort_perm s).mem_iff.mp (List.dropLast_subset _ member))).2
  exact Nat.lt_of_le_of_ne bound fun full => fits ⟨r, member, full⟩

theorem separate_eq_overflow_iff (words : OfWords s) :
    separate s = .error .overflow ↔ Overruns s := by
  constructor
  · intro overflow
    refine Decidable.byContradiction fun fits => ?_
    obtain ⟨t, executed, _⟩ := separate_of_fits words fits
    exact absurd (overflow.symm.trans executed) (by simp)
  · rintro ⟨r, member, full⟩
    exact separate_overflows ⟨r, member, Nat.le_of_eq full.symm⟩

/-- What separating answers is the only separated sequence of the values. -/
theorem separate_eq_ok_iff (words : OfWords s) (fits : ¬Overruns s) :
    separate s = .ok t ↔ Separated t ∧ ∀ v, Covers t v ↔ Covers s v := by
  obtain ⟨u, executed, separated, covers⟩ := separate_of_fits words fits
  rw [executed, Except.ok.injEq]
  constructor
  · rintro rfl
    exact ⟨separated, covers⟩
  · rintro ⟨other, same⟩
    exact separated_ext separated other fun v => (covers v).trans (same v).symm

private theorem sorted_of_separated (separated : Separated s) : Sorted s := by
  refine separated.2.imp_of_mem fun {r later} member _ gap => ?_
  have ordered := separated.1 r member
  rw [Interval.le_iff]
  omega

private theorem sort_eq_self (sorted : Sorted s) : sort s = s := by
  rw [sort, if_pos (isSorted_iff.mpr sorted)]

/-- The gap behind an interval leaves a successor to its end. -/
private theorem not_overruns_of_separated (words : OfWords s) (separated : Separated s) :
    ¬Overruns s := by
  rintro ⟨r, member, full⟩
  rw [sort_eq_self (sorted_of_separated separated)] at member
  cases front : s.getLast? with
  | none => simp [List.getLast?_eq_none_iff.mp front] at member
  | some last =>
    obtain ⟨front, rfl⟩ := List.getLast?_eq_some_iff.mp front
    rw [List.dropLast_concat] at member
    have gap := (separated_append.mp separated).2.2 r member last List.mem_cons_self
    have bounds := words last (List.mem_append_right _ List.mem_cons_self)
    omega

/-- A separated sequence is its own separated form. -/
theorem separate_eq_self (words : OfWords s) (separated : Separated s) : separate s = .ok s :=
  (separate_eq_ok_iff words (not_overruns_of_separated words separated)).mpr
    ⟨separated, fun _ => Iff.rfl⟩

/-- Sorting orders the intervals. Separating overflows exactly where one that is not the last in
    order ends with the machine word; otherwise it answers the separated form, which the values
    alone determine and of which no sequence of them is shorter. -/
theorem separate_exact (words : OfWords s) :
    ((sort s).Perm s ∧ Sorted (sort s)) ∧ (separate s = .error .overflow ↔ Overruns s) ∧
      (isSeparated s = true → separate s = .ok s) ∧
      (¬Overruns s → ∃ t, separate s = .ok t ∧ isSeparated t = true ∧
        (∀ v, Covers t v ↔ Covers s v) ∧ separate t = .ok t ∧
        (∀ u, OfWords u → ¬Overruns u → (∀ v, Covers u v ↔ Covers s v) → separate u = .ok t) ∧
        ∀ u, (∀ v, Covers u v ↔ Covers s v) → t.length ≤ u.length) := by
  refine ⟨⟨sort_perm s, sorted_sort s⟩, separate_eq_overflow_iff words,
    fun separated => separate_eq_self words (isSeparated_iff.mp separated), fun fits => ?_⟩
  obtain ⟨t, executed, separated, covers⟩ := separate_of_fits words fits
  have formWords : OfWords t := words.of_covers separated.1 fun v => (covers v).mp
  refine ⟨t, executed, isSeparated_iff.mpr separated, covers, separate_eq_self formWords separated,
    fun u others clear same => ?_, fun u same => ?_⟩
  · exact (separate_eq_ok_iff others clear).mpr
      ⟨separated, fun v => (covers v).trans (same v).symm⟩
  · exact length_le_of_covers separated fun v => (covers v).trans (same v).symm

theorem separate_exact_shuffled :
    OfWords [⟨40, wordMax⟩, ⟨10, 12⟩, ⟨3, 9⟩, ⟨5, 7⟩, ⟨3, 9⟩] ∧
      ¬Overruns [⟨40, wordMax⟩, ⟨10, 12⟩, ⟨3, 9⟩, ⟨5, 7⟩, ⟨3, 9⟩] ∧
      separate [⟨40, wordMax⟩, ⟨10, 12⟩, ⟨3, 9⟩, ⟨5, 7⟩, ⟨3, 9⟩] = .ok [⟨3, 12⟩, ⟨40, wordMax⟩] ∧
      ∀ u, (∀ v, Covers u v ↔ Covers [⟨40, wordMax⟩, ⟨10, 12⟩, ⟨3, 9⟩, ⟨5, 7⟩, ⟨3, 9⟩] v) →
        2 ≤ u.length := by
  have words : OfWords [⟨40, wordMax⟩, ⟨10, 12⟩, ⟨3, 9⟩, ⟨5, 7⟩, ⟨3, 9⟩] := by decide
  have fits : ¬Overruns [⟨40, wordMax⟩, ⟨10, 12⟩, ⟨3, 9⟩, ⟨5, 7⟩, ⟨3, 9⟩] := by decide +kernel
  have formWords : OfWords [⟨3, 12⟩, ⟨40, wordMax⟩] := by decide
  have formFits : ¬Overruns [⟨3, 12⟩, ⟨40, wordMax⟩] := by decide +kernel
  have same : ∀ v, Covers [⟨3, 12⟩, ⟨40, wordMax⟩] v ↔
      Covers [⟨40, wordMax⟩, ⟨10, 12⟩, ⟨3, 9⟩, ⟨5, 7⟩, ⟨3, 9⟩] v := fun v => by
    simp only [covers_cons, covers_nil, or_false, Interval.mem_iff]
    omega
  obtain ⟨_, _, _, found⟩ := separate_exact words
  obtain ⟨t, executed, _, _, _, unique, shortest⟩ := found fits
  have form : separate [⟨3, 12⟩, ⟨40, wordMax⟩] = .ok [⟨3, 12⟩, ⟨40, wordMax⟩] :=
    (separate_exact formWords).2.2.1 (by decide)
  obtain rfl : t = [⟨3, 12⟩, ⟨40, wordMax⟩] :=
    Except.ok.inj ((unique _ formWords formFits same).symm.trans form)
  exact ⟨words, fits, executed, shortest⟩

/-- Once sorted, the interval up to the greatest word is followed by one inside it. -/
example : separate [⟨3, 9⟩, ⟨2, wordMax⟩] = .error .overflow := by cbv

end IntegerDomains.Intervals

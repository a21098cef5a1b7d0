import IntegerDomains.Domain.Validity
import IntegerDomains.Proofs.Covering

/-!
The scan compares an interval with the one before it and with nothing else. As what it has passed is
always proper, it stops at the first interval with which the sequence is no longer proper
(`sequenceDefect?_finds`).
-/

namespace IntegerDomains.Intervals

theorem proper_nil : Proper [] := ⟨separated_nil, by simp⟩

private theorem Proper.take {s : List Interval} (proper : Proper s) (n : Nat) :
    Proper (s.take n) := by
  obtain ⟨separated, bounded⟩ := proper_iff.mp proper
  rw [proper_iff]
  refine ⟨⟨?_, separated.2.sublist (List.take_sublist n s)⟩, ?_⟩
  · intro r member
    exact separated.1 r (List.mem_of_mem_take member)
  · intro r member
    exact bounded r (List.mem_of_mem_take member)

/-- The interval may stand behind the one before it, if there is one. -/
def Continues (before : Option Interval) (r : Interval) : Prop :=
  r.lo ≤ r.hi ∧ r.hi ≤ maxValue ∧ ∀ previous, before = some previous → previous.hi + 1 < r.lo

/-- Why the interval at `index` may not stand behind the one before it. Each reason counts only
    where those above it do not hold. -/
inductive Breaks (index : Nat) (r : Interval) : Option Interval → Defect → Prop
  | inverted {before : Option Interval} (reversed : r.hi < r.lo) :
    Breaks index r before (.inverted r.lo r.hi)
  | outOfBounds {before : Option Interval} (ordered : r.lo ≤ r.hi) (beyond : maxValue < r.hi) :
    Breaks index r before (.outOfBounds r.hi)
  | unsorted {previous : Interval} (ordered : r.lo ≤ r.hi) (bound : r.hi ≤ maxValue)
    (overlaps : r.lo ≤ previous.hi) : Breaks index r (some previous) (.unsorted index)
  | unmerged {previous : Interval} (ordered : r.lo ≤ r.hi) (bound : r.hi ≤ maxValue)
    (touches : r.lo = previous.hi + 1) : Breaks index r (some previous) (.unmerged index)

private theorem Breaks.not_continues {index : Nat} {r : Interval} {before : Option Interval}
    {defect : Defect} (breaks : Breaks index r before defect) : ¬Continues before r := by
  rintro ⟨ordered, bound, gap⟩
  cases breaks with
  | inverted reversed => omega
  | outOfBounds _ beyond => omega
  | unsorted _ _ overlaps =>
    have apart := gap _ rfl
    omega
  | unmerged _ _ touches =>
    have apart := gap _ rfl
    omega

theorem Breaks.unique {index : Nat} {r : Interval} {before : Option Interval}
    {defect defect' : Defect} (first : Breaks index r before defect)
    (second : Breaks index r before defect') : defect = defect' := by
  cases first <;> cases second <;> first | rfl | omega

/-- An interval is passed or ends the scan. What was passed has an end up to `maxValue`, whose
    successor fits the machine word. -/
private theorem sequenceDefect?_cons {index : Nat} {before : Option Interval} (r : Interval)
    (rest : List Interval)
    (passed : ∀ previous, before = some previous → previous.hi ≤ maxValue) :
    (Continues before r ∧ Domain.sequenceDefect? index before (r :: rest) =
      Domain.sequenceDefect? (index + 1) (some r) rest) ∨
    ∃ defect, Breaks index r before defect ∧
      Domain.sequenceDefect? index before (r :: rest) = .ok (some defect) := by
  rw [Domain.sequenceDefect?.eq_def]
  by_cases reversed : r.hi < r.lo
  · exact .inr ⟨_, .inverted reversed, if_pos reversed⟩
  by_cases beyond : maxValue < r.hi
  · exact .inr ⟨_, .outOfBounds (by omega) beyond, (if_neg reversed).trans (if_pos beyond)⟩
  simp only [if_neg reversed, if_neg beyond]
  have ordered : r.lo ≤ r.hi := Nat.le_of_not_lt reversed
  have bound : r.hi ≤ maxValue := Nat.le_of_not_lt beyond
  cases before with
  | none => exact .inl ⟨⟨ordered, bound, by simp⟩, rfl⟩
  | some previous =>
    have reach : Word.add previous.hi 1 = .ok (previous.hi + 1) := by
      have passedEnd := passed previous rfl
      exact Word.add_eq_ok_of_le (by omega)
    simp only [reach, bind, Except.bind]
    by_cases overlaps : r.lo ≤ previous.hi
    · exact .inr ⟨_, .unsorted ordered bound overlaps, if_pos overlaps⟩
    rw [if_neg overlaps]
    by_cases touches : r.lo = previous.hi + 1
    · exact .inr ⟨_, .unmerged ordered bound touches, if_pos touches⟩
    · refine .inl ⟨⟨ordered, bound, ?_⟩, if_neg touches⟩
      intro previous' same
      obtain rfl := Option.some.inj same
      omega

/-- A proper sequence stays proper if the interval behind it continues its last one. -/
private theorem proper_concat {s : List Interval} {r : Interval} :
    Proper (s ++ [r]) ↔ Proper s ∧ Continues s.getLast? r := by
  simp only [proper_iff, separated_append, List.forall_mem_append, List.forall_mem_singleton]
  constructor
  · rintro ⟨⟨separated, single, gaps⟩, bounded, bound⟩
    refine ⟨⟨separated, bounded⟩, single.1 r List.mem_cons_self, bound, ?_⟩
    intro previous isLast
    exact gaps previous (List.mem_of_getLast? isLast)
  · rintro ⟨⟨separated, bounded⟩, ordered, bound, gap⟩
    refine ⟨⟨separated, separated_single ordered, ?_⟩, bounded, bound⟩
    intro q member
    cases isLast : s.getLast? with
    | none =>
      rw [List.getLast?_eq_none_iff.mp isLast] at member
      exact absurd member List.not_mem_nil
    | some previous =>
      -- The last interval ends behind every other.
      have apart := gap previous isLast
      have covered := covers_of_mem member ⟨separated.1 q member, Nat.le_refl q.hi⟩
      have within := le_hi_of_getLast? separated isLast covered
      omega

/-- The index is the smallest one at which the sequence up to and including its interval
    is not proper. -/
def FirstBreak (s : List Interval) (index : Nat) : Prop :=
  (∀ earlier < index, Proper (s.take (earlier + 1))) ∧ ¬Proper (s.take (index + 1))

/-- The defect is what the interval at the first break has against the one before it. -/
def Broken (s : List Interval) (defect : Defect) : Prop :=
  ∃ index r, FirstBreak s index ∧ s[index]? = some r ∧
    Breaks index r (s.take index).getLast? defect

theorem FirstBreak.unique {s : List Interval} {i j : Nat} (first : FirstBreak s i)
    (second : FirstBreak s j) : i = j := by
  rcases Nat.lt_trichotomy i j with earlier | same | later
  · exact absurd (second.1 i earlier) first.2
  · exact same
  · exact absurd (first.1 j later) second.2

theorem Broken.unique {s : List Interval} {defect defect' : Defect} (first : Broken s defect)
    (second : Broken s defect') : defect = defect' := by
  obtain ⟨index, r, atFirst, found, breaks⟩ := first
  obtain ⟨index', r', atSecond, found', breaks'⟩ := second
  obtain rfl := atFirst.unique atSecond
  obtain rfl := Option.some.inj (found.symm.trans found')
  exact breaks.unique breaks'

theorem Broken.not_proper {s : List Interval} {defect : Defect} (broken : Broken s defect) :
    ¬Proper s := by
  obtain ⟨index, _, ⟨_, fails⟩, _⟩ := broken
  intro proper
  exact fails (proper.take (index + 1))

/-- An interval that breaks the proper sequence before it is the first break. -/
private theorem Breaks.broken {front back : List Interval} {r : Interval} {defect : Defect}
    (proper : Proper front) (breaks : Breaks front.length r front.getLast? defect) :
    Broken (front ++ r :: back) defect := by
  refine ⟨front.length, r, ⟨?_, ?_⟩, by simp, by simpa using breaks⟩
  · intro earlier inFront
    rw [List.take_append_of_le_length inFront]
    exact proper.take (earlier + 1)
  · have withR : (front ++ r :: back).take (front.length + 1) = front ++ [r] := by
      rw [List.take_append, List.take_of_length_le (Nat.le_succ _), Nat.add_sub_cancel_left]
      rfl
    rw [withR, proper_concat]
    rintro ⟨_, continues⟩
    exact breaks.not_continues continues

/-- The scan of what stands behind a proper sequence tells whether the whole sequence is proper. -/
private theorem sequenceDefect?_behind {front : List Interval} (back : List Interval)
    (proper : Proper front) :
    (Domain.sequenceDefect? front.length front.getLast? back = .ok none ∧
      Proper (front ++ back)) ∨
    ∃ defect, Domain.sequenceDefect? front.length front.getLast? back = .ok (some defect) ∧
      Broken (front ++ back) defect := by
  induction back generalizing front with
  | nil => exact .inl ⟨rfl, by rwa [List.append_nil]⟩
  | cons r rest ih =>
    have passed : ∀ previous, front.getLast? = some previous → previous.hi ≤ maxValue := by
      intro previous isLast
      exact (proper.mem (List.mem_of_getLast? isLast)).2
    rcases sequenceDefect?_cons r rest passed with
      ⟨continues, executed⟩ | ⟨defect, breaks, executed⟩
    · have extended := ih (proper_concat.mpr ⟨proper, continues⟩)
      rw [List.length_append, List.length_singleton, List.getLast?_concat, ← executed,
        List.append_assoc, List.singleton_append] at extended
      exact extended
    · exact .inr ⟨defect, executed, breaks.broken proper⟩

/-- The scan ends without a defect if the sequence is proper, and else with that of its
    first break. -/
theorem sequenceDefect?_finds (s : List Interval) :
    (Domain.sequenceDefect? 0 none s = .ok none ∧ Proper s) ∨
    ∃ defect, Domain.sequenceDefect? 0 none s = .ok (some defect) ∧ Broken s defect :=
  sequenceDefect?_behind s proper_nil

end IntegerDomains.Intervals

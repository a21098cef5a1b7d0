import IntegerDomains.Word
import IntegerDomains.Intervals.Order

namespace IntegerDomains.Intervals

/-- No interval is inverted, and between the end of each and the start of a later one a
    value is missing. -/
def Separated (s : List Interval) : Prop :=
  (∀ r ∈ s, r.lo ≤ r.hi) ∧ s.Pairwise (fun r later => r.hi + 1 < later.lo)

/-- Each interval and its successor leave out a value between them. -/
def hasGaps : List Interval → Bool
  | r :: next :: rest => decide (r.hi + 1 < next.lo) && hasGaps (next :: rest)
  | _ => true

/-- The check for `Separated`, which compares neighbours only. -/
def isSeparated (s : List Interval) : Bool := s.all (fun r => decide (r.lo ≤ r.hi)) && hasGaps s

theorem isSeparated_iff {s : List Interval} : isSeparated s = true ↔ Separated s := by
  induction s with
  | nil => simp [isSeparated, Separated, hasGaps]
  | cons r rest ih =>
    cases rest with
    | nil => simp [isSeparated, Separated, hasGaps]
    | cons next rest =>
      simp only [isSeparated, Separated, hasGaps, List.all_cons, Bool.and_eq_true,
        decide_eq_true_eq, List.forall_mem_cons, List.pairwise_cons] at ih ⊢
      constructor
      · rintro ⟨⟨ordered, others⟩, gap, gaps⟩
        obtain ⟨inOrder, apart, pairs⟩ := ih.mp ⟨others, gaps⟩
        refine ⟨⟨ordered, inOrder⟩, ⟨gap, fun later member => ?_⟩, apart, pairs⟩
        have beyond := apart later member
        have nextOrdered := inOrder.1
        omega
      · rintro ⟨⟨ordered, inOrder⟩, ⟨gap, _⟩, apart, pairs⟩
        obtain ⟨others, gaps⟩ := ih.mpr ⟨inOrder, apart, pairs⟩
        exact ⟨⟨ordered, others⟩, gap, gaps⟩

/-- Coalesce `last` with the intervals of a sorted sequence that follow it. -/
def coalesceFrom (last : Interval) : List Interval → Except Fault (List Interval)
  | [] => .ok [last]
  | r :: rest => do
    let reach ← Word.add last.hi 1
    if r.lo ≤ reach then
      coalesceFrom ⟨last.lo, if last.hi < r.hi then r.hi else last.hi⟩ rest
    else
      return last :: (← coalesceFrom r rest)

/-- Unite the intervals of a sorted sequence that overlap or touch. -/
def coalesce (s : List Interval) : Except Fault (List Interval) :=
  if isSorted s then
    match s with
    | [] => .ok []
    | r :: rest => coalesceFrom r rest
  else
    .error .unsortedIntervals

/-- The separated sequence of the same values. -/
def separate (s : List Interval) : Except Fault (List Interval) := coalesce (sort s)

end IntegerDomains.Intervals

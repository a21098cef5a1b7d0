import IntegerDomains.Interval

namespace IntegerDomains.Intervals

/-- Every interval is at most each later one. -/
def Sorted (s : List Interval) : Prop := s.Pairwise (· ≤ ·)

/-- Every interval is at most its successor. -/
def isSorted : List Interval → Bool
  | r :: next :: rest => decide (r ≤ next) && isSorted (next :: rest)
  | _ => true

theorem isSorted_iff {s : List Interval} : isSorted s = true ↔ Sorted s := by
  induction s with
  | nil => simp [isSorted, Sorted]
  | cons r rest ih =>
    cases rest with
    | nil => simp [isSorted, Sorted]
    | cons next rest =>
      simp only [isSorted, Bool.and_eq_true, decide_eq_true_eq, ih, Sorted]
      constructor
      · rintro ⟨step, sorted⟩
        refine List.pairwise_cons.mpr ⟨fun later member => ?_, sorted⟩
        rcases List.mem_cons.mp member with rfl | inside
        · exact step
        · exact Interval.le_trans step ((List.pairwise_cons.mp sorted).1 later inside)
      · intro sorted
        obtain ⟨first, others⟩ := List.pairwise_cons.mp sorted
        exact ⟨first next List.mem_cons_self, others⟩

/-- Part of a sequence that waits to be written out. -/
inductive Pending
  /-- Still to be sorted. -/
  | segment (s : List Interval)
  /-- Copies of one pivot, ready to be written. -/
  | pivots (s : List Interval)

namespace Pending

/-- Splitting a segment replaces its weight by less. -/
def weight : Pending → Nat
  | .segment s => 3 * s.length + 1
  | .pivots _ => 1

/-- The weight of all pending work. -/
def load : List Pending → Nat
  | [] => 0
  | work :: rest => work.weight + load rest

end Pending

/-- The intervals below the pivot. -/
def lesser (pivot : Interval) (s : List Interval) : List Interval := s.filter (· < pivot)

/-- The copies of the pivot. -/
def copies (pivot : Interval) (s : List Interval) : List Interval := s.filter (· = pivot)

/-- The intervals above the pivot. -/
def greater (pivot : Interval) (s : List Interval) : List Interval := s.filter (pivot < ·)

private theorem lesser_add_greater_le (pivot : Interval) (s : List Interval) :
    (lesser pivot s).length + (greater pivot s).length ≤ s.length := by
  induction s with
  | nil => simp [lesser, greater]
  | cons r rest ih =>
    have exclusive : ¬(r < pivot ∧ pivot < r) := by simp only [Interval.lt_iff]; omega
    by_cases below : r < pivot <;> by_cases above : pivot < r <;>
      simp_all [lesser, greater] <;> omega

/-- The pivot is in neither part, so that both together are shorter than the segment. -/
theorem lesser_add_greater_lt {pivot : Interval} {s : List Interval} (member : pivot ∈ s) :
    (lesser pivot s).length + (greater pivot s).length < s.length := by
  induction s with
  | nil => simp at member
  | cons r rest ih =>
    rcases List.mem_cons.mp member with rfl | inside
    · have irreflexive : ¬pivot < pivot := by simp only [Interval.lt_iff]; omega
      have rest_le := lesser_add_greater_le pivot rest
      simp only [lesser, greater, List.filter_cons, irreflexive, decide_false, Bool.false_eq_true,
        if_false, List.length_cons] at rest_le ⊢
      omega
    · have exclusive : ¬(r < pivot ∧ pivot < r) := by simp only [Interval.lt_iff]; omega
      have shorter := ih inside
      by_cases below : r < pivot <;> by_cases above : pivot < r <;>
        simp_all [lesser, greater] <;> omega

/-- Write the pending work behind `written`, which holds the output so far in reverse. -/
def drain (written : List Interval) : List Pending → List Interval
  | [] => written.reverse
  | .pivots s :: rest => drain (s.reverse ++ written) rest
  | .segment s :: rest =>
    if short : s.length ≤ 1 then drain (s.reverse ++ written) rest
    else
      let pivot := s[s.length / 2]
      drain written
        (.segment (lesser pivot s) :: .pivots (copies pivot s) ::
          .segment (greater pivot s) :: rest)
termination_by pending => Pending.load pending
decreasing_by
  · simp only [Pending.load, Pending.weight]; omega
  · simp only [Pending.load, Pending.weight]; omega
  · have shorter := lesser_add_greater_lt (List.getElem_mem (l := s) (n := s.length / 2) (by omega))
    simp only [Pending.load, Pending.weight]
    omega

/-- The same intervals in ascending order; a sorted sequence is answered as it is. -/
def sort (s : List Interval) : List Interval :=
  if isSorted s then s else drain [] [.segment s]

end IntegerDomains.Intervals

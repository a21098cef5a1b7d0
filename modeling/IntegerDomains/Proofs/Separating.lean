import IntegerDomains.Proofs.Covering

namespace IntegerDomains.Intervals

namespace Pending

/-- The intervals of a piece of work. -/
def intervals : Pending → List Interval
  | .segment s => s
  | .pivots s => s

/-- Pivots are in order already, and no interval exceeds one of later work. -/
structure Ordered (pending : List Pending) : Prop where
  pivotsSorted : ∀ s, Pending.pivots s ∈ pending → Sorted s
  apart : pending.Pairwise fun work later =>
    ∀ r ∈ work.intervals, ∀ t ∈ later.intervals, r ≤ t

private theorem Ordered.tail {work : Pending} {rest : List Pending}
    (ordered : Ordered (work :: rest)) :
    Ordered rest :=
  ⟨fun s member => ordered.pivotsSorted s (List.mem_cons_of_mem _ member),
    (List.pairwise_cons.mp ordered.apart).2⟩

end Pending

private theorem sorted_append {s t : List Interval} :
    Sorted (s ++ t) ↔ Sorted s ∧ Sorted t ∧ ∀ r ∈ s, ∀ later ∈ t, r ≤ later :=
  List.pairwise_append

private theorem mem_lesser {pivot r : Interval} {s : List Interval} :
    r ∈ lesser pivot s ↔ r ∈ s ∧ r < pivot := by
  simp [lesser]

private theorem mem_copies {pivot r : Interval} {s : List Interval} :
    r ∈ copies pivot s ↔ r ∈ s ∧ r = pivot := by
  simp [copies]

private theorem mem_greater {pivot r : Interval} {s : List Interval} :
    r ∈ greater pivot s ↔ r ∈ s ∧ pivot < r := by
  simp [greater]

/-- Each interval lands in exactly one of the three parts. -/
private theorem partition_perm (pivot : Interval) (s : List Interval) :
    (lesser pivot s ++ (copies pivot s ++ greater pivot s)).Perm s := by
  induction s with
  | nil => simp [lesser, copies, greater]
  | cons r rest ih =>
    rcases Interval.lt_or_eq_or_gt r pivot with less | rfl | more
    · have notMore : ¬pivot < r := by simp only [Interval.lt_iff] at *; omega
      have different : r ≠ pivot := by rintro rfl; exact notMore less
      have parts :
          lesser pivot (r :: rest) ++ (copies pivot (r :: rest) ++ greater pivot (r :: rest)) =
            r :: (lesser pivot rest ++ (copies pivot rest ++ greater pivot rest)) := by
        simp [lesser, copies, greater, less, notMore, different]
      rw [parts]
      exact ih.cons r
    · have irreflexive : ¬r < r := by simp only [Interval.lt_iff]; omega
      have parts : lesser r (r :: rest) ++ (copies r (r :: rest) ++ greater r (r :: rest))
          = lesser r rest ++ r :: (copies r rest ++ greater r rest) := by
        simp [lesser, copies, greater, irreflexive]
      rw [parts]
      exact List.perm_middle.trans (ih.cons r)
    · have notLess : ¬r < pivot := by simp only [Interval.lt_iff] at *; omega
      have different : r ≠ pivot := by rintro rfl; exact notLess more
      have parts :
          lesser pivot (r :: rest) ++ (copies pivot (r :: rest) ++ greater pivot (r :: rest)) =
            (lesser pivot rest ++ copies pivot rest) ++ r :: greater pivot rest := by
        simp [lesser, copies, greater, more, notLess, different]
      rw [parts]
      refine List.perm_middle.trans (List.Perm.cons r ?_)
      rw [List.append_assoc]
      exact ih

/-- Nothing is lost or added while the pending work is written out. -/
theorem drain_perm (written : List Interval) (pending : List Pending) :
    (drain written pending).Perm (written ++ pending.flatMap Pending.intervals) := by
  fun_induction drain written pending with
  | case1 written => simp [List.reverse_perm]
  | case2 written s rest ih =>
    simp only [List.unattach_reverse, List.unattach_attach] at ih
    refine ih.trans ?_
    rw [List.flatMap_cons, ← List.append_assoc]
    refine List.Perm.append_right _ ?_
    exact (List.perm_append_comm).trans ((List.reverse_perm s).append_left written)
  | case3 written s rest short ih =>
    simp only [List.unattach_reverse, List.unattach_attach] at ih
    refine ih.trans ?_
    rw [List.flatMap_cons, ← List.append_assoc]
    refine List.Perm.append_right _ ?_
    exact (List.perm_append_comm).trans ((List.reverse_perm s).append_left written)
  | case4 written s rest long pivot ih =>
    refine ih.trans (List.Perm.append_left written ?_)
    simp only [List.flatMap_cons, Pending.intervals]
    rw [← List.append_assoc, ← List.append_assoc, List.append_assoc (lesser pivot s)]
    exact (partition_perm pivot s).append_right _

theorem sort_perm (s : List Interval) : (sort s).Perm s := by
  rw [sort]
  split
  · rfl
  · simpa [Pending.intervals] using drain_perm [] [.segment s]

/-- Work that is sorted and comes next can be written behind the output. -/
private theorem sorted_write {written s : List Interval} (output : Sorted written.reverse)
    (piece : Sorted s) (before : ∀ r ∈ written, ∀ t ∈ s, r ≤ t) :
    Sorted (s.reverse ++ written).reverse := by
  rw [List.reverse_append, List.reverse_reverse, sorted_append]
  refine ⟨output, piece, fun r member => before r ?_⟩
  exact List.mem_reverse.mp member

/-- What is written next stays before all that is still pending. -/
private theorem before_write {written s : List Interval} {work : Pending} {rest : List Pending}
    (content : work.intervals = s) (ordered : Pending.Ordered (work :: rest))
    (before : ∀ r ∈ written, ∀ later ∈ work :: rest, ∀ t ∈ later.intervals, r ≤ t) :
    ∀ r ∈ s.reverse ++ written, ∀ later ∈ rest, ∀ t ∈ later.intervals, r ≤ t := by
  intro r member later inRest t inside
  rcases List.mem_append.mp member with inPiece | inOutput
  · refine (List.pairwise_cons.mp ordered.apart).1 later inRest r ?_ t inside
    rw [content]
    exact List.mem_reverse.mp inPiece
  · exact before r inOutput later (List.mem_cons_of_mem _ inRest) t inside

private theorem sorted_copies (pivot : Interval) (s : List Interval) :
    Sorted (copies pivot s) := by
  refine List.pairwise_iff_forall_sublist.mpr fun {r u} pair => ?_
  have first := (mem_copies.mp (pair.mem List.mem_cons_self)).2
  have second := (mem_copies.mp (pair.mem (List.mem_cons_of_mem _ List.mem_cons_self))).2
  rw [first, second, Interval.le_iff]
  omega

private theorem lesser_le {pivot r t : Interval} {s : List Interval} (left : r ∈ lesser pivot s)
    (right : t ∈ copies pivot s ∨ t ∈ greater pivot s) : r ≤ t := by
  have less := (mem_lesser.mp left).2
  rcases right with inCopies | inGreater
  · obtain ⟨_, rfl⟩ := mem_copies.mp inCopies
    simp only [Interval.lt_iff, Interval.le_iff] at *
    omega
  · have more := (mem_greater.mp inGreater).2
    simp only [Interval.lt_iff, Interval.le_iff] at *
    omega

private theorem copies_le {pivot r t : Interval} {s : List Interval} (left : r ∈ copies pivot s)
    (right : t ∈ greater pivot s) : r ≤ t := by
  obtain ⟨_, rfl⟩ := mem_copies.mp left
  have more := (mem_greater.mp right).2
  simp only [Interval.lt_iff, Interval.le_iff] at *
  omega

/-- A segment may be replaced by its three parts. -/
private theorem ordered_partition {pivot : Interval} {s : List Interval} {rest : List Pending}
    (ordered : Pending.Ordered (.segment s :: rest)) :
    Pending.Ordered (.segment (lesser pivot s) :: .pivots (copies pivot s) ::
      .segment (greater pivot s) :: rest) := by
  obtain ⟨later, apart⟩ := List.pairwise_cons.mp ordered.apart
  refine ⟨fun t member => ?_, List.pairwise_cons.mpr ⟨?_, List.pairwise_cons.mpr ⟨?_,
    List.pairwise_cons.mpr ⟨?_, apart⟩⟩⟩⟩
  · rcases List.mem_cons.mp member with equal | member
    · cases equal
    rcases List.mem_cons.mp member with equal | member
    · cases equal
      exact sorted_copies pivot s
    rcases List.mem_cons.mp member with equal | member
    · cases equal
    · exact ordered.pivotsSorted t (List.mem_cons_of_mem _ member)
  · intro work member r inLesser
    rcases List.mem_cons.mp member with rfl | member
    · exact fun t inCopies => lesser_le inLesser (.inl inCopies)
    rcases List.mem_cons.mp member with rfl | member
    · exact fun t inGreater => lesser_le inLesser (.inr inGreater)
    · exact later work member r (mem_lesser.mp inLesser).1
  · intro work member r inCopies
    rcases List.mem_cons.mp member with rfl | member
    · exact fun t inGreater => copies_le inCopies inGreater
    · exact later work member r (mem_copies.mp inCopies).1
  · exact fun work member r inGreater => later work member r (mem_greater.mp inGreater).1

theorem sorted_drain (written : List Interval) (pending : List Pending)
    (output : Sorted written.reverse) (ordered : Pending.Ordered pending)
    (before : ∀ r ∈ written, ∀ work ∈ pending, ∀ t ∈ work.intervals, r ≤ t) :
    Sorted (drain written pending) := by
  fun_induction drain written pending with
  | case1 written => exact output
  | case2 written s rest ih =>
    simp only [List.unattach_reverse, List.unattach_attach] at ih
    refine ih ?_ ordered.tail (before_write rfl ordered before)
    exact sorted_write output (ordered.pivotsSorted s List.mem_cons_self)
      fun r member => before r member _ List.mem_cons_self
  | case3 written s rest short ih =>
    simp only [List.unattach_reverse, List.unattach_attach] at ih
    refine ih ?_ ordered.tail (before_write rfl ordered before)
    refine sorted_write output ?_ fun r member => before r member _ List.mem_cons_self
    match s, short with
    | [], _ => exact List.Pairwise.nil
    | [r], _ => exact List.pairwise_singleton _ r
  | case4 written s rest long pivot ih =>
    refine ih output (ordered_partition ordered) ?_
    intro r member work inWork t inside
    have inSegment : ∀ u ∈ s, r ≤ u := before r member _ List.mem_cons_self
    rcases List.mem_cons.mp inWork with rfl | inWork
    · exact inSegment t (mem_lesser.mp inside).1
    rcases List.mem_cons.mp inWork with rfl | inWork
    · exact inSegment t (mem_copies.mp inside).1
    rcases List.mem_cons.mp inWork with rfl | inWork
    · exact inSegment t (mem_greater.mp inside).1
    · exact before r member work (List.mem_cons_of_mem _ inWork) t inside

theorem sorted_sort (s : List Interval) : Sorted (sort s) := by
  rw [sort]
  split
  · exact isSorted_iff.mp ‹_›
  · refine sorted_drain [] [.segment s] List.Pairwise.nil ⟨?_, ?_⟩ (by simp)
    · intro t member
      simp at member
    · exact List.pairwise_singleton _ _

/-- Ordered intervals by ascending starts, of which only the last may fill the machine word. -/
structure Ascending (s : List Interval) : Prop where
  starts : s.Pairwise fun r later => r.lo ≤ later.lo
  ordered : ∀ r ∈ s, r.lo ≤ r.hi
  fits : ∀ r ∈ s.dropLast, r.hi < wordMax

private theorem Ascending.room {r next : Interval} {rest : List Interval}
    (ascending : Ascending (r :: next :: rest)) : r.hi < wordMax :=
  ascending.fits r (by simp [List.dropLast_cons_of_ne_nil])

private theorem Ascending.tail {r : Interval} {rest : List Interval}
    (ascending : Ascending (r :: rest)) :
    Ascending rest := by
  refine ⟨(List.pairwise_cons.mp ascending.starts).2,
    (List.forall_mem_cons.mp ascending.ordered).2, fun u member => ascending.fits u ?_⟩
  cases rest with
  | nil => simp at member
  | cons next rest =>
    rw [List.dropLast_cons_of_ne_nil (List.cons_ne_nil next rest)]
    exact List.mem_cons_of_mem _ member

/-- The joined interval takes the place of both, so the rest still starts behind it. -/
private theorem Ascending.join {r next : Interval} {rest : List Interval}
    (ascending : Ascending (r :: next :: rest)) :
    Ascending (⟨r.lo, max r.hi next.hi⟩ :: rest) := by
  obtain ⟨afterFirst, _⟩ := List.pairwise_cons.mp ascending.starts
  obtain ⟨ordered, _⟩ := List.forall_mem_cons.mp ascending.ordered
  have tail := ascending.tail
  refine ⟨List.pairwise_cons.mpr ⟨fun later member => ?_, tail.tail.starts⟩,
    List.forall_mem_cons.mpr ⟨by simp only; omega, tail.tail.ordered⟩, ?_⟩
  · exact afterFirst later (List.mem_cons_of_mem _ member)
  · cases rest with
    | nil => simp
    | cons last rest =>
      have first := ascending.room
      have second := tail.room
      rw [List.dropLast_cons_of_ne_nil (List.cons_ne_nil last rest)]
      exact List.forall_mem_cons.mpr ⟨by simp only; omega, tail.tail.fits⟩

section
variable {last r : Interval} {rest : List Interval}

/-- A successor that overlaps or touches is taken in. -/
private theorem coalesceFrom_of_joins (room : last.hi < wordMax) (joins : r.lo ≤ last.hi + 1) :
    coalesceFrom last (r :: rest) = coalesceFrom ⟨last.lo, max last.hi r.hi⟩ rest := by
  have reach : Word.add last.hi 1 = .ok (last.hi + 1) := Word.add_eq_ok (by omega)
  have stop : (if last.hi < r.hi then r.hi else last.hi) = max last.hi r.hi := by
    split <;> omega
  rw [coalesceFrom, reach]
  simp only [bind, Except.bind, joins, if_true, stop]

/-- Behind a gap the next interval is begun. -/
private theorem coalesceFrom_of_gap (room : last.hi < wordMax) (gap : last.hi + 1 < r.lo) :
    coalesceFrom last (r :: rest) = (coalesceFrom r rest).map (last :: ·) := by
  have reach : Word.add last.hi 1 = .ok (last.hi + 1) := Word.add_eq_ok (by omega)
  rw [coalesceFrom, reach]
  simp only [bind, Except.bind, Nat.not_le.mpr gap, if_false]
  cases coalesceFrom r rest <;> rfl

/-- The end of the machine word has no successor to compare with. -/
private theorem coalesceFrom_of_full (full : wordMax ≤ last.hi) :
    coalesceFrom last (r :: rest) = .error .overflow := by
  have overflow : Word.add last.hi 1 = .error .overflow := if_neg (by omega)
  rw [coalesceFrom, overflow]
  rfl

end

/-- Coalescing ascending intervals makes a separated sequence of the same values. -/
theorem coalesceFrom_separates (last : Interval) (s : List Interval)
    (ascending : Ascending (last :: s)) :
    ∃ t, coalesceFrom last s = .ok t ∧ Separated t ∧ (∀ v, Covers t v ↔ Covers (last :: s) v) ∧
      ∀ r ∈ t, last.lo ≤ r.lo := by
  induction s generalizing last with
  | nil =>
    have lastOrdered := ascending.ordered last List.mem_cons_self
    exact ⟨[last], rfl, separated_single lastOrdered, fun v => Iff.rfl, by simp⟩
  | cons r rest ih =>
    have start : last.lo ≤ r.lo :=
      (List.pairwise_cons.mp ascending.starts).1 r List.mem_cons_self
    obtain ⟨lastOrdered, others⟩ := List.forall_mem_cons.mp ascending.ordered
    by_cases joins : r.lo ≤ last.hi + 1
    · obtain ⟨t, executed, separated, covers, bound⟩ :=
        ih ⟨last.lo, max last.hi r.hi⟩ ascending.join
      refine ⟨t, by rw [coalesceFrom_of_joins ascending.room joins, executed], separated, ?_, bound⟩
      intro v
      have rOrdered := others r List.mem_cons_self
      rw [covers v]
      simp only [covers_cons, Interval.mem_iff, ← or_assoc]
      refine or_congr_left ?_
      omega
    · obtain ⟨t, executed, separated, covers, bound⟩ := ih r ascending.tail
      have gap : last.hi + 1 < r.lo := Nat.lt_of_not_le joins
      refine ⟨last :: t, ?_, ?_, fun v => ?_, ?_⟩
      · rw [coalesceFrom_of_gap ascending.room gap, executed]
        rfl
      · refine separated_cons.mpr ⟨lastOrdered, fun later member => ?_, separated⟩
        exact Nat.lt_of_lt_of_le gap (bound later member)
      · rw [covers_cons, covers_cons, covers v]
      · refine List.forall_mem_cons.mpr ⟨Nat.le_refl _, fun u member => ?_⟩
        exact Nat.le_trans start (bound u member)

/-- An interval that ends with the machine word stops the scan at the next one: when it is reached,
    its end becomes the end of the interval that is being built. -/
theorem coalesceFrom_overflows (last : Interval) (s : List Interval)
    (reaches : ∃ u ∈ (last :: s).dropLast, wordMax ≤ u.hi) :
    coalesceFrom last s = .error .overflow := by
  induction s generalizing last with
  | nil => simp at reaches
  | cons r rest ih =>
    rcases Nat.lt_or_ge last.hi wordMax with room | full
    · obtain ⟨u, member, full⟩ := reaches
      rw [List.dropLast_cons_of_ne_nil (List.cons_ne_nil r rest)] at member
      have later : u ∈ (r :: rest).dropLast := by
        rcases List.mem_cons.mp member with rfl | later
        · omega
        · exact later
      by_cases joins : r.lo ≤ last.hi + 1
      · rw [coalesceFrom_of_joins room joins]
        refine ih _ ?_
        cases rest with
        | nil => simp at later
        | cons next rest =>
          rw [List.dropLast_cons_of_ne_nil (List.cons_ne_nil next rest)] at later ⊢
          rcases List.mem_cons.mp later with rfl | behind
          · exact ⟨_, List.mem_cons_self, Nat.le_trans full (Nat.le_max_right _ _)⟩
          · exact ⟨u, List.mem_cons_of_mem _ behind, full⟩
      · rw [coalesceFrom_of_gap room (Nat.lt_of_not_le joins), ih r ⟨u, later, full⟩]
        rfl
    · exact coalesceFrom_of_full full

private theorem separate_eq_coalesceFrom {s : List Interval} {r : Interval} {rest : List Interval}
    (content : sort s = r :: rest) : separate s = coalesceFrom r rest := by
  unfold separate coalesce
  rw [if_pos (isSorted_iff.mpr (sorted_sort s)), content]

private theorem separate_of_sort_nil {s : List Interval} (content : sort s = []) :
    separate s = .ok [] := by
  rw [separate, content]
  rfl

/-- Separating ordered intervals keeps their values, where only the last one in order may end with
    the machine word. -/
theorem separate_separates {s : List Interval} (ordered : ∀ r ∈ s, r.lo ≤ r.hi)
    (fits : ∀ r ∈ (sort s).dropLast, r.hi < wordMax) :
    ∃ t, separate s = .ok t ∧ Separated t ∧ ∀ v, Covers t v ↔ Covers s v := by
  have sorted := sorted_sort s
  have perm := sort_perm s
  cases content : sort s with
  | nil =>
    rw [content] at perm
    exact ⟨[], separate_of_sort_nil content, separated_nil, fun v => covers_perm perm⟩
  | cons r rest =>
    rw [separate_eq_coalesceFrom content]
    rw [content] at sorted perm fits
    have ascending : Ascending (r :: rest) :=
      ⟨sorted.imp fun {r later} le => by rw [Interval.le_iff] at le; omega,
        fun u member => ordered u (perm.mem_iff.mp member), fits⟩
    obtain ⟨t, executed, separated, covers, _⟩ := coalesceFrom_separates r rest ascending
    exact ⟨t, executed, separated, fun v => (covers v).trans (covers_perm perm)⟩

theorem separate_overflows {s : List Interval}
    (reaches : ∃ r ∈ (sort s).dropLast, wordMax ≤ r.hi) : separate s = .error .overflow := by
  cases content : sort s with
  | nil => simp [content] at reaches
  | cons r rest =>
    rw [content] at reaches
    rw [separate_eq_coalesceFrom content]
    exact coalesceFrom_overflows r rest reaches

/-- Separating any sequence of ordered intervals keeps its values. -/
theorem separate_covers {s : List Interval} (ordered : ∀ r ∈ s, r.lo ≤ r.hi)
    (fits : ∀ r ∈ s, r.hi < wordMax) :
    ∃ t, separate s = .ok t ∧ Separated t ∧ ∀ v, Covers t v ↔ Covers s v :=
  separate_separates ordered fun r member =>
    fits r ((sort_perm s).mem_iff.mp (List.dropLast_subset _ member))

end IntegerDomains.Intervals

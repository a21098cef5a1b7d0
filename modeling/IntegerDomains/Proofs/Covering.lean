import IntegerDomains.Intervals.Separated

/-!
A separated sequence is determined by its values (`separated_ext`): its first interval is the first
run of the set, and what lies behind that run is covered by the rest. For the same reason no other
cover of the set has fewer intervals (`length_le_of_covers`).
-/

namespace IntegerDomains.Intervals

/-- Some interval of the sequence holds the value. -/
def Covers (s : List Interval) (v : Nat) : Prop := ∃ r ∈ s, v ∈ r

@[simp] theorem covers_nil {v : Nat} : ¬Covers [] v := by simp [Covers]

@[simp] theorem covers_cons {r : Interval} {s : List Interval} {v : Nat} :
    Covers (r :: s) v ↔ v ∈ r ∨ Covers s v := by
  simp [Covers]

@[simp] theorem covers_append {s t : List Interval} {v : Nat} :
    Covers (s ++ t) v ↔ Covers s v ∨ Covers t v := by
  simp [Covers, or_and_right, exists_or]

theorem covers_of_mem {r : Interval} {s : List Interval} {v : Nat} (member : r ∈ s)
    (inside : v ∈ r) : Covers s v := ⟨r, member, inside⟩

theorem covers_perm {s t : List Interval} (perm : s.Perm t) {v : Nat} :
    Covers s v ↔ Covers t v := by
  simp only [Covers, perm.mem_iff]

@[simp] theorem separated_nil : Separated [] := by simp [Separated]

theorem separated_cons {r : Interval} {s : List Interval} :
    Separated (r :: s) ↔
      r.lo ≤ r.hi ∧ (∀ later ∈ s, r.hi + 1 < later.lo) ∧ Separated s := by
  simp only [Separated, List.forall_mem_cons, List.pairwise_cons]
  constructor
  · rintro ⟨⟨first, others⟩, gaps, apart⟩
    exact ⟨first, gaps, others, apart⟩
  · rintro ⟨first, gaps, others, apart⟩
    exact ⟨⟨first, others⟩, gaps, apart⟩

theorem separated_single {r : Interval} (ordered : r.lo ≤ r.hi) : Separated [r] := by
  simp [separated_cons, ordered]

theorem separated_append {s t : List Interval} :
    Separated (s ++ t) ↔
      Separated s ∧ Separated t ∧ ∀ r ∈ s, ∀ later ∈ t, r.hi + 1 < later.lo := by
  simp only [Separated, List.forall_mem_append, List.pairwise_append]
  constructor
  · rintro ⟨⟨left, right⟩, leftApart, rightApart, between⟩
    exact ⟨⟨left, leftApart⟩, ⟨right, rightApart⟩, between⟩
  · rintro ⟨⟨left, leftApart⟩, ⟨right, rightApart⟩, between⟩
    exact ⟨⟨left, right⟩, leftApart, rightApart, between⟩

/-- Of ordered intervals only the ends have to be compared with a bound. -/
theorem bounded_iff {s : List Interval} {bound : Nat} (ordered : ∀ r ∈ s, r.lo ≤ r.hi) :
    (∀ v, Covers s v → v ≤ bound) ↔ ∀ r ∈ s, r.hi ≤ bound := by
  constructor
  · exact fun bounded r member =>
      bounded r.hi (covers_of_mem member ⟨ordered r member, Nat.le_refl _⟩)
  · rintro ends v ⟨r, member, inside⟩
    exact Nat.le_trans inside.2 (ends r member)

/-- A separated sequence of values that a domain may hold. -/
structure Proper (s : List Interval) : Prop where
  separated : Separated s
  bounded : ∀ v, Covers s v → v ≤ maxValue

theorem Proper.mem {s : List Interval} (proper : Proper s) {r : Interval} (member : r ∈ s) :
    r.lo ≤ r.hi ∧ r.hi ≤ maxValue := by
  have ordered := proper.separated.1
  exact ⟨ordered r member, (bounded_iff ordered).mp proper.bounded r member⟩

theorem proper_iff {s : List Interval} :
    Proper s ↔ Separated s ∧ ∀ r ∈ s, r.hi ≤ maxValue := by
  constructor
  · intro proper
    exact ⟨proper.separated, fun r member => (proper.mem member).2⟩
  · rintro ⟨separated, bounded⟩
    exact ⟨separated, (bounded_iff separated.1).mpr bounded⟩

/-- The check for separated sequences and the limit of each interval are enough. -/
theorem proper_of_isSeparated {s : List Interval} (separated : isSeparated s = true)
    (bound : ∀ r ∈ s, r.hi ≤ maxValue) : Proper s :=
  proper_iff.mpr ⟨isSeparated_iff.mp separated, bound⟩

/-- Behind the first interval of a separated sequence a value is missing. -/
theorem lt_of_covers_tail {r : Interval} {s : List Interval} (separated : Separated (r :: s))
    {v : Nat} (covered : Covers s v) : r.hi + 1 < v := by
  obtain ⟨_, gaps, _⟩ := separated_cons.mp separated
  obtain ⟨later, member, inside⟩ := covered
  have gap := gaps later member
  rw [Interval.mem_iff] at inside
  omega

theorem covers_tail_iff {r : Interval} {s : List Interval} (separated : Separated (r :: s))
    {v : Nat} : Covers s v ↔ Covers (r :: s) v ∧ r.hi < v := by
  rw [covers_cons, Interval.mem_iff]
  constructor
  · intro covered
    have beyond := lt_of_covers_tail separated covered
    exact ⟨.inr covered, by omega⟩
  · rintro ⟨inside | covered, beyond⟩
    · omega
    · exact covered

/-- The first interval of a separated sequence begins with the smallest value. -/
theorem lo_le_of_covers {r : Interval} {s : List Interval} (separated : Separated (r :: s))
    {v : Nat} (covered : Covers (r :: s) v) : r.lo ≤ v := by
  obtain ⟨ordered, _⟩ := separated_cons.mp separated
  rcases covers_cons.mp covered with inside | later
  · exact inside.1
  · have beyond := lt_of_covers_tail separated later
    omega

theorem covers_lo {r : Interval} {s : List Interval} (separated : Separated (r :: s)) :
    Covers (r :: s) r.lo :=
  covers_cons.mpr (.inl ⟨Nat.le_refl _, (separated_cons.mp separated).1⟩)

/-- A separated sequence of any length covers a value. -/
theorem ne_nil_iff_covers {s : List Interval} (separated : Separated s) :
    s ≠ [] ↔ ∃ v, Covers s v := by
  cases s with
  | nil => simp
  | cons r rest => exact iff_of_true (List.cons_ne_nil r rest) ⟨r.lo, covers_lo separated⟩

theorem not_covers_succ_hi {r : Interval} {s : List Interval} (separated : Separated (r :: s)) :
    ¬Covers (r :: s) (r.hi + 1) := by
  intro covered
  rcases covers_cons.mp covered with inside | later
  · have bound := inside.2
    omega
  · have beyond := lt_of_covers_tail separated later
    omega

theorem not_covers_succ_of_mem {r : Interval} {s : List Interval} (separated : Separated s)
    (member : r ∈ s) : ¬Covers s (r.hi + 1) := by
  obtain ⟨front, back, rfl⟩ := List.append_of_mem member
  obtain ⟨_, fromR, before⟩ := separated_append.mp separated
  intro covered
  rcases covers_append.mp covered with ⟨u, inFront, inside⟩ | behind
  · have gap := before u inFront r List.mem_cons_self
    have ordered := (separated_cons.mp fromR).1
    rw [Interval.mem_iff] at inside
    omega
  · exact not_covers_succ_hi fromR behind

/-- Nor is there a value right before an interval of a separated sequence. -/
theorem not_covers_pred_of_mem {r : Interval} {s : List Interval} (separated : Separated s)
    (member : r ∈ s) {v : Nat} (touches : v + 1 = r.lo) : ¬Covers s v := by
  obtain ⟨front, back, rfl⟩ := List.append_of_mem member
  obtain ⟨_, fromR, before⟩ := separated_append.mp separated
  intro covered
  rcases covers_append.mp covered with ⟨u, inFront, inside⟩ | behind
  · have gap := before u inFront r List.mem_cons_self
    rw [Interval.mem_iff] at inside
    omega
  · have start := lo_le_of_covers fromR behind
    omega

/-- Each interval of `s` lies within one of `t`. -/
def Refines (s t : List Interval) : Prop := ∀ r ∈ s, ∃ u ∈ t, u.lo ≤ r.lo ∧ r.hi ≤ u.hi

instance (s t : List Interval) : Decidable (Refines s t) :=
  inferInstanceAs (Decidable (∀ r ∈ s, ∃ u ∈ t, u.lo ≤ r.lo ∧ r.hi ≤ u.hi))

theorem Refines.covers {s t : List Interval} (refines : Refines s t) {v : Nat}
    (covered : Covers s v) : Covers t v := by
  obtain ⟨r, member, start, stop⟩ := covered
  obtain ⟨u, inside, uStart, uStop⟩ := refines r member
  exact covers_of_mem inside ⟨by omega, by omega⟩

/-- The intervals of a separated sequence are the maximal runs of what it covers, so an interval of
    a part of it cannot reach from one into the next. -/
theorem refines_of_covers {s t : List Interval} (left : Separated s) (right : Separated t)
    (inside : ∀ v, Covers s v → Covers t v) : Refines s t := by
  intro r member
  have ordered := left.1 r member
  obtain ⟨u, inRight, start, stop⟩ := inside r.lo (covers_of_mem member ⟨Nat.le_refl _, ordered⟩)
  refine ⟨u, inRight, start, Nat.le_of_not_lt fun short => ?_⟩
  have next : Covers s (u.hi + 1) := covers_of_mem member ⟨by omega, by omega⟩
  exact not_covers_succ_of_mem right inRight (inside _ next)

/-- The last interval of a separated sequence ends with the largest value. -/
theorem le_hi_of_getLast? {s : List Interval} (separated : Separated s) {last : Interval}
    (isLast : s.getLast? = some last) {v : Nat} (covered : Covers s v) : v ≤ last.hi := by
  obtain ⟨front, rfl⟩ := List.getLast?_eq_some_iff.mp isLast
  obtain ⟨_, single, before⟩ := separated_append.mp separated
  rcases covers_append.mp covered with ⟨r, member, inside⟩ | inLast
  · have gap := before r member last List.mem_cons_self
    have ordered := single.1 last List.mem_cons_self
    rw [Interval.mem_iff] at inside
    omega
  · rw [covers_cons, Interval.mem_iff] at inLast
    simpa using inLast.imp_left And.right

theorem covers_getLast? {s : List Interval} (separated : Separated s) {last : Interval}
    (isLast : s.getLast? = some last) : Covers s last.hi := by
  have member := List.mem_of_getLast? isLast
  exact covers_of_mem member ⟨separated.1 last member, Nat.le_refl _⟩

/-- The first interval of one of two sequences of the same values does not end before the other. -/
private theorem first_hi_le {r first : Interval} {s t : List Interval}
    (separated : Separated (r :: s)) (start : first.lo = r.lo)
    (same : ∀ v, Covers (first :: t) v → Covers (r :: s) v) : first.hi ≤ r.hi := by
  refine Nat.le_of_not_lt fun longer => ?_
  have inOrder := (separated_cons.mp separated).1
  refine not_covers_succ_hi separated (same _ (covers_cons.mpr (.inl ?_)))
  exact ⟨by omega, by omega⟩

/-- Separated sequences that cover the same values are equal. -/
theorem separated_ext {s t : List Interval} (left : Separated s) (right : Separated t)
    (same : ∀ v, Covers s v ↔ Covers t v) : s = t := by
  induction s generalizing t with
  | nil =>
    cases t with
    | nil => rfl
    | cons first rest => exact absurd ((same _).mpr (covers_lo right)) covers_nil
  | cons r s ih =>
    cases t with
    | nil => exact absurd ((same _).mp (covers_lo left)) covers_nil
    | cons first t =>
      have start : r.lo = first.lo := by
        have below := lo_le_of_covers left ((same _).mpr (covers_lo right))
        have above := lo_le_of_covers right ((same _).mp (covers_lo left))
        omega
      have stop : r.hi = first.hi := by
        have below := first_hi_le left start.symm fun v => (same v).mpr
        have above := first_hi_le right start fun v => (same v).mp
        omega
      have equal : r = first := by
        cases r
        cases first
        simp_all
      subst equal
      have rest : s = t := by
        refine ih (separated_cons.mp left).2.2 (separated_cons.mp right).2.2 fun v => ?_
        rw [covers_tail_iff left, covers_tail_iff right, same]
      rw [rest]

/-- No sequence covers the same values with fewer intervals than a separated one. The induction
    takes the first run off: whatever reaches into a later run starts behind the gap, and the
    interval that covers the start of the first run does not. -/
theorem length_le_of_covers {s t : List Interval} (separated : Separated s)
    (same : ∀ v, Covers s v ↔ Covers t v) : s.length ≤ t.length := by
  induction s generalizing t with
  | nil => exact Nat.zero_le _
  | cons r s ih =>
    obtain ⟨ordered, _, rest⟩ := separated_cons.mp separated
    obtain ⟨u, member, inside⟩ := (same r.lo).mp (covers_lo separated)
    rw [Interval.mem_iff] at inside
    have fewer : (t.filter fun p => decide (r.hi < p.lo)).length < t.length := by
      refine List.length_filter_lt_length_iff_exists.mpr ⟨u, member, ?_⟩
      simp only [decide_eq_true_eq]
      omega
    have others := ih rest (t := t.filter fun p => decide (r.hi < p.lo)) fun v => by
      rw [covers_tail_iff separated, same v]
      constructor
      · rintro ⟨⟨p, inT, start, stop⟩, beyond⟩
        refine ⟨p, List.mem_filter.mpr ⟨inT, ?_⟩, start, stop⟩
        -- An interval that reaches over the end of the first run would fill the gap behind it.
        by_cases overlaps : r.hi < p.lo
        · exact decide_eq_true overlaps
        · have gap : Covers t (r.hi + 1) := ⟨p, inT, by omega, by omega⟩
          exact absurd ((same _).mpr gap) (not_covers_succ_hi separated)
      · rintro ⟨p, inside, start, stop⟩
        obtain ⟨inT, behind⟩ := List.mem_filter.mp inside
        have behind := of_decide_eq_true behind
        exact ⟨⟨p, inT, start, stop⟩, by omega⟩
    rw [List.length_cons]
    omega

end IntegerDomains.Intervals

import IntegerDomains.Intervals.Cutting
import IntegerDomains.Proofs.Covering

namespace IntegerDomains.Intervals

/-- Behind the first interval another separated sequence may stand that covers no more. -/
private theorem separated_cons_of_covers {r : Interval} {s t : List Interval}
    (separated : Separated (r :: s)) (apart : Separated t) (inside : ∀ v, Covers t v → Covers s v) :
    Separated (r :: t) := by
  refine separated_cons.mpr ⟨(separated_cons.mp separated).1, fun later member => ?_, apart⟩
  have start : Covers t later.lo := covers_of_mem member ⟨Nat.le_refl _, apart.1 later member⟩
  exact lt_of_covers_tail separated (inside _ start)

theorem below_covers (v : Nat) {s : List Interval} (separated : Separated s) :
    Separated (below v s) ∧ ∀ w, Covers (below v s) w ↔ Covers s w ∧ w < v := by
  induction s with
  | nil => exact ⟨separated_nil, fun w => by simp [below]⟩
  | cons r rest ih =>
    obtain ⟨ordered, _, tail⟩ := separated_cons.mp separated
    obtain ⟨apart, covers⟩ := ih tail
    rw [below]
    split
    · next before =>
      refine ⟨separated_nil, fun w => iff_of_false covers_nil ?_⟩
      rintro ⟨covered, less⟩
      have start := lo_le_of_covers separated covered
      omega
    · next inside =>
      split
      · next ends =>
        refine ⟨separated_single (by simp only; omega), fun w => ?_⟩
        rw [covers_cons, covers_cons, Interval.mem_iff, Interval.mem_iff]
        simp only [covers_nil, or_false]
        constructor
        · intro kept
          exact ⟨.inl (by omega), by omega⟩
        · rintro ⟨inFirst | later, less⟩
          · omega
          · have beyond := lt_of_covers_tail separated later
            omega
      · next whole =>
        refine ⟨separated_cons_of_covers separated apart fun w covered =>
          ((covers w).mp covered).1, fun w => ?_⟩
        rw [covers_cons, covers_cons, covers, Interval.mem_iff, or_and_right]
        refine or_congr_left ?_
        omega

theorem above_covers (v : Nat) {s : List Interval} (separated : Separated s) :
    Separated (above v s) ∧ ∀ w, Covers (above v s) w ↔ Covers s w ∧ v < w := by
  induction s with
  | nil => exact ⟨separated_nil, fun w => by simp [above]⟩
  | cons r rest ih =>
    obtain ⟨ordered, gaps, tail⟩ := separated_cons.mp separated
    rw [above]
    split
    · next dropped =>
      obtain ⟨apart, covers⟩ := ih tail
      refine ⟨apart, fun w => ?_⟩
      rw [covers, covers_cons, Interval.mem_iff, or_and_right]
      refine (or_iff_right ?_).symm
      omega
    · next reaches =>
      have later : ∀ w, Covers rest w → v < w := fun w covered => by
        have beyond := lt_of_covers_tail separated covered
        omega
      split
      · next cut =>
        refine ⟨separated_cons.mpr ⟨by simp only; omega, gaps, tail⟩, fun w => ?_⟩
        rw [covers_cons, covers_cons, Interval.mem_iff, Interval.mem_iff, or_and_right,
          and_iff_left_of_imp (later w)]
        refine or_congr_left ?_
        simp only
        omega
      · next whole =>
        refine ⟨separated, fun w => (and_iff_left_of_imp fun covered => ?_).symm⟩
        have start := lo_le_of_covers separated covered
        omega

/-- The search names an interval that holds the value. -/
theorem getElem?_of_locate? {v index : Nat} {s : List Interval} (found : locate? v s = some index) :
    ∃ r, s[index]? = some r ∧ v ∈ r := by
  induction s generalizing index with
  | nil => simp [locate?] at found
  | cons u rest ih =>
    rw [locate?] at found
    split at found
    · exact absurd found (by simp)
    · next start =>
      split at found
      · next stop =>
        obtain rfl := Option.some.inj found
        exact ⟨u, rfl, Nat.le_of_not_lt start, stop⟩
      · obtain ⟨position, behind, rfl⟩ := Option.map_eq_some_iff.mp found
        exact ih behind

/-- An interval stands between those before and those behind its position. -/
theorem exists_append_of_getElem? {s : List Interval} {index : Nat} {r : Interval}
    (here : s[index]? = some r) : ∃ front back, s = front ++ r :: back ∧ front.length = index := by
  obtain ⟨inside, rfl⟩ := List.getElem?_eq_some_iff.mp here
  refine ⟨s.take index, s.drop (index + 1), ?_, by rw [List.length_take]; omega⟩
  rw [← List.drop_eq_getElem_cons inside, List.take_append_drop]

/-- An interval may be replaced by a separated sequence that does not leave its bounds. -/
private theorem separated_replace {front parts back : List Interval} {r : Interval}
    (separated : Separated (front ++ r :: back)) (apart : Separated parts)
    (inside : ∀ p ∈ parts, r.lo ≤ p.lo ∧ p.hi ≤ r.hi) : Separated (front ++ parts ++ back) := by
  obtain ⟨frontApart, rest, before⟩ := separated_append.mp separated
  obtain ⟨_, gaps, backApart⟩ := separated_cons.mp rest
  have frontParts : Separated (front ++ parts) := by
    refine separated_append.mpr ⟨frontApart, apart, fun u inFront p inParts => ?_⟩
    have gap := before u inFront r List.mem_cons_self
    have start := (inside p inParts).1
    omega
  refine separated_append.mpr ⟨frontParts, backApart, fun u member later inBack => ?_⟩
  rcases List.mem_append.mp member with inFront | inParts
  · exact before u inFront later (List.mem_cons_of_mem _ inBack)
  · have gap := gaps later inBack
    have stop := (inside u inParts).2
    omega

private theorem separated_without {r : Interval} {v : Nat} (member : v ∈ r) :
    Separated (r.without v) ∧ ∀ p ∈ r.without v, r.lo ≤ p.lo ∧ p.hi ≤ r.hi := by
  rw [Interval.mem_iff] at member
  rw [Interval.without]
  by_cases lower : r.lo < v <;> by_cases upper : v < r.hi <;>
    simp [lower, upper, separated_cons] <;> omega

private theorem cutAt_append {front back : List Interval} {r : Interval} {v : Nat} :
    cutAt front.length v (front ++ r :: back) = front ++ r.without v ++ back := by
  simp [cutAt, List.drop_append]

/-- Cutting a value out of the interval that holds it leaves all other values. -/
theorem cutAt_covers {v index : Nat} {s : List Interval} {r : Interval} (separated : Separated s)
    (here : s[index]? = some r) (inside : v ∈ r) :
    Separated (cutAt index v s) ∧ ∀ w, Covers (cutAt index v s) w ↔ Covers s w ∧ w ≠ v := by
  obtain ⟨front, back, rfl, rfl⟩ := exists_append_of_getElem? here
  obtain ⟨apart, within⟩ := separated_without inside
  rw [cutAt_append]
  refine ⟨separated_replace separated apart within, fun w => ?_⟩
  obtain ⟨_, rest, before⟩ := separated_append.mp separated
  have notFront : ¬Covers front v := by
    rintro ⟨u, member, inFront⟩
    have gap := before u member r List.mem_cons_self
    rw [Interval.mem_iff] at inside inFront
    omega
  have notBack : ¬Covers back v := fun covered => by
    have beyond := lt_of_covers_tail rest covered
    rw [Interval.mem_iff] at inside
    omega
  have cut : Covers (r.without v) w ↔ w ∈ r ∧ w ≠ v := Interval.mem_without inside
  rw [covers_append, covers_append, covers_append, covers_cons, cut]
  constructor
  · rintro ((inFront | ⟨inR, other⟩) | inBack)
    · exact ⟨.inl inFront, by rintro rfl; exact notFront inFront⟩
    · exact ⟨.inr (.inl inR), other⟩
    · exact ⟨.inr (.inr inBack), by rintro rfl; exact notBack inBack⟩
  · rintro ⟨inFront | inR | inBack, other⟩
    · exact .inl (.inl inFront)
    · exact .inl (.inr ⟨inR, other⟩)
    · exact .inr inBack

private theorem covers_common {r s : Interval} {v : Nat} :
    Covers (common r s) v ↔ v ∈ r ∧ v ∈ s := by
  rw [common, Interval.mem_iff, Interval.mem_iff]
  split
  · simp only [covers_cons, covers_nil, or_false, Interval.mem_iff]
    omega
  · simp only [covers_nil, false_iff]
    omega

/-- Behind the common part of two intervals a separated sequence may follow that leaves a gap to the
    first of their ends. -/
private theorem separated_common_append {r s : Interval} {t : List Interval} (apart : Separated t)
    (beyond : ∀ v, Covers t v → min r.hi s.hi + 1 < v) : Separated (common r s ++ t) := by
  rw [common]
  split
  · next overlap =>
    refine separated_cons.mpr ⟨overlap, fun later member => ?_, apart⟩
    exact beyond _ (covers_of_mem member ⟨Nat.le_refl _, apart.1 later member⟩)
  · exact apart

/-- What an interval that ends first has in common with the other sequence, it has in common with
    the first interval there. -/
private theorem leave_left {r s : Interval} {a b : List Interval} (right : Separated (s :: b))
    (ends : r.hi ≤ s.hi) (v : Nat) :
    Covers (r :: a) v ∧ Covers (s :: b) v ↔
      (v ∈ r ∧ v ∈ s) ∨ (Covers a v ∧ Covers (s :: b) v) := by
  have onlyFirst : v ∈ r ∧ Covers (s :: b) v ↔ v ∈ r ∧ v ∈ s := by
    refine and_congr_right fun inR => covers_cons.trans (or_iff_left fun inB => ?_)
    have beyond := lt_of_covers_tail right inB
    rw [Interval.mem_iff] at inR
    omega
  rw [covers_cons, or_and_right, onlyFirst]

private theorem leave_right {r s : Interval} {a b : List Interval} (left : Separated (r :: a))
    (ends : s.hi ≤ r.hi) (v : Nat) :
    Covers (r :: a) v ∧ Covers (s :: b) v ↔
      (v ∈ r ∧ v ∈ s) ∨ (Covers (r :: a) v ∧ Covers b v) := by
  rw [and_comm, leave_left left ends, and_comm (a := v ∈ s), and_comm (a := Covers b v)]

/-- Of two intervals that end together both may be left behind. -/
private theorem leave_both {r s : Interval} {a b : List Interval} (left : Separated (r :: a))
    (right : Separated (s :: b)) (same : r.hi = s.hi) (v : Nat) :
    Covers (r :: a) v ∧ Covers (s :: b) v ↔ (v ∈ r ∧ v ∈ s) ∨ (Covers a v ∧ Covers b v) := by
  rw [leave_left right (Nat.le_of_eq same)]
  refine or_congr_right (and_congr_right fun inA => covers_cons.trans (or_iff_right fun inS => ?_))
  have beyond := lt_of_covers_tail left inA
  rw [Interval.mem_iff] at inS
  omega

/-- Leaving behind the interval that ends first loses no common value. -/
theorem meet_covers (a b : List Interval) (left : Separated a) (right : Separated b) :
    Separated (meet a b) ∧ ∀ v, Covers (meet a b) v ↔ Covers a v ∧ Covers b v := by
  match a, b with
  | [], b => exact ⟨by simp [meet], fun v => by simp [meet]⟩
  | r :: a, [] => exact ⟨by simp [meet], fun v => by simp [meet]⟩
  | r :: a, s :: b =>
    have aTail := (separated_cons.mp left).2.2
    have bTail := (separated_cons.mp right).2.2
    rw [meet]
    split
    · next less =>
      obtain ⟨apart, covers⟩ := meet_covers a (s :: b) aTail right
      refine ⟨separated_common_append apart fun v covered => ?_, fun v => ?_⟩
      · have beyond := lt_of_covers_tail left ((covers v).mp covered).1
        omega
      · rw [covers_append, covers_common, covers, leave_left right (Nat.le_of_lt less)]
    · split
      · next more =>
        obtain ⟨apart, covers⟩ := meet_covers (r :: a) b left bTail
        refine ⟨separated_common_append apart fun v covered => ?_, fun v => ?_⟩
        · have beyond := lt_of_covers_tail right ((covers v).mp covered).2
          omega
        · rw [covers_append, covers_common, covers, leave_right left (Nat.le_of_lt more)]
      · next notLess notMore =>
        have same : r.hi = s.hi := by omega
        obtain ⟨apart, covers⟩ := meet_covers a b aTail bTail
        refine ⟨separated_common_append apart fun v covered => ?_, fun v => ?_⟩
        · have beyond := lt_of_covers_tail left ((covers v).mp covered).1
          omega
        · rw [covers_append, covers_common, covers, leave_both left right same]
termination_by a.length + b.length

/-- The search for an overlap leaves nothing behind that a common value could lie in: an
    interval that ends first and does not overlap the first one of the other sequence has no
    value in common with it. -/
theorem meets_iff (a b : List Interval) (left : Separated a) (right : Separated b) :
    meets a b = true ↔ ∃ v, Covers a v ∧ Covers b v := by
  match a, b with
  | [], b => simp [meets]
  | r :: a, [] => simp [meets]
  | r :: a, s :: b =>
    obtain ⟨rOrdered, _, aTail⟩ := separated_cons.mp left
    obtain ⟨sOrdered, _, bTail⟩ := separated_cons.mp right
    have overlap := Interval.overlaps_iff rOrdered sOrdered
    rw [meets]
    split
    · next overlaps =>
      obtain ⟨v, inR, inS⟩ := overlap.mp overlaps
      exact iff_of_true rfl ⟨v, covers_cons.mpr (.inl inR), covers_cons.mpr (.inl inS)⟩
    · next apart =>
      have nothing : ∀ v, ¬(v ∈ r ∧ v ∈ s) := not_exists.mp (mt overlap.mpr apart)
      split
      · next less =>
        rw [meets_iff a (s :: b) aTail right]
        refine exists_congr fun v => ?_
        rw [leave_left right (Nat.le_of_lt less), or_iff_right (nothing v)]
      · next notLess =>
        rw [meets_iff (r :: a) b left bTail]
        refine exists_congr fun v => ?_
        rw [leave_right left (Nat.le_of_not_lt notLess), or_iff_right (nothing v)]
termination_by a.length + b.length

/-- The search for an overlap agrees with the collection of the common values, although it leaves
    intervals behind in another order. -/
theorem meets_iff_meet {a b : List Interval} (left : Separated a) (right : Separated b) :
    meets a b = true ↔ meet a b ≠ [] := by
  obtain ⟨separated, covers⟩ := meet_covers a b left right
  rw [meets_iff a b left right, ne_nil_iff_covers separated]
  exact exists_congr fun v => (covers v).symm

end IntegerDomains.Intervals

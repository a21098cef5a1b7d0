import IntegerDomains.Proofs.Differences
import IntegerDomains.Proofs.Sums

/-!
Coarser sequences have wider intervals, so whatever one round of bridging joins is joined in every
settled pair that is coarser than the operands. The pair in which bridging ends is therefore the
finest one of these (`settle_leastSettled`), whichever side comes first.
-/

namespace IntegerDomains.Intervals

/-- Every gap of the first sequence is wider than some interval of the second. -/
def Wider (a b : List Interval) : Prop :=
  a.IsChain fun r next => ∃ u ∈ b, u.hi + 1 - u.lo < next.lo - r.hi

/-- Neither side has a gap that the other one could bridge. -/
def Settled (a b : List Interval) : Prop := Wider a b ∧ Wider b a

/-- The second pair is coarser than the first and settled, and every other such pair is
    coarser still. -/
structure LeastSettled (a b a' b' : List Interval) : Prop where
  left : Joins a a'
  right : Joins b b'
  settled : Settled a' b'
  least : ∀ {c d}, Joins a c → Joins b d → Settled c d → Joins a' c ∧ Joins b' d

variable {a b a' b' c d : List Interval} {gap : Nat}

theorem Settled.swap (settled : Settled a b) : Settled b a := ⟨settled.2, settled.1⟩

theorem LeastSettled.swap (least : LeastSettled a b a' b') : LeastSettled b a b' a' :=
  ⟨least.right, least.left, least.settled.swap,
    fun right left settled => (least.least left right settled.swap).symm⟩

/-- There is only one. -/
theorem LeastSettled.unique (first : LeastSettled a b a' b') (second : LeastSettled a b c d) :
    a' = c ∧ b' = d := by
  obtain ⟨left, right⟩ := first.least second.left second.right second.settled
  obtain ⟨left', right'⟩ := second.least first.left first.right first.settled
  exact ⟨left.antisymm left', right.antisymm right'⟩

private theorem Settled.leastSettled (settled : Settled a b) : LeastSettled a b a b :=
  ⟨.refl a, .refl b, settled, fun left right _ => ⟨left, right⟩⟩

/-- What is joined before matters no more once every coarser settled pair has it joined. -/
private theorem LeastSettled.of_round (left : Joins a a') (right : Joins b b')
    (joined : ∀ {x y}, Joins a x → Joins b y → Settled x y → Joins a' x ∧ Joins b' y)
    (least : LeastSettled a' b' c d) : LeastSettled a b c d where
  left := left.trans least.left
  right := right.trans least.right
  settled := least.settled
  least fromLeft fromRight settled :=
    have ⟨fromLeft', fromRight'⟩ := joined fromLeft fromRight settled
    least.least fromLeft' fromRight' settled

/-- Each interval of a coarser sequence holds one of the finer one. So a gap wider than one of its
    intervals is wider than the narrowest of the finer one. -/
private theorem Wider.spaced (wider : Wider a c) (joins : Joins b c) (proper : Proper b)
    (executed : narrowest b = .ok gap) : Spaced gap a := by
  obtain ⟨_, executed', bound, _⟩ := narrowest_isLeast proper
  cases executed'.symm.trans executed
  refine wider.imp fun p next ⟨u, member, wide⟩ => ?_
  obtain ⟨r, inside, start, stop⟩ := joins.starts proper.separated member
  have narrow := bound r inside
  omega

private theorem Spaced.wider (spaced : Spaced gap a) (proper : Proper b) (nonempty : b ≠ [])
    (executed : narrowest b = .ok gap) : Wider a b := by
  obtain ⟨_, executed', _, attained⟩ := narrowest_isLeast proper
  cases executed'.symm.trans executed
  rcases attained with ⟨empty, _⟩ | ⟨u, member, width⟩
  · exact absurd empty nonempty
  · exact spaced.imp fun p next wide => ⟨u, member, by omega⟩

/-- One interval has no gap to bridge. -/
private theorem bridge_eq_self (short : a.length ≤ 1) : bridge gap a = a :=
  match a, short with
  | [], _ => rfl
  | [_], _ => rfl

private theorem bridgeBy_eq (executed : narrowest b = .ok gap) :
    bridgeBy b a = .ok (bridge gap a) := by
  rw [bridgeBy]
  split
  · rw [executed]
    rfl
  · next short =>
    rw [bridge_eq_self (Nat.le_of_not_lt short)]
    rfl

/-- Bridging one side joins what every coarser settled pair has joined. -/
private theorem Joins.bridge_settled (left : Joins a c) (right : Joins b d) (proper : Proper b)
    (executed : narrowest b = .ok gap) (settled : Settled c d) : Joins (bridge gap a) c :=
  left.bridge_least (settled.1.spaced right proper executed)

/-- Bridging ends in the finest settled pair. Each round joins what every settled pair has joined,
    and the last one, which joins nothing on the right, leaves a settled pair. -/
theorem settle_leastSettled (a b : List Interval) (left : Proper a) (right : Proper b)
    (aNonempty : a ≠ []) (bNonempty : b ≠ []) :
    ∃ a' b', settle a b = .ok (a', b') ∧ LeastSettled a b a' b' := by
  obtain ⟨gap, narrow, _⟩ := narrowest_isLeast right
  have aJoins := joins_bridge gap a
  have aProper := aJoins.proper left
  obtain ⟨gap', narrow', _⟩ := narrowest_isLeast aProper
  have bJoins := joins_bridge gap' b
  have joined : ∀ {x y}, Joins a x → Joins b y → Settled x y →
      Joins (bridge gap a) x ∧ Joins (bridge gap' b) y := by
    intro x y fromLeft fromRight settled
    have left' := fromLeft.bridge_settled fromRight right narrow settled
    exact ⟨left', fromRight.bridge_settled left' aProper narrow' settled.swap⟩
  rw [settle, bridgeBy_eq narrow]
  simp only [bind, Except.bind, bridgeBy_eq narrow']
  split
  · obtain ⟨x, y, executed, least⟩ :=
      settle_leastSettled _ _ aProper (bJoins.proper right) (aJoins.ne_nil aNonempty)
        (bJoins.ne_nil bNonempty)
    exact ⟨x, y, executed, least.of_round aJoins bJoins joined⟩
  · next unchanged =>
    have shorter := aJoins.length_le
    have same : bridge gap' b = b := bJoins.eq_of_length_le (by omega)
    have settled : Settled (bridge gap a) (bridge gap' b) := by
      refine ⟨?_, (spaced_bridge gap' b).wider aProper (aJoins.ne_nil aNonempty) narrow'⟩
      rw [same]
      exact (spaced_bridge gap a).wider right bNonempty narrow
    exact ⟨_, _, rfl, settled.leastSettled.of_round aJoins bJoins joined⟩
termination_by a.length + b.length

private theorem bridgeBoth_leastSettled (left : Proper a) (right : Proper b) (aNonempty : a ≠ [])
    (bNonempty : b ≠ []) :
    ∃ a' b', bridgeBoth a b = .ok (a', b') ∧ LeastSettled a b a' b' := by
  rw [bridgeBoth, if_neg (by simp [aNonempty, bNonempty])]
  exact settle_leastSettled a b left right aNonempty bNonempty

/-- Bridging two sequences ends in the finest settled pair that is coarser than they are. Bridging
    it again changes nothing, and the sides may be exchanged. -/
theorem bridgeBoth_least (aSeparated : isSeparated a = true) (bSeparated : isSeparated b = true)
    (aBound : ∀ r ∈ a, r.hi ≤ maxValue) (bBound : ∀ r ∈ b, r.hi ≤ maxValue) (aNonempty : a ≠ [])
    (bNonempty : b ≠ []) :
    ∃ a' b', bridgeBoth a b = .ok (a', b') ∧ LeastSettled a b a' b' ∧ Coarsens a a' ∧
      Coarsens b b' ∧ bridgeBoth a' b' = .ok (a', b') ∧ bridgeBoth b a = .ok (b', a') := by
  have left := proper_of_isSeparated aSeparated aBound
  have right := proper_of_isSeparated bSeparated bBound
  obtain ⟨a', b', executed, least⟩ := bridgeBoth_leastSettled left right aNonempty bNonempty
  obtain ⟨x, y, again, same⟩ := bridgeBoth_leastSettled (least.left.proper left)
    (least.right.proper right) (least.left.ne_nil aNonempty) (least.right.ne_nil bNonempty)
  obtain ⟨sameLeft, sameRight⟩ := same.unique least.settled.leastSettled
  rw [sameLeft, sameRight] at again
  obtain ⟨u, v, exchanged, mirrored⟩ := bridgeBoth_leastSettled right left bNonempty aNonempty
  obtain ⟨mirroredLeft, mirroredRight⟩ := mirrored.unique least.swap
  rw [mirroredLeft, mirroredRight] at exchanged
  exact ⟨a', b', executed, least, least.left.coarsens left.separated,
    least.right.coarsens right.separated, again, exchanged⟩

/-- The first round joins two intervals on either side, and the second round none. -/
theorem bridgeBoth_least_firstRound :
    isSeparated [⟨1, 2⟩, ⟨4, 5⟩, ⟨8, 900⟩] = true ∧
      isSeparated [⟨0, 1⟩, ⟨4, 6⟩, ⟨40, 41⟩] = true ∧
      bridgeBoth [⟨1, 2⟩, ⟨4, 5⟩, ⟨8, 900⟩] [⟨0, 1⟩, ⟨4, 6⟩, ⟨40, 41⟩] =
        .ok ([⟨1, 5⟩, ⟨8, 900⟩], [⟨0, 6⟩, ⟨40, 41⟩]) ∧
      LeastSettled [⟨1, 2⟩, ⟨4, 5⟩, ⟨8, 900⟩] [⟨0, 1⟩, ⟨4, 6⟩, ⟨40, 41⟩]
        [⟨1, 5⟩, ⟨8, 900⟩] [⟨0, 6⟩, ⟨40, 41⟩] ∧
      bridgeBoth [⟨0, 1⟩, ⟨4, 6⟩, ⟨40, 41⟩] [⟨1, 2⟩, ⟨4, 5⟩, ⟨8, 900⟩] =
        .ok ([⟨0, 6⟩, ⟨40, 41⟩], [⟨1, 5⟩, ⟨8, 900⟩]) := by
  have answer : bridgeBoth [⟨1, 2⟩, ⟨4, 5⟩, ⟨8, 900⟩] [⟨0, 1⟩, ⟨4, 6⟩, ⟨40, 41⟩] =
      .ok ([⟨1, 5⟩, ⟨8, 900⟩], [⟨0, 6⟩, ⟨40, 41⟩]) := by cbv
  obtain ⟨a', b', executed, least, _, _, _, exchanged⟩ := bridgeBoth_least
    (a := [⟨1, 2⟩, ⟨4, 5⟩, ⟨8, 900⟩]) (b := [⟨0, 1⟩, ⟨4, 6⟩, ⟨40, 41⟩]) rfl rfl (by decide)
    (by decide) (by decide) (by decide)
  cases executed.symm.trans answer
  exact ⟨rfl, rfl, answer, least, exchanged⟩

/-- All pairs of intervals give the same sums before and after bridging, and the same
    differences. -/
theorem bridgeBoth_keeps_results (aSeparated : isSeparated a = true)
    (bSeparated : isSeparated b = true) (aBound : ∀ r ∈ a, r.hi ≤ maxValue)
    (bBound : ∀ r ∈ b, r.hi ≤ maxValue) :
    ∃ a' b', bridgeBoth a b = .ok (a', b') ∧
      (∃ d, IntervalRule.sum.combine a' b' = .ok d ∧ IntervalRule.sum.combine a b = .ok d ∧
        d.Denotes fun w => w ≤ maxValue ∧ Combines (fun x y => x + y = w) a b) ∧
      ∃ d, IntervalRule.difference.combine a' b' = .ok d ∧
        IntervalRule.difference.combine a b = .ok d ∧
        d.Denotes fun w => Combines (fun x y => x = w + y) a b := by
  have left := proper_of_isSeparated aSeparated aBound
  have right := proper_of_isSeparated bSeparated bBound
  obtain ⟨⟨a', b'⟩, executed, _⟩ := bridgeBoth_combines left right
  have sums := IntervalRule.combine_bridgeBoth left right slides_sum slides_flip_sum
    IntervalRule.sum_answers executed
  obtain ⟨d, bridged, plain, denotes⟩ := IntervalRule.combine_bridgeBoth left right
    slides_difference slides_flip_difference IntervalRule.difference_answers executed
  exact ⟨a', b', executed, sums, d, bridged, plain, denotes.congr fun w => and_iff_right trivial⟩

/-- Two rounds join all intervals of the left side. Sums beyond `maxValue` and negative differences
    are left out before and after. -/
theorem bridgeBoth_keeps_results_atLimits :
    isSeparated [⟨1, 2⟩, ⟨4, 5⟩, ⟨8, 900⟩] = true ∧
      isSeparated [⟨0, 1⟩, ⟨4, 6⟩, ⟨99999990, 100000000⟩] = true ∧
      bridgeBoth [⟨1, 2⟩, ⟨4, 5⟩, ⟨8, 900⟩] [⟨0, 1⟩, ⟨4, 6⟩, ⟨99999990, 100000000⟩] =
        .ok ([⟨1, 900⟩], [⟨0, 6⟩, ⟨99999990, 100000000⟩]) ∧
      (∃ d,
        IntervalRule.sum.combine [⟨1, 900⟩] [⟨0, 6⟩, ⟨99999990, 100000000⟩] = .ok d ∧
        IntervalRule.sum.combine [⟨1, 2⟩, ⟨4, 5⟩, ⟨8, 900⟩]
          [⟨0, 1⟩, ⟨4, 6⟩, ⟨99999990, 100000000⟩] = .ok d) ∧
      ∃ d,
        IntervalRule.difference.combine [⟨1, 900⟩] [⟨0, 6⟩, ⟨99999990, 100000000⟩] = .ok d ∧
        IntervalRule.difference.combine [⟨1, 2⟩, ⟨4, 5⟩, ⟨8, 900⟩]
          [⟨0, 1⟩, ⟨4, 6⟩, ⟨99999990, 100000000⟩] = .ok d := by
  have answer : bridgeBoth [⟨1, 2⟩, ⟨4, 5⟩, ⟨8, 900⟩] [⟨0, 1⟩, ⟨4, 6⟩, ⟨99999990, 100000000⟩] =
      .ok ([⟨1, 900⟩], [⟨0, 6⟩, ⟨99999990, 100000000⟩]) := by cbv
  obtain ⟨a', b', executed, ⟨d, bridged, plain, _⟩, e, bridged', plain', _⟩ :=
    bridgeBoth_keeps_results (a := [⟨1, 2⟩, ⟨4, 5⟩, ⟨8, 900⟩])
      (b := [⟨0, 1⟩, ⟨4, 6⟩, ⟨99999990, 100000000⟩]) rfl rfl (by decide) (by decide)
  cases executed.symm.trans answer
  exact ⟨rfl, rfl, answer, ⟨d, bridged, plain⟩, e, bridged', plain'⟩

end IntegerDomains.Intervals

import IntegerDomains.Arithmetic.Pairwise
import IntegerDomains.Proofs.Denotation
import IntegerDomains.Proofs.Gaps

namespace IntegerDomains

open Intervals

namespace IntervalRule

/-- For two intervals the rule answers exactly the values with the property, none of which a
    domain cannot hold. -/
def Answers (rule : IntervalRule) (r s : Interval) (P : Nat → Prop) : Prop :=
  ∃ found, rule r s = .ok found ∧ (∀ p, found = some p → p.lo ≤ p.hi ∧ p.hi ≤ maxValue) ∧
    ∀ w, (∃ p, found = some p ∧ w ∈ p) ↔ P w

private theorem pieces_total {rule : IntervalRule} {a b : List Interval}
    (each : ∀ r ∈ a, ∀ s ∈ b, ∃ found, rule r s = .ok found) :
    ∃ pieces, rule.pieces a b = .ok pieces ∧
      ∀ p, p ∈ pieces ↔ ∃ r ∈ a, ∃ s ∈ b, rule r s = .ok (some p) := by
  have pairs : ∀ pair : Interval × Interval,
      pair ∈ a.flatMap (fun r => b.map (r, ·)) ↔ pair.1 ∈ a ∧ pair.2 ∈ b := by
    rintro ⟨r, s⟩
    simp [List.mem_flatMap]
  obtain ⟨found, executed, results⟩ :=
    mapM_total (f := fun pair : Interval × Interval => rule pair.1 pair.2)
      fun pair member => each pair.1 ((pairs pair).mp member).1 pair.2 ((pairs pair).mp member).2
  refine ⟨found.filterMap id, by rw [pieces, executed]; rfl, fun p => ?_⟩
  simp only [List.mem_filterMap, id_eq, exists_eq_right, results, pairs]
  constructor
  · rintro ⟨⟨r, s⟩, ⟨left, right⟩, answered⟩
    exact ⟨r, left, s, right, answered⟩
  · rintro ⟨r, left, s, right, answered⟩
    exact ⟨(r, s), ⟨left, right⟩, answered⟩

/-- The union of the answers for all pairs. -/
theorem combine_denotes {rule : IntervalRule} {a b : List Interval}
    {P : Interval → Interval → Nat → Prop}
    (answers : ∀ r ∈ a, ∀ s ∈ b, rule.Answers r s (P r s)) :
    ∃ d, rule.combine a b = .ok d ∧ d.Denotes fun w => ∃ r ∈ a, ∃ s ∈ b, P r s w := by
  obtain ⟨pieces, executed, results⟩ := pieces_total fun r left s right => by
    obtain ⟨found, answered, _⟩ := answers r left s right
    exact ⟨found, answered⟩
  have proper : ∀ p ∈ pieces, p.lo ≤ p.hi ∧ p.hi ≤ maxValue := by
    intro p member
    obtain ⟨r, left, s, right, answered⟩ := (results p).mp member
    obtain ⟨found, executed, proper, _⟩ := answers r left s right
    rw [answered, Except.ok.injEq] at executed
    exact proper p executed.symm
  obtain ⟨d, built, denotes⟩ := Domain.ofIntervals_denotes proper
  refine ⟨d, by rw [combine, executed]; exact built, denotes.congr fun w => ?_⟩
  constructor
  · rintro ⟨p, member, inside⟩
    obtain ⟨r, left, s, right, answered⟩ := (results p).mp member
    obtain ⟨found, executed, _, exact⟩ := answers r left s right
    rw [answered, Except.ok.injEq] at executed
    exact ⟨r, left, s, right, (exact w).mp ⟨p, executed.symm, inside⟩⟩
  · rintro ⟨r, left, s, right, holds⟩
    obtain ⟨found, executed, _, exact⟩ := answers r left s right
    obtain ⟨p, rfl, inside⟩ := (exact w).mpr holds
    exact ⟨p, (results p).mpr ⟨r, left, s, right, executed⟩, inside⟩

/-- If a rule answers what a relation makes of the members of two intervals, all pairs together
    answer what it makes of the values of two sequences. -/
theorem combine_relation_denotes {rule : IntervalRule} {a b : List Interval}
    {R : Nat → Nat → Nat → Prop} {P : Nat → Prop}
    (answers : ∀ r ∈ a, ∀ s ∈ b, rule.Answers r s fun w => P w ∧ ∃ x ∈ r, ∃ y ∈ s, R w x y) :
    ∃ d, rule.combine a b = .ok d ∧ d.Denotes fun w => P w ∧ Combines (R w) a b := by
  obtain ⟨d, executed, denotes⟩ := combine_denotes answers
  refine ⟨d, executed, denotes.congr fun w => ?_⟩
  constructor
  · rintro ⟨r, left, s, right, holds, x, inLeft, y, inRight, related⟩
    exact ⟨holds, x, y, ⟨r, left, inLeft⟩, ⟨s, right, inRight⟩, related⟩
  · rintro ⟨holds, x, y, ⟨r, left, inLeft⟩, ⟨s, right, inRight⟩, related⟩
    exact ⟨r, left, s, right, holds, x, inLeft, y, inRight, related⟩

/-- If the relation slides, all pairs answer the same before and after both sequences
    are bridged. -/
theorem combine_bridgeBoth {rule : IntervalRule} {R : Nat → Nat → Nat → Prop} {P : Nat → Prop}
    {a b : List Interval} {bridged : List Interval × List Interval} (left : Proper a)
    (right : Proper b) (slides : ∀ w, Slides (R w)) (flipSlides : ∀ w, Slides (flip (R w)))
    (answers : ∀ {r s : Interval}, r.lo ≤ r.hi ∧ r.hi ≤ maxValue → s.lo ≤ s.hi ∧ s.hi ≤ maxValue →
      rule.Answers r s fun w => P w ∧ ∃ x ∈ r, ∃ y ∈ s, R w x y)
    (executed : bridgeBoth a b = .ok bridged) :
    ∃ d, rule.combine bridged.1 bridged.2 = .ok d ∧ rule.combine a b = .ok d ∧
      d.Denotes fun w => P w ∧ Combines (R w) a b := by
  obtain ⟨settled, executed', leftProper, rightProper, same⟩ := bridgeBoth_combines left right
  cases executed.symm.trans executed'
  obtain ⟨d, plain, denotes⟩ := combine_relation_denotes (a := a) (b := b)
    fun r inLeft s inRight => answers (left.mem inLeft) (right.mem inRight)
  obtain ⟨e, combined, denotes'⟩ := combine_relation_denotes (a := bridged.1) (b := bridged.2)
    fun r inLeft s inRight => answers (leftProper.mem inLeft) (rightProper.mem inRight)
  have unchanged : e.Denotes fun w => P w ∧ Combines (R w) a b :=
    denotes'.congr fun w => and_congr_right fun _ => same _ (slides w) (flipSlides w)
  obtain rfl := unchanged.eq denotes
  exact ⟨e, combined, plain, unchanged⟩

end IntervalRule

namespace Domain

/-- The runs of a well-formed domain are a proper sequence of its members. -/
theorem Valid.toIntervals_proper {d : Domain} (valid : d.Valid) :
    ∃ s, d.toIntervals = .ok s ∧ Proper s ∧ ∀ v, Covers s v ↔ v ∈ d := by
  obtain ⟨s, executed, separated, covers⟩ := valid.toIntervals_covers
  exact ⟨s, executed, ⟨separated, fun v covered => valid.le_maxValue ((covers v).mp covered)⟩,
    covers⟩

theorem Valid.runs_proper {d : Domain} (valid : d.Valid) {s : List Interval}
    (executed : d.toIntervals = .ok s) : Proper s ∧ ∀ v, Covers s v ↔ v ∈ d := by
  obtain ⟨t, same, proper, covers⟩ := valid.toIntervals_proper
  cases executed.symm.trans same
  exact ⟨proper, covers⟩

/-- A relation between the members of two domains is one between the values of their runs. -/
private theorem combines_iff {R : Nat → Nat → Prop} {d e : Domain} {a b : List Interval}
    (left : ∀ v, Covers a v ↔ v ∈ d) (right : ∀ v, Covers b v ↔ v ∈ e) :
    Combines R a b ↔ ∃ x ∈ d, ∃ y ∈ e, R x y := by
  constructor
  · rintro ⟨x, y, inLeft, inRight, related⟩
    exact ⟨x, (left x).mp inLeft, y, (right y).mp inRight, related⟩
  · rintro ⟨x, inLeft, y, inRight, related⟩
    exact ⟨x, y, (left x).mpr inLeft, (right y).mpr inRight, related⟩

/-- Bridging the gaps of both operands first changes nothing for a relation that slides. -/
theorem combineBridged_denotes {rule : IntervalRule} {R : Nat → Nat → Nat → Prop}
    {P : Nat → Prop} {d e : Domain} (dValid : d.Valid) (eValid : e.Valid)
    (slides : ∀ w, Slides (R w)) (flipSlides : ∀ w, Slides (flip (R w)))
    (answers : ∀ {r s : Interval}, r.lo ≤ r.hi ∧ r.hi ≤ maxValue → s.lo ≤ s.hi ∧ s.hi ≤ maxValue →
      rule.Answers r s fun w => P w ∧ ∃ x ∈ r, ∃ y ∈ s, R w x y) :
    ∃ r, (do
        let (a, b) ← Intervals.bridgeBoth (← d.copyIntervals) (← e.copyIntervals)
        rule.combine a b) = .ok r ∧
      r.Denotes fun w => P w ∧ ∃ x ∈ d, ∃ y ∈ e, R w x y := by
  obtain ⟨a, left, aProper, aCovers⟩ := dValid.toIntervals_proper
  obtain ⟨b, right, bProper, bCovers⟩ := eValid.toIntervals_proper
  obtain ⟨bridged, executed, _⟩ := bridgeBoth_combines aProper bProper
  obtain ⟨r, combined, _, denotes⟩ := IntervalRule.combine_bridgeBoth aProper bProper slides
    flipSlides answers executed
  refine ⟨r, ?_, denotes.congr fun w => and_congr_right fun _ => combines_iff aCovers bCovers⟩
  rw [copyIntervals_eq, copyIntervals_eq, left, right]
  simp only [bind, Except.bind, executed]
  exact combined

/-- The domain is stored as the mask, or as a single value whose bit is the mask. -/
inductive HasMask : Domain → Mask → Prop
  | mask (m : Mask) : HasMask (.mask m) m
  | single {v : Nat} (small : v ≤ maskMax) : HasMask (.single v) (Mask.bit v)

/-- These domains are combined by their masks, and no others. -/
theorem asMask?_eq_some_iff {d : Domain} {m : Mask} : d.asMask? = some m ↔ d.HasMask m := by
  constructor
  · intro small
    cases d with
    | empty => simp [asMask?] at small
    | single v =>
      rw [asMask?, Option.ite_none_right_eq_some] at small
      obtain ⟨bound, equal⟩ := small
      obtain rfl := Option.some.inj equal
      exact .single bound
    | mask n =>
      obtain rfl := Option.some.inj small
      exact .mask n
    | intervals s => simp [asMask?] at small
  · intro has
    cases has with
    | mask => rfl
    | single bound => exact if_pos bound

/-- The mask of a small domain holds its members. -/
theorem Valid.asMask?_bits {d : Domain} (valid : d.Valid) {m : Mask} (small : d.asMask? = some m) :
    m.Fits ∧ ∀ v, m.getLsbD v = true ↔ v ∈ d := by
  cases asMask?_eq_some_iff.mp small with
  | mask => exact ⟨valid.1, fun v => Iff.rfl⟩
  | @single v bound =>
    have bits : ∀ w, (Mask.bit v).getLsbD w = true ↔ w = v := fun w => by
      rw [Mask.getLsbD_bit, Bool.and_eq_true, decide_eq_true_eq, decide_eq_true_eq]
      simp only [maskMax] at bound
      omega
    exact ⟨fun w set => by rw [(bits w).mp set]; exact bound, bits⟩

private theorem Valid.asMask?_ne_zero {d : Domain} (valid : d.Valid) {m : Mask}
    (small : d.asMask? = some m) : m ≠ 0#32 := by
  obtain ⟨v, member⟩ := valid.exists_mem (by rintro rfl; simp [asMask?] at small)
  exact Mask.ne_zero_of_bit (((valid.asMask?_bits small).2 v).mpr member)

theorem Valid.asMask?_greatest {d : Domain} (valid : d.Valid) {m : Mask}
    (small : d.asMask? = some m) : m.greatest = .ok m.highest :=
  Mask.greatest_eq_ok (valid.asMask?_ne_zero small)

end Domain

end IntegerDomains

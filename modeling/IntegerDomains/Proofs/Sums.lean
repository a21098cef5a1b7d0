import IntegerDomains.Arithmetic.Sum
import IntegerDomains.Proofs.Combination

namespace IntegerDomains

open Intervals

/-- A summand inside a gap may give to the other one, or take from it, what lies between it
    and an edge. -/
theorem slides_sum (w : Nat) : Slides fun x y => x + y = w := by
  intro x y p q s sum after before inside width
  rw [Interval.mem_iff] at inside
  by_cases up : y + (x - p) ≤ s.hi
  · exact ⟨y + (x - p), ⟨by omega, up⟩, .inl (by omega)⟩
  · exact ⟨y - (q - x), ⟨by omega, by omega⟩, .inr (by omega)⟩

theorem slides_flip_sum (w : Nat) : Slides (flip fun x y => x + y = w) := by
  have symmetric : flip (fun x y => x + y = w) = fun x y => x + y = w := by
    funext x y
    exact propext (by rw [flip, Nat.add_comm])
  rw [symmetric]
  exact @slides_sum w

/-- Two intervals answer their sums up to `maxValue`. -/
theorem IntervalRule.sum_answers {r s : Interval} (left : r.lo ≤ r.hi ∧ r.hi ≤ maxValue)
    (right : s.lo ≤ s.hi ∧ s.hi ≤ maxValue) :
    IntervalRule.sum.Answers r s fun w => w ≤ maxValue ∧ ∃ x ∈ r, ∃ y ∈ s, x + y = w := by
  have twice : maxValue + maxValue ≤ wordMax := by decide
  have lower : Word.add r.lo s.lo = .ok (r.lo + s.lo) := Word.add_eq_ok (by omega)
  have upper : Word.add r.hi s.hi = .ok (r.hi + s.hi) := Word.add_eq_ok (by omega)
  rw [Answers, sum, lower]
  simp only [bind, Except.bind, upper]
  split
  · next beyond =>
    refine ⟨none, rfl, by simp, fun w => iff_of_false (by simp) ?_⟩
    rintro ⟨bound, x, inLeft, y, inRight, rfl⟩
    rw [Interval.mem_iff] at inLeft inRight
    omega
  · next within =>
    refine ⟨some ⟨r.lo + s.lo, min (r.hi + s.hi) maxValue⟩, rfl, ?_, fun w => ?_⟩
    · rintro p equal
      obtain rfl := Option.some.inj equal
      simp only
      omega
    · simp only [Option.some.injEq, exists_eq_left', Interval.mem_iff]
      constructor
      · rintro ⟨start, stop⟩
        -- The left summand takes what exceeds the smallest right one, as far as it can.
        exact ⟨by omega, min (w - s.lo) r.hi, by omega, w - min (w - s.lo) r.hi, by omega,
          by omega⟩
      · rintro ⟨bound, x, inLeft, y, inRight, rfl⟩
        omega

namespace Domain

theorem sumByIntervals_denotes {d e : Domain} (dValid : d.Valid) (eValid : e.Valid) :
    ∃ r, sumByIntervals d e = .ok r ∧
      r.Denotes fun w => w ≤ maxValue ∧ ∃ x ∈ d, ∃ y ∈ e, x + y = w :=
  combineBridged_denotes dValid eValid slides_sum slides_flip_sum IntervalRule.sum_answers

/-- Where the largest sum fits a mask, all sums do. -/
theorem ofMask_sums_denotes {d e : Domain} (dValid : d.Valid) (eValid : e.Valid) {a b : Mask}
    (left : d.asMask? = some a) (right : e.asMask? = some b)
    (small : a.highest + b.highest ≤ maskMax) :
    ∃ r, ofMask (a.sums b) = .ok r ∧
      r.Denotes fun w => w ≤ maxValue ∧ ∃ x ∈ d, ∃ y ∈ e, x + y = w := by
  obtain ⟨_, aBits⟩ := dValid.asMask?_bits left
  obtain ⟨_, bBits⟩ := eValid.asMask?_bits right
  have bounded : ∀ {x y}, a.getLsbD x = true → b.getLsbD y = true → x + y ≤ maskMax :=
    fun inLeft inRight => Mask.add_le_of_highest small inLeft inRight
  have fits : (a.sums b).Fits := fun w set => by
    obtain ⟨_, x, y, inLeft, inRight, rfl⟩ := Mask.getLsbD_sums.mp set
    exact bounded inLeft inRight
  obtain ⟨r, executed, denotes⟩ := ofMask_denotes fits
  refine ⟨r, executed, denotes.congr fun w => ?_⟩
  rw [Mask.getLsbD_sums]
  constructor
  · rintro ⟨inWord, x, y, inLeft, inRight, sum⟩
    exact ⟨by simp only [maxValue]; omega, x, (aBits x).mp inLeft, y, (bBits y).mp inRight, sum⟩
  · rintro ⟨_, x, inLeft, y, inRight, sum⟩
    have bound := bounded ((aBits x).mpr inLeft) ((bBits y).mpr inRight)
    simp only [maskMax] at bound
    exact ⟨by omega, x, y, (aBits x).mpr inLeft, (bBits y).mpr inRight, sum⟩

/-- Masks are used only where every sum fits one. -/
private theorem sumByMasks?_denotes {d e : Domain} (dValid : d.Valid) (eValid : e.Valid) :
    ∃ found, sumByMasks? d e = .ok found ∧ ∀ r, found = some r →
      r.Denotes fun w => w ≤ maxValue ∧ ∃ x ∈ d, ∃ y ∈ e, x + y = w := by
  rw [sumByMasks?]
  split
  · next a b left right =>
    rw [dValid.asMask?_greatest left, eValid.asMask?_greatest right]
    simp only [bind, Except.bind]
    split
    · next small =>
      obtain ⟨r, executed, denotes⟩ := ofMask_sums_denotes dValid eValid left right small
      refine ⟨some r, by rw [executed]; rfl, fun r' equal => ?_⟩
      obtain rfl := Option.some.inj equal
      exact denotes
    · exact ⟨none, rfl, by simp⟩
  · exact ⟨none, rfl, by simp⟩

theorem add_denotes {d e : Domain} (dValid : d.Valid) (eValid : e.Valid) :
    ∃ r, d.add e = .ok r ∧
      r.Denotes fun w => w ≤ maxValue ∧ ∃ x ∈ d, ∃ y ∈ e, x + y = w := by
  refine checkBinary_denotes dValid eValid ?_
  rw [sums]
  split
  · next nothing =>
    rw [Bool.or_eq_true, isEmpty_iff, isEmpty_iff] at nothing
    refine ⟨.empty, rfl, denotes_empty fun w => ?_⟩
    rintro ⟨_, x, inLeft, y, inRight, _⟩
    rcases nothing with rfl | rfl
    · exact mem_empty.mp inLeft
    · exact mem_empty.mp inRight
  · obtain ⟨found, executed, denotes⟩ := sumByMasks?_denotes dValid eValid
    rw [executed]
    cases found with
    | some small => exact ⟨small, rfl, denotes small rfl⟩
    | none => exact sumByIntervals_denotes dValid eValid

/-- The sum of two well-formed domains is well formed, and its members are the sums of their members
    that a domain may hold. -/
theorem mem_add_iff {d e : Domain} (dValid : d.validate = .ok ()) (eValid : e.validate = .ok ()) :
    ∃ r, d.add e = .ok r ∧ r.validate = .ok () ∧
      ∀ w, w ∈ r ↔ w ≤ maxValue ∧ ∃ x ∈ d, ∃ y ∈ e, x + y = w := by
  obtain ⟨r, executed, denotes⟩ :=
    add_denotes (validate_eq_ok_iff.mp dValid) (validate_eq_ok_iff.mp eValid)
  exact ⟨r, executed, validate_eq_ok_iff.mpr denotes.valid, denotes.mem_iff⟩

/-- A mask and intervals whose gaps are bridged, with sums beyond `maxValue`. -/
theorem mem_add_iff_mask_intervals :
    (Domain.mask 27#32).validate = .ok () ∧
      (Domain.intervals [⟨7, 9⟩, ⟨11, 12⟩, ⟨99999995, 100000000⟩]).validate = .ok () ∧
      ∃ r, (Domain.mask 27#32).add (.intervals [⟨7, 9⟩, ⟨11, 12⟩, ⟨99999995, 100000000⟩]) = .ok r ∧
        r.validate = .ok () ∧ ∀ w, w ∈ r ↔ w ≤ maxValue ∧ ∃ x ∈ Domain.mask 27#32,
          ∃ y ∈ Domain.intervals [⟨7, 9⟩, ⟨11, 12⟩, ⟨99999995, 100000000⟩], x + y = w :=
  ⟨rfl, rfl, mem_add_iff rfl rfl⟩

end Domain

end IntegerDomains

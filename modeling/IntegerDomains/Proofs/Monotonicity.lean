import IntegerDomains.Proofs.Differences
import IntegerDomains.Proofs.MaximalRuns
import IntegerDomains.Proofs.Products
import IntegerDomains.Proofs.Quotients
import IntegerDomains.Proofs.Sums

/-!
A factor that is zero alone leaves the cofactor open, while the same zero in a longer run does not.
So cofactors are monotone only where zero is not a run of its own.
-/

namespace IntegerDomains

open Intervals

namespace Intervals

variable {a a' b b' : List Interval} {w : Nat}

private theorem products_mono (left : Refines a a') (right : Refines b b')
    (within : ∃ p ∈ a, ∃ q ∈ b,
      min (p.lo * q.lo) maxValue ≤ w ∧ w ≤ min (p.hi * q.hi) maxValue) :
    ∃ p ∈ a', ∃ q ∈ b', min (p.lo * q.lo) maxValue ≤ w ∧ w ≤ min (p.hi * q.hi) maxValue := by
  obtain ⟨p, inLeft, q, inRight, start, stop⟩ := within
  obtain ⟨u, inLeft', uStart, uStop⟩ := left p inLeft
  obtain ⟨v, inRight', vStart, vStop⟩ := right q inRight
  have lower : u.lo * v.lo ≤ p.lo * q.lo := Nat.mul_le_mul uStart vStart
  have upper : p.hi * q.hi ≤ u.hi * v.hi := Nat.mul_le_mul uStop vStop
  exact ⟨u, inLeft', v, inRight', by omega, by omega⟩

private theorem quotients_mono (proper : Proper a) (proper' : Proper a') (left : Refines a a')
    (right : Refines b b') (covered : Covers (quotients false a b) w) :
    Covers (quotients false a' b') w := by
  rw [covers_quotients_iff proper] at covered
  rw [covers_quotients_iff proper']
  obtain ⟨bound, p, inLeft, q, inRight, nonzero, reaches, stays⟩ := covered
  obtain ⟨u, inLeft', uStart, uStop⟩ := left p inLeft
  obtain ⟨v, inRight', vStart, vStop⟩ := right q inRight
  have lower : w * v.lo ≤ w * q.lo := Nat.mul_le_mul_left w vStart
  have upper : w * q.hi ≤ w * v.hi := Nat.mul_le_mul_left w vStop
  exact ⟨bound, u, inLeft', v, inRight', by omega, by omega, by omega⟩

end Intervals

namespace Domain

/-- Both computations answer a domain, and the second answer includes the first. -/
def AnswersWithin (small large : Except Fault Domain) : Prop :=
  ∃ r s, small = .ok r ∧ large = .ok s ∧ r ⊆ s

private theorem AnswersWithin.of_denotes {small large : Except Fault Domain} {P Q : Nat → Prop}
    (inner : ∃ r, small = .ok r ∧ r.Denotes P) (outer : ∃ s, large = .ok s ∧ s.Denotes Q)
    (implies : ∀ v, P v → Q v) : AnswersWithin small large := by
  obtain ⟨r, executed, denotes⟩ := inner
  obtain ⟨s, executed', denotes'⟩ := outer
  refine ⟨r, s, executed, executed', ?_⟩
  intro v member
  exact (denotes'.mem_iff v).mpr (implies v ((denotes.mem_iff v).mp member))

private theorem Valid.runs_refine {d e : Domain} (dValid : d.Valid) (eValid : e.Valid)
    (subset : d ⊆ e)
    {s t : List Interval} (left : d.toIntervals = .ok s) (right : e.toIntervals = .ok t) :
    Refines s t := by
  obtain ⟨sProper, sCovers⟩ := dValid.runs_proper left
  obtain ⟨tProper, tCovers⟩ := eValid.runs_proper right
  apply refines_of_covers sProper.separated tProper.separated
  intro v covered
  exact (tCovers v).mpr (subset v ((sCovers v).mp covered))

section Operations

variable {d₁ d₂ e₁ e₂ : Domain} (dValid₁ : d₁.Valid) (dValid₂ : d₂.Valid) (eValid₁ : e₁.Valid)
  (eValid₂ : e₂.Valid) (left : d₁ ⊆ d₂) (right : e₁ ⊆ e₂)
include dValid₁ dValid₂ eValid₁ eValid₂ left right

theorem add_mono : AnswersWithin (d₁.add e₁) (d₂.add e₂) := by
  apply AnswersWithin.of_denotes (add_denotes dValid₁ eValid₁) (add_denotes dValid₂ eValid₂)
  rintro w ⟨bound, x, inLeft, y, inRight, sum⟩
  exact ⟨bound, x, left x inLeft, y, right y inRight, sum⟩

/-- Where both smaller operands hold zero, so do the larger ones, for which everything up to their
    largest member is answered too. -/
theorem sub_mono : AnswersWithin (d₁.sub e₁) (d₂.sub e₂) := by
  apply AnswersWithin.of_denotes (sub_denotes dValid₁ eValid₁) (sub_denotes dValid₂ eValid₂)
  rintro w (⟨dZero, eZero, x, inLeft, bound⟩ | ⟨x, inLeft, y, inRight, difference⟩)
  · exact .inl ⟨left 0 dZero, right 0 eZero, x, left x inLeft, bound⟩
  · exact .inr ⟨x, left x inLeft, y, right y inRight, difference⟩

/-- What is described by the runs of both operands grows with the operands, if it does
    with the runs. -/
private theorem answersWithin_of_runs {small large : Except Fault Domain}
    {P : List Interval → List Interval → Nat → Prop}
    (inner : ∃ a b, d₁.toIntervals = .ok a ∧ e₁.toIntervals = .ok b ∧
      ∃ r, small = .ok r ∧ r.Denotes (P a b))
    (outer : ∃ a b, d₂.toIntervals = .ok a ∧ e₂.toIntervals = .ok b ∧
      ∃ s, large = .ok s ∧ s.Denotes (P a b))
    (mono : ∀ {a a' b b'}, Proper a → Proper a' → e₁.toIntervals = .ok b → Refines a a' →
      Refines b b' → ∀ w, P a b w → P a' b' w) :
    AnswersWithin small large := by
  obtain ⟨a, b, aRuns, bRuns, inner⟩ := inner
  obtain ⟨a', b', aRuns', bRuns', outer⟩ := outer
  have aRefines := dValid₁.runs_refine dValid₂ left aRuns aRuns'
  have bRefines := eValid₁.runs_refine eValid₂ right bRuns bRuns'
  have aProper := (dValid₁.runs_proper aRuns).1
  have aProper' := (dValid₂.runs_proper aRuns').1
  exact AnswersWithin.of_denotes inner outer (mono aProper aProper' bRuns aRefines bRefines)

theorem mul_mono : AnswersWithin (d₁.mul e₁) (d₂.mul e₂) := by
  apply answersWithin_of_runs dValid₁ dValid₂ eValid₁ eValid₂ left right
    (mul_denotes dValid₁ eValid₁) (mul_denotes dValid₂ eValid₂)
  intro a a' b b' _ _ _ aRefines bRefines w
  exact products_mono aRefines bRefines

theorem div_mono : AnswersWithin (d₁.div e₁ false) (d₂.div e₂ false) := by
  apply answersWithin_of_runs dValid₁ dValid₂ eValid₁ eValid₂ left right
    (div_denotes dValid₁ eValid₁ false) (div_denotes dValid₂ eValid₂ false)
  intro a a' b b' aProper aProper' _ aRefines bRefines w
  exact quotients_mono aProper aProper' aRefines bRefines

/-- The cofactors of the smaller operands are quotients, and quotients are cofactors always. -/
theorem cofactor_mono (accompanied : 0 ∈ e₁ → 1 ∈ e₁) :
    AnswersWithin (d₁.cofactor e₁) (d₂.cofactor e₂) := by
  apply answersWithin_of_runs dValid₁ dValid₂ eValid₁ eValid₂ left right
    (cofactor_denotes dValid₁ eValid₁) (cofactor_denotes dValid₂ eValid₂)
  intro a a' b b' aProper aProper' bRuns aRefines bRefines w covered
  have nonzero := eValid₁.run_hi_ne_zero accompanied bRuns
  have quotient := (covers_cofactors_iff_quotients aProper nonzero).mp covered
  have larger := quotients_mono aProper aProper' aRefines bRefines quotient
  exact covers_cofactors_of_quotients aProper' larger

end Operations

/-- Each operation of arithmetic answers for smaller operands no more than for larger ones: division
    as long as it does not floor, and the cofactor unless zero is a factor without one. -/
theorem arithmetic_mono {d₁ d₂ e₁ e₂ : Domain} (dValid₁ : d₁.validate = .ok ())
    (dValid₂ : d₂.validate = .ok ()) (eValid₁ : e₁.validate = .ok ())
    (eValid₂ : e₂.validate = .ok ()) (left : d₁ ⊆ d₂) (right : e₁ ⊆ e₂) :
    AnswersWithin (d₁.add e₁) (d₂.add e₂) ∧
      AnswersWithin (d₁.sub e₁) (d₂.sub e₂) ∧
      AnswersWithin (d₁.mul e₁) (d₂.mul e₂) ∧
      AnswersWithin (d₁.div e₁ false) (d₂.div e₂ false) ∧
      (¬(0 ∈ e₁ ∧ 1 ∉ e₁) → AnswersWithin (d₁.cofactor e₁) (d₂.cofactor e₂)) := by
  rw [validate_eq_ok_iff] at dValid₁ dValid₂ eValid₁ eValid₂
  refine ⟨add_mono dValid₁ dValid₂ eValid₁ eValid₂ left right,
    sub_mono dValid₁ dValid₂ eValid₁ eValid₂ left right,
    mul_mono dValid₁ dValid₂ eValid₁ eValid₂ left right,
    div_mono dValid₁ dValid₂ eValid₁ eValid₂ left right, ?_⟩
  intro accompanied
  apply cofactor_mono dValid₁ dValid₂ eValid₁ eValid₂ left right
  exact fun zero => Decidable.byContradiction fun alone => accompanied ⟨zero, alone⟩

/-- Operands in two runs each, with zero and one in the first run of the factor. -/
theorem arithmetic_mono_intervals :
    (Domain.intervals [⟨3, 5⟩, ⟨60, 64⟩]).validate = .ok () ∧
      (Domain.intervals [⟨0, 9⟩, ⟨60, 90⟩]).validate = .ok () ∧
      (Domain.intervals [⟨0, 1⟩, ⟨35, 35⟩]).validate = .ok () ∧
      (Domain.intervals [⟨0, 2⟩, ⟨34, 36⟩]).validate = .ok () ∧
      Domain.intervals [⟨3, 5⟩, ⟨60, 64⟩] ⊆ .intervals [⟨0, 9⟩, ⟨60, 90⟩] ∧
      Domain.intervals [⟨0, 1⟩, ⟨35, 35⟩] ⊆ .intervals [⟨0, 2⟩, ⟨34, 36⟩] ∧
      AnswersWithin ((Domain.intervals [⟨3, 5⟩, ⟨60, 64⟩]).sub (.intervals [⟨0, 1⟩, ⟨35, 35⟩]))
        ((Domain.intervals [⟨0, 9⟩, ⟨60, 90⟩]).sub (.intervals [⟨0, 2⟩, ⟨34, 36⟩])) ∧
      AnswersWithin ((Domain.intervals [⟨3, 5⟩, ⟨60, 64⟩]).cofactor (.intervals [⟨0, 1⟩, ⟨35, 35⟩]))
        ((Domain.intervals [⟨0, 9⟩, ⟨60, 90⟩]).cofactor (.intervals [⟨0, 2⟩, ⟨34, 36⟩])) := by
  have left : Refines [⟨3, 5⟩, ⟨60, 64⟩] [⟨0, 9⟩, ⟨60, 90⟩] := by decide
  have right : Refines [⟨0, 1⟩, ⟨35, 35⟩] [⟨0, 2⟩, ⟨34, 36⟩] := by decide
  have leftSubset : Domain.intervals [⟨3, 5⟩, ⟨60, 64⟩] ⊆ .intervals [⟨0, 9⟩, ⟨60, 90⟩] :=
    fun v => left.covers
  have rightSubset : Domain.intervals [⟨0, 1⟩, ⟨35, 35⟩] ⊆ .intervals [⟨0, 2⟩, ⟨34, 36⟩] :=
    fun v => right.covers
  obtain ⟨_, differences, _, _, cofactors⟩ :=
    arithmetic_mono rfl rfl rfl rfl leftSubset rightSubset
  exact ⟨rfl, rfl, rfl, rfl, leftSubset, rightSubset, differences, cofactors (by decide)⟩

end Domain

end IntegerDomains

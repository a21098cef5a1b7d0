import IntegerDomains.Calculator
import IntegerDomains.Proofs.Construction
import IntegerDomains.Proofs.MaximalRuns
import IntegerDomains.Proofs.Quotients

/-!
Flooring acts on pairs of runs and not on members: it adds a value only for two runs between whose
quotients there is no integer. So it keeps the floored quotient of two members unless that falls
below all quotients of their runs, of which there is an integer one.
-/

namespace IntegerDomains

open Intervals

namespace Interval

/-- The value lies between the smallest and the largest rational quotient of the two. -/
def IsQuotient (r divisor : Interval) (q : Nat) : Prop :=
  r.lo ≤ q * divisor.hi ∧ q * divisor.lo ≤ r.hi

/-- Some value that a domain may hold lies there. -/
def HasQuotient (r divisor : Interval) : Prop := ∃ q ≤ maxValue, r.IsQuotient divisor q

/-- What flooring makes of the two: their quotients, or the floor of the largest one if a domain may
    hold none of them. -/
def IsFloored (r divisor : Interval) (q : Nat) : Prop :=
  q ≤ maxValue ∧ r.IsQuotient divisor q ∨ ¬r.HasQuotient divisor ∧ q = r.hi / divisor.lo

instance (r divisor : Interval) (q : Nat) : Decidable (r.IsQuotient divisor q) :=
  inferInstanceAs (Decidable (r.lo ≤ q * divisor.hi ∧ q * divisor.lo ≤ r.hi))

variable {r divisor : Interval} {x y : Nat}

theorem hasQuotient_iff (nonzero : divisor.hi ≠ 0) (bound : r.hi ≤ maxValue) :
    r.HasQuotient divisor ↔ ceilDiv r.lo divisor.hi ≤ divisor.largestQuotient r.hi := by
  have lower : ∀ {q}, ceilDiv r.lo divisor.hi ≤ q ↔ r.lo ≤ q * divisor.hi :=
    ceilDiv_le_iff (Nat.pos_of_ne_zero nonzero)
  constructor
  · rintro ⟨q, small, reaches, stays⟩
    exact Nat.le_trans (lower.mpr reaches) ((le_largestQuotient_iff bound).mpr ⟨small, stays⟩)
  · intro ordered
    obtain ⟨small, stays⟩ := (le_largestQuotient_iff bound).mp ordered
    exact ⟨_, small, lower.mp (Nat.le_refl _), stays⟩

/-- From a divisor that starts with zero the quotients reach as far as a domain does. -/
private theorem lo_pos_of_not_hasQuotient (nonzero : 0 < divisor.hi) (bound : r.lo ≤ maxValue)
    (none : ¬r.HasQuotient divisor) : 0 < divisor.lo := by
  refine Nat.pos_of_ne_zero fun zero => none ⟨r.lo, bound, ?_, ?_⟩
  · exact Nat.le_mul_of_pos_right r.lo nonzero
  · rw [zero, Nat.mul_zero]
    exact Nat.zero_le r.hi

/-- If no integer lies between the smallest and the largest quotient, all have the same floor. -/
private theorem div_eq_of_not_hasQuotient (positive : 0 < divisor.lo) (bound : r.hi ≤ maxValue)
    (none : ¬r.HasQuotient divisor) (inRun : x ∈ r) (inDivisor : y ∈ divisor) :
    x / y = r.hi / divisor.lo := by
  obtain ⟨start, stop⟩ := inRun
  obtain ⟨first, last⟩ := inDivisor
  have small : r.hi / divisor.lo ≤ maxValue :=
    Nat.le_trans (Nat.div_le_self r.hi divisor.lo) bound
  -- With the floor of the largest quotient no divisor reaches the run, or it would be a quotient.
  have below : r.hi / divisor.lo * divisor.hi < r.lo := by
    refine Nat.lt_of_not_le fun reaches => none ⟨_, small, reaches, ?_⟩
    exact Nat.div_mul_le_self r.hi divisor.lo
  apply Nat.le_antisymm
  · exact Nat.div_le_div stop first (Nat.ne_of_gt positive)
  · rw [Nat.le_div_iff_mul_le (by omega)]
    calc
      r.hi / divisor.lo * y ≤ r.hi / divisor.lo * divisor.hi := Nat.mul_le_mul_left _ last
      _ ≤ x := by omega

/-- A floored quotient never exceeds the largest quotient. -/
private theorem isQuotient_div_iff (inRun : x ∈ r) (inDivisor : y ∈ divisor) :
    r.IsQuotient divisor (x / y) ↔ r.lo ≤ x / y * divisor.hi := by
  refine and_iff_left ?_
  calc
    x / y * divisor.lo ≤ x / y * y := Nat.mul_le_mul_left _ inDivisor.1
    _ ≤ x := Nat.div_mul_le_self x y
    _ ≤ r.hi := inRun.2

private theorem isQuotient_div_of_dvd (inRun : x ∈ r) (inDivisor : y ∈ divisor) (divides : y ∣ x) :
    r.IsQuotient divisor (x / y) := by
  rw [isQuotient_div_iff inRun inDivisor]
  calc
    r.lo ≤ x := inRun.1
    _ = x / y * y := (Nat.div_mul_cancel divides).symm
    _ ≤ x / y * divisor.hi := Nat.mul_le_mul_left _ inDivisor.2

/-- Below the smallest quotient a floored quotient is the last integer before the first one. -/
private theorem isQuotient_succ_div (inRun : x ∈ r) (inDivisor : y ∈ divisor) (positive : 0 < y)
    (below : x / y * divisor.hi < r.lo) (has : r.HasQuotient divisor) :
    x / y + 1 ≤ maxValue ∧ r.IsQuotient divisor (x / y + 1) := by
  obtain ⟨q, small, reaches, stays⟩ := has
  -- Any integer quotient lies beyond the floored one, so the next integer does not exceed it.
  have next : x / y + 1 ≤ q := Nat.lt_of_mul_lt_mul_right (Nat.lt_of_lt_of_le below reaches)
  refine ⟨Nat.le_trans next small, ?_, ?_⟩
  · calc
      r.lo ≤ x := inRun.1
      _ ≤ y * (x / y + 1) := Nat.le_of_lt (Nat.lt_mul_div_succ x positive)
      _ = (x / y + 1) * y := Nat.mul_comm _ _
      _ ≤ (x / y + 1) * divisor.hi := Nat.mul_le_mul_left _ inDivisor.2
  · calc
      (x / y + 1) * divisor.lo ≤ q * divisor.lo := Nat.mul_le_mul_right _ next
      _ ≤ r.hi := stays

private theorem quotient?_of_hasQuotient {floor : Bool} (nonzero : divisor.hi ≠ 0)
    (bound : r.hi ≤ maxValue) (has : r.HasQuotient divisor) :
    r.quotient? floor divisor =
      some ⟨ceilDiv r.lo divisor.hi, divisor.largestQuotient r.hi⟩ :=
  if_pos ((hasQuotient_iff nonzero bound).mp has)

private theorem quotient?_of_not_hasQuotient {floor : Bool} (nonzero : divisor.hi ≠ 0)
    (ordered : r.lo ≤ r.hi) (bound : r.hi ≤ maxValue) (none : ¬r.HasQuotient divisor) :
    r.quotient? floor divisor =
      if floor then some (single (r.hi / divisor.lo)) else Option.none := by
  have positive : 0 < divisor.lo :=
    lo_pos_of_not_hasQuotient (Nat.pos_of_ne_zero nonzero) (Nat.le_trans ordered bound) none
  have floored : divisor.largestQuotient r.hi = r.hi / divisor.lo := if_pos positive
  rw [hasQuotient_iff nonzero bound] at none
  rw [← floored]
  exact if_neg none

private theorem mem_quotient?_true_iff (nonzero : divisor.hi ≠ 0) (ordered : r.lo ≤ r.hi)
    (bound : r.hi ≤ maxValue) {w : Nat} :
    (∃ p, r.quotient? true divisor = some p ∧ w ∈ p) ↔ r.IsFloored divisor w := by
  by_cases has : r.HasQuotient divisor
  · have same : r.quotient? true divisor = r.quotient? false divisor := by
      rw [quotient?_of_hasQuotient nonzero bound has, quotient?_of_hasQuotient nonzero bound has]
    rw [same, mem_quotient?_iff nonzero bound, IsFloored, or_iff_left fun added => added.1 has]
    rfl
  · rw [quotient?_of_not_hasQuotient nonzero ordered bound has, if_pos rfl, IsFloored,
      or_iff_right fun quotient => has ⟨w, quotient⟩, and_iff_right has]
    simp only [Option.some.injEq, exists_eq_left', single, mem_iff]
    omega

end Interval

namespace Intervals

variable {s divisors : List Interval} {w : Nat}

theorem covers_quotients_true_iff (proper : Proper s) :
    Covers (quotients true s divisors) w ↔ ∃ r ∈ s, ∃ divisor ∈ divisors,
      divisor.hi ≠ 0 ∧ r.IsFloored divisor w := by
  rw [covers_quotients]
  refine exists_congr fun r => and_congr_right fun inLeft => exists_congr fun divisor =>
    and_congr_right fun _ => and_congr_right fun nonzero => ?_
  obtain ⟨ordered, bound⟩ := proper.mem inLeft
  exact Interval.mem_quotient?_true_iff nonzero ordered bound

end Intervals

namespace Domain

/-- A run of the dividend, and one of the divisor that is not zero alone. -/
structure DivisionPair (d divisor : Domain) (p s : Interval) : Prop where
  dividend : d.IsRun p
  divisor : divisor.IsRun s
  nonzero : 0 < s.hi

variable {d divisor : Domain}

private theorem exists_divisionPair_iff (dValid : d.Valid) (divisorValid : divisor.Valid)
    {a b : List Interval} (left : d.toIntervals = .ok a) (right : divisor.toIntervals = .ok b)
    {P : Interval → Interval → Prop} :
    (∃ p ∈ a, ∃ s ∈ b, s.hi ≠ 0 ∧ P p s) ↔ ∃ p s, DivisionPair d divisor p s ∧ P p s := by
  constructor
  · rintro ⟨p, inLeft, s, inRight, nonzero, holds⟩
    refine ⟨p, s, ⟨?_, ?_, Nat.pos_of_ne_zero nonzero⟩, holds⟩
    · exact (dValid.isRun_iff left).mpr inLeft
    · exact (divisorValid.isRun_iff right).mpr inRight
  · rintro ⟨p, s, pair, holds⟩
    refine ⟨p, ?_, s, ?_, Nat.ne_of_gt pair.nonzero, holds⟩
    · exact (dValid.isRun_iff left).mp pair.dividend
    · exact (divisorValid.isRun_iff right).mp pair.divisor

/-- Every member and every divisor other than zero lie in a pair of runs. -/
private theorem exists_divisionPair (dValid : d.Valid) (divisorValid : divisor.Valid) {x y : Nat}
    (member : x ∈ d) (divides : y ∈ divisor) (positive : 0 < y) :
    ∃ p s, DivisionPair d divisor p s ∧ x ∈ p ∧ y ∈ s := by
  obtain ⟨p, run, inRun⟩ := dValid.mem_iff_exists_isRun.mp member
  obtain ⟨s, run', inRun'⟩ := divisorValid.mem_iff_exists_isRun.mp divides
  exact ⟨p, s, ⟨run, run', Nat.lt_of_lt_of_le positive inRun'.2⟩, inRun, inRun'⟩

theorem div_false_denotes (dValid : d.Valid) (divisorValid : divisor.Valid) :
    ∃ r, d.div divisor false = .ok r ∧ r.Denotes fun q =>
      q ≤ maxValue ∧ ∃ p s, DivisionPair d divisor p s ∧ p.IsQuotient s q := by
  obtain ⟨a, b, left, right, r, executed, denotes⟩ := div_denotes dValid divisorValid false
  refine ⟨r, executed, denotes.congr fun q => ?_⟩
  rw [covers_quotients_iff (dValid.runs_proper left).1]
  exact and_congr_right fun _ => exists_divisionPair_iff dValid divisorValid left right

theorem div_true_denotes (dValid : d.Valid) (divisorValid : divisor.Valid) :
    ∃ r, d.div divisor true = .ok r ∧ r.Denotes fun q =>
      ∃ p s, DivisionPair d divisor p s ∧ p.IsFloored s q := by
  obtain ⟨a, b, left, right, r, executed, denotes⟩ := div_denotes dValid divisorValid true
  refine ⟨r, executed, denotes.congr fun q => ?_⟩
  rw [covers_quotients_true_iff (dValid.runs_proper left).1]
  exact exists_divisionPair_iff dValid divisorValid left right

/-- Of two runs without a quotient all members have the same floored one. -/
private theorem DivisionPair.div_eq {p s : Interval} (pair : DivisionPair d divisor p s)
    (valid : d.Valid) (none : ¬p.HasQuotient s) :
    0 < s.lo ∧ ∀ x ∈ p, ∀ y ∈ s, x / y = p.hi / s.lo := by
  have bound := valid.isRun_le_maxValue pair.dividend
  have positive : 0 < s.lo := Interval.lo_pos_of_not_hasQuotient pair.nonzero
    (Nat.le_trans pair.dividend.ordered bound) none
  refine ⟨positive, ?_⟩
  intro x inRun y inDivisor
  exact Interval.div_eq_of_not_hasQuotient positive bound none inRun inDivisor

/-- Division by one value undoes multiplication by it. -/
theorem divValue_denotes (valid : d.Valid) {v : Nat} (positive : 0 < v) (bound : v ≤ maxValue) :
    ∃ r, d.divValue v = .ok r ∧ r.Denotes fun q => q * v ∈ d := by
  obtain ⟨r, executed, denotes⟩ := @div_false_denotes d (.single v) valid bound
  refine ⟨r, by rw [divValue, ofValue_eq_ok bound]; exact executed, denotes.congr fun q => ?_⟩
  rw [valid.mem_iff_exists_isRun]
  constructor
  · rintro ⟨_, p, s, ⟨run, alone, _⟩, within⟩
    rw [isRun_single.mp alone] at within
    exact ⟨p, run, within⟩
  · rintro ⟨p, run, inside⟩
    have grows : q ≤ q * v := Nat.le_mul_of_pos_right q positive
    have stop := valid.isRun_le_maxValue run
    rw [Interval.mem_iff] at inside
    exact ⟨by omega, p, Interval.single v, ⟨run, isRun_single.mpr rfl, positive⟩, inside⟩

/-- The quotient has the integers between the smallest and the largest quotient of each pair of
    runs, among them all exact quotients of members. Flooring adds the common floor of all quotients
    of two runs where there is no such integer. Division by one value answers what multiplies with
    it into the domain. -/
theorem div_by_runs (dValid : d.validate = .ok ()) (divisorValid : divisor.validate = .ok ()) :
    ∃ plain floored, d.div divisor false = .ok plain ∧ d.div divisor true = .ok floored ∧
      plain.validate = .ok () ∧ floored.validate = .ok () ∧
      (∀ q, q ∈ plain ↔
        q ≤ maxValue ∧ ∃ p s, DivisionPair d divisor p s ∧ p.IsQuotient s q) ∧
      (∀ q, q ∈ floored ↔ q ∈ plain ∨
        ∃ p s, DivisionPair d divisor p s ∧ ¬p.HasQuotient s ∧ q = p.hi / s.lo) ∧
      (∀ p s, DivisionPair d divisor p s → ¬p.HasQuotient s →
        0 < s.lo ∧ ∀ x ∈ p, ∀ y ∈ s, x / y = p.hi / s.lo) ∧
      (∀ x ∈ d, ∀ y ∈ divisor, 0 < y → y ∣ x → x / y ∈ plain ∧ x / y ∈ floored) ∧
      ∀ v, 0 < v → v ≤ maxValue →
        ∃ r, d.divValue v = .ok r ∧ r.validate = .ok () ∧ ∀ q, q ∈ r ↔ q * v ∈ d := by
  rw [validate_eq_ok_iff] at dValid divisorValid
  obtain ⟨plain, executed, denotes⟩ := div_false_denotes dValid divisorValid
  obtain ⟨floored, executed', denotes'⟩ := div_true_denotes dValid divisorValid
  have includes : ∀ q, q ∈ floored ↔ q ∈ plain ∨
      ∃ p s, DivisionPair d divisor p s ∧ ¬p.HasQuotient s ∧ q = p.hi / s.lo := by
    intro q
    rw [denotes'.mem_iff, denotes.mem_iff]
    constructor
    · rintro ⟨p, s, pair, ⟨small, quotient⟩ | added⟩
      · exact .inl ⟨small, p, s, pair, quotient⟩
      · exact .inr ⟨p, s, pair, added⟩
    · rintro (⟨small, p, s, pair, quotient⟩ | ⟨p, s, pair, added⟩)
      · exact ⟨p, s, pair, .inl ⟨small, quotient⟩⟩
      · exact ⟨p, s, pair, .inr added⟩
  refine ⟨plain, floored, executed, executed', validate_eq_ok_iff.mpr denotes.valid,
    validate_eq_ok_iff.mpr denotes'.valid, denotes.mem_iff, includes,
    fun p s pair none => pair.div_eq dValid none, ?_, ?_⟩
  · intro x member y divides positive factor
    obtain ⟨p, s, pair, inRun, inDivisor⟩ :=
      exists_divisionPair dValid divisorValid member divides positive
    have small : x / y ≤ maxValue :=
      Nat.le_trans (Nat.div_le_self x y) (dValid.le_maxValue member)
    have quotient : x / y ∈ plain := (denotes.mem_iff _).mpr
      ⟨small, p, s, pair, Interval.isQuotient_div_of_dvd inRun inDivisor factor⟩
    exact ⟨quotient, (includes _).mpr (.inl quotient)⟩
  · intro v positive bound
    obtain ⟨r, executed, denotes⟩ := divValue_denotes dValid positive bound
    exact ⟨r, executed, validate_eq_ok_iff.mpr denotes.valid, denotes.mem_iff⟩

/-- Two runs on either side: 121 to 130 and 40 to 41 have the quotient three, 5 and 2 have none. -/
theorem div_by_runs_intervals :
    (Domain.intervals [⟨5, 5⟩, ⟨121, 130⟩]).validate = .ok () ∧
      (Domain.intervals [⟨2, 2⟩, ⟨40, 41⟩]).validate = .ok () ∧
      ∃ plain floored,
        (Domain.intervals [⟨5, 5⟩, ⟨121, 130⟩]).div (.intervals [⟨2, 2⟩, ⟨40, 41⟩]) false =
          .ok plain ∧
        (Domain.intervals [⟨5, 5⟩, ⟨121, 130⟩]).div (.intervals [⟨2, 2⟩, ⟨40, 41⟩]) true =
          .ok floored ∧
        3 ∈ plain ∧ 3 ∈ floored ∧ 2 ∈ floored := by
  obtain ⟨plain, floored, executed, executed', _, _, quotients, includes, _⟩ :=
    @div_by_runs (.intervals [⟨5, 5⟩, ⟨121, 130⟩]) (.intervals [⟨2, 2⟩, ⟨40, 41⟩]) rfl rfl
  have pairs : ∀ p ∈ [(⟨5, 5⟩ : Interval), ⟨121, 130⟩], ∀ s ∈ [(⟨2, 2⟩ : Interval), ⟨40, 41⟩],
      s.hi ≠ 0 →
        DivisionPair (.intervals [⟨5, 5⟩, ⟨121, 130⟩]) (.intervals [⟨2, 2⟩, ⟨40, 41⟩]) p s := by
    intro p inLeft s inRight nonzero
    refine ⟨?_, ?_, Nat.pos_of_ne_zero nonzero⟩
    · exact (Valid.isRun_iff (validate_eq_ok_iff.mp rfl) rfl).mpr inLeft
    · exact (Valid.isRun_iff (validate_eq_ok_iff.mp rfl) rfl).mpr inRight
  have three : 3 ∈ plain := by
    rw [quotients]
    exact ⟨by decide, _, _, pairs ⟨121, 130⟩ (by simp) ⟨40, 41⟩ (by simp) (by decide), by decide⟩
  have two : 2 ∈ floored := by
    rw [includes]
    refine .inr ⟨_, _, pairs ⟨5, 5⟩ (by simp) ⟨2, 2⟩ (by simp) (by decide), ?_, rfl⟩
    rw [Interval.hasQuotient_iff (by decide) (by decide)]
    decide
  exact ⟨rfl, rfl, plain, floored, executed, executed', three, (includes 3).mpr (.inl three), two⟩

/-- Each floored quotient of two members is kept, by the operator for division and by the calculator
    too, unless it falls below all rational quotients of their runs, between which there is an
    integer. Then the next integer is kept, and the floored quotient only for the sake of other
    runs. -/
theorem floored_quotients_kept (dValid : d.validate = .ok ())
    (divisorValid : divisor.validate = .ok ()) :
    ∃ r, d.div divisor true = .ok r ∧ d / divisor = Except.ok r ∧
      Calculator.Operator.divide.apply true d divisor = .ok r ∧ r.validate = .ok () ∧
      ∀ x ∈ d, ∀ y ∈ divisor, 0 < y → ∃ p s, DivisionPair d divisor p s ∧ x ∈ p ∧ y ∈ s ∧
        (p.lo ≤ x / y * s.hi ∨ ¬p.HasQuotient s → x / y ∈ r) ∧
        (x / y * s.hi < p.lo → p.HasQuotient s → x / y + 1 ∈ r ∧
          (x / y ∈ r → ∃ p' s', DivisionPair d divisor p' s' ∧ (p', s') ≠ (p, s) ∧
            p'.IsFloored s' (x / y))) := by
  rw [validate_eq_ok_iff] at dValid divisorValid
  obtain ⟨r, executed, denotes⟩ := div_true_denotes dValid divisorValid
  refine ⟨r, executed, executed, executed, validate_eq_ok_iff.mpr denotes.valid, ?_⟩
  intro x member y divides positive
  obtain ⟨p, s, pair, inRun, inDivisor⟩ :=
    exists_divisionPair dValid divisorValid member divides positive
  have small : x / y ≤ maxValue :=
    Nat.le_trans (Nat.div_le_self x y) (dValid.le_maxValue member)
  refine ⟨p, s, pair, inRun, inDivisor, ?_, ?_⟩
  · rw [denotes.mem_iff]
    rintro (reaches | none)
    · have quotient := (Interval.isQuotient_div_iff inRun inDivisor).mpr reaches
      exact ⟨p, s, pair, .inl ⟨small, quotient⟩⟩
    · have floor := (pair.div_eq dValid none).2 x inRun y inDivisor
      exact ⟨p, s, pair, .inr ⟨none, floor⟩⟩
  · intro below has
    have next := Interval.isQuotient_succ_div inRun inDivisor positive below has
    refine ⟨(denotes.mem_iff _).mpr ⟨p, s, pair, .inl next⟩, fun kept => ?_⟩
    obtain ⟨p', s', pair', floored⟩ := (denotes.mem_iff _).mp kept
    refine ⟨p', s', pair', ?_, floored⟩
    -- The runs of the two members do not contribute it: it is below their quotients, of which
    -- there is an integer one.
    intro same
    obtain ⟨rfl, rfl⟩ := Prod.mk.inj same
    rcases floored with ⟨_, quotient⟩ | ⟨none, _⟩
    · exact Nat.not_le.mpr below quotient.1
    · exact none has

/-- From 41 to 43 there is one integer half, which is kept as 43 / 2 and next to 41 / 2. -/
theorem floored_quotients_kept_halves :
    (Domain.intervals [⟨41, 43⟩]).validate = .ok () ∧ (Domain.single 2).validate = .ok () ∧
      ∃ r, Domain.intervals [⟨41, 43⟩] / Domain.single 2 = Except.ok r ∧
        43 / 2 ∈ r ∧ 41 / 2 + 1 ∈ r := by
  have valid : (Domain.intervals [⟨41, 43⟩]).Valid := validate_eq_ok_iff.mp rfl
  have runs : ∀ {p s}, DivisionPair (.intervals [⟨41, 43⟩]) (.single 2) p s →
      p = ⟨41, 43⟩ ∧ s = Interval.single 2 := fun pair =>
    ⟨List.mem_singleton.mp ((valid.isRun_iff rfl).mp pair.dividend), isRun_single.mp pair.divisor⟩
  obtain ⟨r, _, executed, _, _, keeps⟩ :=
    @floored_quotients_kept (.intervals [⟨41, 43⟩]) (.single 2) rfl rfl
  refine ⟨rfl, rfl, r, executed, ?_, ?_⟩
  · obtain ⟨p, s, pair, _, _, kept, _⟩ := keeps 43 (by decide) 2 rfl (by decide)
    obtain ⟨rfl, rfl⟩ := runs pair
    exact kept (.inl (by decide))
  · obtain ⟨p, s, pair, _, _, _, lost⟩ := keeps 41 (by decide) 2 rfl (by decide)
    obtain ⟨rfl, rfl⟩ := runs pair
    exact (lost (by decide) ⟨21, by decide, by decide⟩).1

/-- The half of 41 is no member once an integer half of a neighbour is. -/
theorem floored_quotient_lost :
    (Domain.intervals [⟨41, 43⟩]).validate = .ok () ∧ (Domain.single 2).validate = .ok () ∧
      (Domain.intervals [⟨41, 43⟩]).div (.single 2) true = .ok (.single 21) ∧
      Domain.intervals [⟨41, 43⟩] / Domain.single 2 = Except.ok (.single 21) ∧
      41 ∈ Domain.intervals [⟨41, 43⟩] ∧ 2 ∈ Domain.single 2 ∧ 41 / 2 ∉ Domain.single 21 :=
  ⟨rfl, rfl, rfl, rfl, by decide, rfl, by decide⟩

end Domain

end IntegerDomains

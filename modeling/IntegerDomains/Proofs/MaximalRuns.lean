import IntegerDomains.Proofs.Combination

namespace IntegerDomains.Domain

open Intervals

/-- The interval holds members only, and the values next to it are none. -/
structure IsRun (d : Domain) (r : Interval) : Prop where
  ordered : r.lo ≤ r.hi
  members : ∀ v ∈ r, v ∈ d
  starts : ∀ v, v + 1 = r.lo → v ∉ d
  stops : r.hi + 1 ∉ d

variable {d : Domain} {r u : Interval} {v : Nat}

theorem IsRun.lo_mem (run : d.IsRun r) : r.lo ∈ d := run.members _ ⟨Nat.le_refl _, run.ordered⟩

theorem IsRun.hi_mem (run : d.IsRun r) : r.hi ∈ d := run.members _ ⟨run.ordered, Nat.le_refl _⟩

/-- A run that starts inside another one would have a member before it. -/
private theorem IsRun.lo_le (left : d.IsRun r) (right : d.IsRun u) (inLeft : v ∈ r)
    (inRight : v ∈ u) : u.lo ≤ r.lo := by
  rw [Interval.mem_iff] at inLeft inRight
  refine Nat.le_of_not_lt fun later => ?_
  have before : u.lo - 1 ∈ r := ⟨by omega, by omega⟩
  exact right.starts (u.lo - 1) (by omega) (left.members _ before)

private theorem IsRun.hi_le (left : d.IsRun r) (right : d.IsRun u) (inLeft : v ∈ r)
    (inRight : v ∈ u) : r.hi ≤ u.hi := by
  rw [Interval.mem_iff] at inLeft inRight
  refine Nat.le_of_not_lt fun longer => ?_
  have behind : u.hi + 1 ∈ r := ⟨by omega, by omega⟩
  exact right.stops (left.members _ behind)

/-- Runs with a common value are equal. -/
theorem IsRun.eq_of_mem (left : d.IsRun r) (right : d.IsRun u) (inLeft : v ∈ r)
    (inRight : v ∈ u) : r = u := by
  have start : r.lo = u.lo :=
    Nat.le_antisymm (right.lo_le left inRight inLeft) (left.lo_le right inLeft inRight)
  have stop : r.hi = u.hi :=
    Nat.le_antisymm (left.hi_le right inLeft inRight) (right.hi_le left inRight inLeft)
  cases r
  cases u
  simp_all

theorem isRun_single {w : Nat} : (single w).IsRun r ↔ r = Interval.single w := by
  constructor
  · intro run
    have first : r.lo = w := run.lo_mem
    have last : r.hi = w := run.hi_mem
    cases r
    simp_all [Interval.single]
  · rintro rfl
    refine ⟨Nat.le_refl w, ?_, ?_, ?_⟩
    · intro v inside
      exact Nat.le_antisymm inside.2 inside.1
    · intro v before
      rw [mem_single]
      simp only [Interval.single] at before
      omega
    · rw [mem_single]
      simp [Interval.single]

/-- Zero alone is a run of the domains that have zero and not one. -/
theorem isRun_zero_iff : d.IsRun (Interval.single 0) ↔ 0 ∈ d ∧ 1 ∉ d := by
  constructor
  · intro run
    exact ⟨run.members 0 ⟨Nat.le_refl 0, Nat.le_refl 0⟩, run.stops⟩
  · rintro ⟨zero, one⟩
    refine ⟨Nat.le_refl 0, ?_, ?_, one⟩
    · intro v inside
      rwa [Nat.le_zero.mp inside.2]
    · intro v before
      simp [Interval.single] at before

namespace Valid

/-- A well-formed domain is taken apart into its runs. -/
theorem isRun_iff (valid : d.Valid) {s : List Interval} (executed : d.toIntervals = .ok s) :
    d.IsRun r ↔ r ∈ s := by
  obtain ⟨proper, covers⟩ := valid.runs_proper executed
  have runs : ∀ u ∈ s, d.IsRun u := by
    intro u member
    refine ⟨(proper.mem member).1, ?_, ?_, ?_⟩
    · intro v inside
      exact (covers v).mp (covers_of_mem member inside)
    · intro v touches
      rw [← covers]
      exact not_covers_pred_of_mem proper.separated member touches
    · rw [← covers]
      exact not_covers_succ_of_mem proper.separated member
  constructor
  · intro run
    -- The interval that covers the first value of a run is a run as well, and so the same one.
    have first : r.lo ∈ r := ⟨Nat.le_refl _, run.ordered⟩
    obtain ⟨u, member, inside⟩ := (covers r.lo).mpr (run.members _ first)
    rwa [run.eq_of_mem (runs u member) first inside]
  · exact runs r

/-- Each member lies in a run. -/
theorem mem_iff_exists_isRun (valid : d.Valid) : v ∈ d ↔ ∃ r, d.IsRun r ∧ v ∈ r := by
  constructor
  · intro member
    obtain ⟨s, executed, _, covers⟩ := valid.toIntervals_proper
    obtain ⟨r, inRuns, inside⟩ := (covers v).mpr member
    exact ⟨r, (valid.isRun_iff executed).mpr inRuns, inside⟩
  · rintro ⟨r, run, inside⟩
    exact run.members v inside

theorem isRun_le_maxValue (valid : d.Valid) (run : d.IsRun r) : r.hi ≤ maxValue :=
  valid.le_maxValue run.hi_mem

/-- A run that ends with zero is the one of zero alone. -/
theorem run_hi_ne_zero (valid : d.Valid) (accompanied : 0 ∈ d → 1 ∈ d) {s : List Interval}
    (executed : d.toIntervals = .ok s) : ∀ r ∈ s, r.hi ≠ 0 := by
  intro r member stop
  have run := (valid.isRun_iff executed).mpr member
  have start : r.lo = 0 := Nat.le_zero.mp (stop ▸ run.ordered)
  have alone : r = Interval.single 0 := by
    cases r
    simp_all [Interval.single]
  obtain ⟨zero, one⟩ := isRun_zero_iff.mp (alone ▸ run)
  exact one (accompanied zero)

end Valid

end IntegerDomains.Domain

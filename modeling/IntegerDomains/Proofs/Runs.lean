import IntegerDomains.Mask.Runs
import IntegerDomains.Proofs.Bits
import IntegerDomains.Proofs.Covering

namespace IntegerDomains.Mask

open Intervals

private theorem checkBounds_eq_ok {lo hi : Nat} (ordered : lo ≤ hi) (small : hi ≤ maskMax) :
    checkBounds lo hi = .ok () := by
  rw [checkBounds, if_neg (by omega), if_neg (by omega)]

theorem ofBounds_eq_ok {lo hi : Nat} (ordered : lo ≤ hi) (small : hi ≤ maskMax) :
    ofBounds lo hi = .ok (block lo hi) := by
  rw [ofBounds, checkBounds_eq_ok ordered small]
  rfl

theorem getLsbD_ofBlock {lo hi v : Nat} (small : hi ≤ maskMax) :
    (block lo hi).getLsbD v = true ↔ lo ≤ v ∧ v ≤ hi := by
  rw [getLsbD_block, Bool.and_eq_true, decide_eq_true_eq, decide_eq_true_eq]
  simp only [maskMax] at small
  omega

/-- In the complement of the shifted word a run shows as the clear bits at its lower end. -/
private theorem getLsbD_complement {m : Mask} {i : Nat} :
    (~~~(m >>> m.lowest)).getLsbD i = true ↔ i < 32 ∧ m.getLsbD (m.lowest + i) = false := by
  simp [BitVec.getLsbD_not, BitVec.getLsbD_ushiftRight]

/-- The lowest run has its length in set bits from its start on, and a clear bit behind them. -/
theorem runLength_maximal {m : Mask} (nonzero : m ≠ 0#32) :
    0 < m.runLength ∧ (∀ i < m.runLength, m.getLsbD (m.lowest + i) = true) ∧
      m.getLsbD (m.lowest + m.runLength) = false := by
  have inWord : m.runLength ≤ 32 := lowest_le_width _
  have allSet : ∀ i < m.runLength, m.getLsbD (m.lowest + i) = true := by
    intro i early
    have clear := getLsbD_of_lt_lowest early
    rw [← Bool.not_eq_true, getLsbD_complement, not_and, Bool.not_eq_false] at clear
    exact clear (by omega)
  have behind : m.getLsbD (m.lowest + m.runLength) = false := by
    by_cases inside : m.runLength < 32
    · have stops : ~~~(m >>> m.lowest) ≠ 0#32 := BitVec.ctz_lt_iff_ne_zero.mp inside
      exact (getLsbD_complement.mp (getLsbD_lowest stops)).2
    · exact BitVec.getLsbD_of_ge _ _ (by omega)
  refine ⟨Nat.pos_of_ne_zero ?_, allSet, behind⟩
  intro none
  have set := getLsbD_lowest nonzero
  simp [none, set] at behind

/-- The lowest run ends before a clear bit, and all its bits are set. -/
theorem runEnd_maximal {m : Mask} (nonzero : m ≠ 0#32) :
    (∀ v, m.lowest ≤ v → v ≤ m.runEnd → m.getLsbD v = true) ∧ m.lowest ≤ m.runEnd ∧
      m.getLsbD (m.runEnd + 1) = false := by
  obtain ⟨positive, allSet, behind⟩ := runLength_maximal nonzero
  unfold runEnd
  refine ⟨?_, by omega, ?_⟩
  · intro v start bound
    have set := allSet (v - m.lowest) (by omega)
    rwa [show m.lowest + (v - m.lowest) = v by omega] at set
  · rwa [show m.lowest + (m.runLength - 1) + 1 = m.lowest + m.runLength by omega]

/-- A run that fits is put in front of the runs of what is left. -/
theorem runs_step {m : Mask} (nonzero : m ≠ 0#32) (small : m.runEnd ≤ maskMax) :
    m.runs = m.dropRun.runs.map (⟨m.lowest, m.runEnd⟩ :: ·) := by
  obtain ⟨_, ordered, _⟩ := runEnd_maximal nonzero
  rw [runs, dif_neg nonzero, checkBounds_eq_ok ordered small]
  cases m.dropRun.runs <;> rfl

theorem getLsbD_dropRun {m : Mask} (small : m.runEnd ≤ maskMax) {v : Nat} :
    m.dropRun.getLsbD v = true ↔ m.getLsbD v = true ∧ ¬(m.lowest ≤ v ∧ v ≤ m.runEnd) := by
  rw [dropRun, BitVec.getLsbD_and, BitVec.getLsbD_not, Bool.and_eq_true, Bool.and_eq_true,
    decide_eq_true_eq, Bool.not_eq_true', ← Bool.not_eq_true, getLsbD_ofBlock small]
  constructor
  · rintro ⟨set, _, outside⟩
    exact ⟨set, outside⟩
  · rintro ⟨set, outside⟩
    exact ⟨set, BitVec.lt_of_getLsbD set, outside⟩

/-- The runs of a mask that fits are separated and hold its members. -/
theorem runs_covers (m : Mask) (fits : m.Fits) :
    ∃ s, m.runs = .ok s ∧ Separated s ∧ ∀ v, Covers s v ↔ m.getLsbD v = true := by
  by_cases zero : m = 0#32
  · refine ⟨[], by rw [runs, dif_pos zero], separated_nil, fun v => ?_⟩
    simp [zero]
  have decreases := dropRun_lt zero
  obtain ⟨whole, ordered, stop⟩ := runEnd_maximal zero
  have small := fits _ (whole _ ordered (Nat.le_refl _))
  have restFits : m.dropRun.Fits := fun v set => fits v ((getLsbD_dropRun small).mp set).1
  obtain ⟨s, executed, separated, covers⟩ := runs_covers m.dropRun restFits
  refine ⟨⟨m.lowest, m.runEnd⟩ :: s, ?_, ?_, fun v => ?_⟩
  · rw [runs_step zero small, executed]
    rfl
  · refine separated_cons.mpr ⟨ordered, fun later member => ?_, separated⟩
    have start : Covers s later.lo :=
      covers_of_mem member ⟨Nat.le_refl _, separated.1 later member⟩
    obtain ⟨set, outside⟩ := (getLsbD_dropRun small).mp ((covers _).mp start)
    -- The bit behind the end of the first run is clear, so the next run cannot touch it.
    have behind := lowest_le set
    have apart : later.lo ≠ m.runEnd + 1 := by
      intro touching
      rw [touching, stop] at set
      exact Bool.noConfusion set
    simp only
    omega
  · rw [covers_cons, Interval.mem_iff, covers, getLsbD_dropRun small]
    constructor
    · rintro (⟨start, bound⟩ | ⟨set, _⟩)
      · exact whole v start bound
      · exact set
    · intro set
      by_cases inside : m.lowest ≤ v ∧ v ≤ m.runEnd
      · exact .inl inside
      · exact .inr ⟨set, inside⟩
termination_by m.toNat

/-- Beyond the first interval that starts above `maskMax` there is nothing for a mask to hold. -/
theorem ofIntervals_covers (s : List Interval) (separated : Separated s) :
    ∃ m, ofIntervals s = .ok m ∧ ∀ v, m.getLsbD v = true ↔ v ≤ maskMax ∧ Covers s v := by
  induction s with
  | nil => exact ⟨0#32, rfl, fun v => by simp⟩
  | cons r rest ih =>
    obtain ⟨ordered, _, restSeparated⟩ := separated_cons.mp separated
    by_cases beyond : maskMax < r.lo
    · refine ⟨0#32, by rw [ofIntervals, if_pos beyond], fun v => ?_⟩
      constructor
      · intro set
        simp at set
      · rintro ⟨small, covered⟩
        have start := lo_le_of_covers separated covered
        omega
    · obtain ⟨m, executed, bits⟩ := ih restSeparated
      have lower : r.lo ≤ min r.hi maskMax := by omega
      have upper : min r.hi maskMax ≤ maskMax := Nat.min_le_right _ _
      refine ⟨block r.lo (min r.hi maskMax) ||| m, ?_, fun v => ?_⟩
      · rw [ofIntervals, if_neg beyond, ofBounds_eq_ok lower upper, executed]
        rfl
      · rw [BitVec.getLsbD_or, Bool.or_eq_true, getLsbD_ofBlock upper, bits, covers_cons,
          Interval.mem_iff]
        constructor
        · rintro (⟨start, bound⟩ | ⟨small, covered⟩)
          · exact ⟨by omega, .inl ⟨start, by omega⟩⟩
          · exact ⟨small, .inr covered⟩
        · rintro ⟨small, ⟨start, bound⟩ | covered⟩
          · exact .inl ⟨start, by omega⟩
          · exact .inr ⟨small, covered⟩

end IntegerDomains.Mask

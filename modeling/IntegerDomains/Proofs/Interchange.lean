import IntegerDomains.Proofs.Runs

namespace IntegerDomains.Mask

open Intervals

variable {m : Mask} {s : List Interval}

/-- The lowest run lies in the word, so that the shifts over it do, and the rest is smaller. -/
private theorem dropRun_in_word (nonzero : m ≠ 0#32) :
    m.lowest < 32 ∧ 0 < m.runLength ∧ m.lowest + m.runLength ≤ 32 ∧
      m.dropRun.toNat < m.toNat := by
  obtain ⟨positive, allSet, _⟩ := runLength_maximal nonzero
  have last : m.lowest + (m.runLength - 1) < 32 := BitVec.lt_of_getLsbD (allSet _ (by omega))
  exact ⟨BitVec.lt_of_getLsbD (getLsbD_lowest nonzero), positive, by omega, dropRun_lt nonzero⟩

/-- A run below bit 31 is taken out and leaves that bit to the rest, so a mask with this bit comes
    to the run that ends there. -/
theorem runs_refuses (m : Mask) (unfit : ¬m.Fits) : m.runs = .error (.maskCapacity 31) := by
  have nonzero : m ≠ 0#32 := by
    rintro rfl
    exact unfit (by simp [Fits])
  have decreases := dropRun_lt nonzero
  obtain ⟨allSet, ordered, _⟩ := runEnd_maximal nonzero
  have inWord : m.runEnd < 32 := BitVec.lt_of_getLsbD (allSet _ ordered (Nat.le_refl _))
  by_cases small : m.runEnd ≤ maskMax
  · have restUnfit : ¬m.dropRun.Fits := by
      intro fits
      refine unfit fun v set => ?_
      by_cases behind : m.runEnd < v
      · exact fits v ((getLsbD_dropRun small).mpr ⟨set, by omega⟩)
      · omega
    rw [runs_step nonzero small, runs_refuses m.dropRun restUnfit]
    rfl
  · have top : m.runEnd = 31 := by
      simp only [maskMax] at small
      omega
    have refused : checkBounds m.lowest m.runEnd = .error (.maskCapacity 31) := by
      rw [checkBounds, if_neg (by omega), if_pos (by omega), top]
    rw [runs, dif_neg nonzero, refused]
    rfl
termination_by m.toNat

theorem runs_eq_ok_iff :
    m.runs = .ok s ↔ m.Fits ∧ Separated s ∧ ∀ v, Covers s v ↔ m.getLsbD v = true := by
  by_cases fits : m.Fits
  · obtain ⟨t, executed, separated, covers⟩ := runs_covers m fits
    rw [executed]
    constructor
    · rintro ⟨⟩
      exact ⟨fits, separated, covers⟩
    · rintro ⟨_, separated', covers'⟩
      rw [separated_ext separated separated' fun v => (covers v).trans (covers' v).symm]
  · simp [runs_refuses m fits, fits]

theorem ofIntervals_eq_ok_iff (separated : Separated s) :
    ofIntervals s = .ok m ↔ ∀ v, m.getLsbD v = true ↔ v ≤ maskMax ∧ Covers s v := by
  obtain ⟨n, executed, bits⟩ := ofIntervals_covers s separated
  rw [executed]
  constructor
  · rintro ⟨⟩
    exact bits
  · intro bits'
    rw [eq_of_bits fun v => (bits v).trans (bits' v).symm]

/-- The masks that have runs are those that separated sequences up to `maskMax` are put together
    into, each from its own runs alone. -/
theorem runs_eq_ok_iff_ofIntervals :
    m.runs = .ok s ↔
      Separated s ∧ (∀ v, Covers s v → v ≤ maskMax) ∧ ofIntervals s = .ok m := by
  rw [runs_eq_ok_iff]
  constructor
  · rintro ⟨fits, separated, covers⟩
    have bounded : ∀ v, Covers s v → v ≤ maskMax := fun v covered => fits v ((covers v).mp covered)
    refine ⟨separated, bounded, (ofIntervals_eq_ok_iff separated).mpr fun v => ?_⟩
    rw [← covers, iff_and_self]
    exact bounded v
  · rintro ⟨separated, bounded, executed⟩
    have bits := (ofIntervals_eq_ok_iff separated).mp executed
    refine ⟨fun v set => ((bits v).mp set).1, separated, fun v => ?_⟩
    rw [bits, iff_and_self]
    exact bounded v

/-- The runs of a mask that fits are the separated sequence of its members, from which the mask is
    put together again. A separated sequence with any bounds is put together into the mask of its
    values up to `maskMax`, and if it has no others, it is taken apart into the same sequence.
    Taking a run out works on positions of the word and leaves a smaller one, whatever the mask, and
    where a member does not fit, it ends with the fault of the run that holds it. -/
theorem masks_and_runs_convert :
    (∀ m : Mask, m.Fits → ∃ s, m.runs = .ok s ∧ isSeparated s = true ∧
      (∀ v, Covers s v ↔ m.getLsbD v = true) ∧ ofIntervals s = .ok m) ∧
    (∀ s, isSeparated s = true → ∃ m, ofIntervals s = .ok m ∧
      (∀ v, m.getLsbD v = true ↔ v ≤ maskMax ∧ Covers s v) ∧
      ((∀ v, Covers s v → v ≤ maskMax) → m.runs = .ok s)) ∧
    (∀ m : Mask, m ≠ 0#32 → m.lowest < 32 ∧ 0 < m.runLength ∧ m.lowest + m.runLength ≤ 32 ∧
      m.dropRun.toNat < m.toNat) ∧
    ∀ m : Mask, ¬m.Fits → m.runs = .error (.maskCapacity 31) := by
  refine ⟨?_, ?_, fun m nonzero => dropRun_in_word nonzero, runs_refuses⟩
  · intro m fits
    obtain ⟨s, executed, separated, covers⟩ := runs_covers m fits
    have rebuilt := (runs_eq_ok_iff_ofIntervals.mp executed).2.2
    exact ⟨s, executed, isSeparated_iff.mpr separated, covers, rebuilt⟩
  · intro s separated
    have separated := isSeparated_iff.mp separated
    obtain ⟨m, executed, bits⟩ := ofIntervals_covers s separated
    refine ⟨m, executed, bits, ?_⟩
    intro bounded
    exact runs_eq_ok_iff_ofIntervals.mpr ⟨separated, bounded, executed⟩

/-- Three runs, of which the last one ends with `maskMax`; a sequence that is cut off there, in its
    second interval; and a run up to bit 31. -/
theorem masks_and_runs_convert_atMaskMax :
    (Fits 0x70000031#32 ∧ isSeparated [⟨0, 0⟩, ⟨4, 5⟩, ⟨28, 30⟩] = true ∧
      (∀ v, Covers [⟨0, 0⟩, ⟨4, 5⟩, ⟨28, 30⟩] v → v ≤ maskMax) ∧
      runs 0x70000031#32 = .ok [⟨0, 0⟩, ⟨4, 5⟩, ⟨28, 30⟩] ∧
      ofIntervals [⟨0, 0⟩, ⟨4, 5⟩, ⟨28, 30⟩] = .ok 0x70000031#32) ∧
    (isSeparated [⟨2, 4⟩, ⟨28, 40⟩, ⟨50, wordMax⟩] = true ∧
      ofIntervals [⟨2, 4⟩, ⟨28, 40⟩, ⟨50, wordMax⟩] = .ok 0x7000001c#32 ∧
      ∀ v, BitVec.getLsbD 0x7000001c#32 v = true ↔
        v ≤ maskMax ∧ Covers [⟨2, 4⟩, ⟨28, 40⟩, ⟨50, wordMax⟩] v) ∧
    (0x70000031#32 ≠ 0#32 ∧ 0 < runLength 0x70000031#32) ∧
    ¬Fits 0xc0000001#32 ∧ runs 0xc0000001#32 = .error (.maskCapacity 31) := by
  obtain ⟨apart, together, steps, refuses⟩ := masks_and_runs_convert
  have fits : Fits 0x70000031#32 := fits_iff.mp (by decide)
  have unfit : ¬Fits 0xc0000001#32 := fun fits => absurd (fits_iff.mpr fits) (by decide)
  have nonzero : 0x70000031#32 ≠ 0#32 := by decide
  have small : ∀ v, Covers [⟨0, 0⟩, ⟨4, 5⟩, ⟨28, 30⟩] v → v ≤ maskMax :=
    (bounded_iff (by decide)).mpr (by decide)
  obtain ⟨s, executed, separated, _, rebuilt⟩ := apart 0x70000031#32 fits
  obtain ⟨_, built, _, runs⟩ := together [⟨0, 0⟩, ⟨4, 5⟩, ⟨28, 30⟩] (by decide)
  obtain ⟨_, cut, bits, _⟩ := together [⟨2, 4⟩, ⟨28, 40⟩, ⟨50, wordMax⟩] (by decide)
  cases built
  cases cut
  cases executed.symm.trans (runs small)
  exact ⟨⟨fits, separated, small, executed, rebuilt⟩, ⟨by decide, rfl, bits⟩,
    ⟨nonzero, (steps _ nonzero).2.1⟩, unfit, refuses _ unfit⟩

end IntegerDomains.Mask

import IntegerDomains.Proofs.Differences
import IntegerDomains.Proofs.Sums

namespace IntegerDomains.Domain

/-- Stored masks and single values up to `maskMax` have masks. If the largest members of two of
    them add up to a value that a mask may hold, their sum by masks is their sum by intervals.
    Their difference by masks is always that by intervals, also where both hold zero. No shift
    moves a bit above `maskMax`. -/
theorem masks_agree_with_intervals {d e : Domain} (dValid : d.validate = .ok ())
    (eValid : e.validate = .ok ()) {a b : Mask} (left : d.HasMask a) (right : e.HasMask b) :
    d.asMask? = some a ∧ e.asMask? = some b ∧
    (∃ m n, a.greatest = .ok m ∧ b.greatest = .ok n ∧ (m + n ≤ maskMax →
      (∀ v ∈ a.values, Mask.Fits (b <<< v) ∧ (b <<< v).toNat = b.toNat <<< v) ∧
      ∃ r, ofMask (a.sums b) = .ok r ∧ sumByIntervals d e = .ok r)) ∧
    (∀ v ∈ b.values, Mask.Fits (a >>> v)) ∧
    ∃ r, ofMask (a.differences b) = .ok r ∧ differenceByIntervals d e = .ok r := by
  rw [validate_eq_ok_iff] at dValid eValid
  rw [← asMask?_eq_some_iff] at left right
  refine ⟨left, right, ⟨a.highest, b.highest, dValid.asMask?_greatest left,
    eValid.asMask?_greatest right, fun small => ⟨?_, ?_⟩⟩, ?_, ?_⟩
  · intro v member
    have room : b.HasRoom v := fun w set =>
      Mask.add_le_of_highest small (Mask.mem_values.mp member) set
    exact ⟨room.fits, room.toNat_shiftLeft⟩
  · obtain ⟨r, byMasks, denotes⟩ := ofMask_sums_denotes dValid eValid left right small
    obtain ⟨s, byIntervals, denotes'⟩ := sumByIntervals_denotes dValid eValid
    exact ⟨r, byMasks, by rw [byIntervals, denotes'.eq denotes]⟩
  · exact fun v _ => (dValid.asMask?_bits left).1.ushiftRight v
  · obtain ⟨r, byMasks, denotes⟩ := ofMask_differences_denotes dValid eValid left right
    obtain ⟨s, byIntervals, denotes'⟩ := differenceByIntervals_denotes dValid eValid
    exact ⟨r, byMasks, by rw [byIntervals, denotes'.eq denotes]⟩

/-- A single value and a mask, and two masks that both hold zero; the largest members of either pair
    add up to the last value of a mask. -/
theorem masks_agree_with_intervals_atMaskMax :
    ((Domain.single 26).validate = .ok () ∧ (Domain.mask 17#32).validate = .ok () ∧
      (Domain.single 26).asMask? = some 0x4000000#32 ∧ (Domain.mask 17#32).asMask? = some 17#32 ∧
      (∃ r, ofMask (Mask.sums 0x4000000#32 17#32) = .ok r ∧
        sumByIntervals (.single 26) (.mask 17#32) = .ok r) ∧
      ∃ r, ofMask (Mask.differences 0x4000000#32 17#32) = .ok r ∧
        differenceByIntervals (.single 26) (.mask 17#32) = .ok r) ∧
    (Domain.mask 0x4000001#32).validate = .ok () ∧
      (∃ r, ofMask (Mask.sums 0x4000001#32 17#32) = .ok r ∧
        sumByIntervals (.mask 0x4000001#32) (.mask 17#32) = .ok r) ∧
      ∃ r, ofMask (Mask.differences 0x4000001#32 17#32) = .ok r ∧
        differenceByIntervals (.mask 0x4000001#32) (.mask 17#32) = .ok r := by
  have four : Mask.greatest 17#32 = .ok 4 := by decide
  have single : Mask.greatest 0x4000000#32 = .ok 26 := by decide
  have pair : Mask.greatest 0x4000001#32 = .ok 26 := by decide
  constructor
  · obtain ⟨left, right, ⟨m, n, dGreatest, eGreatest, sums⟩, _, differences⟩ :=
      masks_agree_with_intervals (d := .single 26) (e := .mask 17#32) rfl rfl
        (.single (by decide)) (.mask _)
    cases dGreatest.symm.trans single
    cases eGreatest.symm.trans four
    exact ⟨rfl, rfl, left, right, (sums (by decide)).2, differences⟩
  · obtain ⟨_, _, ⟨m, n, dGreatest, eGreatest, sums⟩, _, differences⟩ :=
      masks_agree_with_intervals (d := .mask 0x4000001#32) (e := .mask 17#32) rfl rfl
        (.mask _) (.mask _)
    cases dGreatest.symm.trans pair
    cases eGreatest.symm.trans four
    exact ⟨rfl, (sums (by decide)).2, differences⟩

end IntegerDomains.Domain

import IntegerDomains.Proofs.Subsets

namespace IntegerDomains.Domain

open Intervals

private theorem Valid.inter_swap {d e : Domain} (dValid : d.Valid) (eValid : e.Valid) :
    d.inter e = e.inter d :=
  answers_eq (inter_denotes dValid eValid) (inter_denotes eValid dValid) fun _ => and_comm

/-- The members of both domains, and the values that both of two separated sequences cover. -/
theorem contains_inter :
    (∀ d e : Domain, d.validate = .ok () → e.validate = .ok () →
      ∃ r, d.inter e = .ok r ∧ e.inter d = .ok r ∧ r.validate = .ok () ∧
        ∀ v, r.contains v = true ↔ d.contains v = true ∧ e.contains v = true) ∧
    ∀ a b : List Interval, isSeparated a = true → isSeparated b = true →
      isSeparated (meet a b) = true ∧ ∀ v, Covers (meet a b) v ↔ Covers a v ∧ Covers b v := by
  constructor
  · intro d e dValid eValid
    rw [validate_eq_ok_iff] at dValid eValid
    obtain ⟨r, executed, denotes⟩ := inter_denotes dValid eValid
    have exchanged : e.inter d = .ok r := (eValid.inter_swap dValid).trans executed
    obtain ⟨valid, contains⟩ := denotes_iff_contains.mp denotes
    refine ⟨r, executed, exchanged, valid, fun v => ?_⟩
    rw [contains, dValid.contains_iff, eValid.contains_iff]
  · intro a b left right
    obtain ⟨separated, covers⟩ :=
      meet_covers a b (isSeparated_iff.mp left) (isSeparated_iff.mp right)
    exact ⟨isSeparated_iff.mpr separated, covers⟩

/-- A mask whose last member begins an interval of the other domain, and sequences of which one
    interval overlaps two. -/
theorem contains_inter_mask :
    (Domain.mask 0x4000001A#32).validate = .ok () ∧
      (Domain.intervals [⟨0, 3⟩, ⟨30, 40⟩]).validate = .ok () ∧
      (∃ r, (Domain.mask 0x4000001A#32).inter (.intervals [⟨0, 3⟩, ⟨30, 40⟩]) = .ok r ∧
        (Domain.intervals [⟨0, 3⟩, ⟨30, 40⟩]).inter (.mask 0x4000001A#32) = .ok r ∧
        r.contains 30 = true ∧ ¬r.contains 4 = true) ∧
      isSeparated [⟨0, 9⟩, ⟨20, 40⟩] = true ∧ isSeparated [⟨5, 25⟩, ⟨27, 50⟩] = true ∧
      isSeparated (meet [⟨0, 9⟩, ⟨20, 40⟩] [⟨5, 25⟩, ⟨27, 50⟩]) = true ∧
      Covers (meet [⟨0, 9⟩, ⟨20, 40⟩] [⟨5, 25⟩, ⟨27, 50⟩]) 27 := by
  obtain ⟨domains, sequences⟩ := contains_inter
  obtain ⟨r, executed, exchanged, _, contains⟩ :=
    domains (.mask 0x4000001A#32) (.intervals [⟨0, 3⟩, ⟨30, 40⟩]) rfl rfl
  obtain ⟨separated, covers⟩ := sequences [⟨0, 9⟩, ⟨20, 40⟩] [⟨5, 25⟩, ⟨27, 50⟩] rfl rfl
  refine ⟨rfl, rfl, ⟨r, executed, exchanged, ?_, ?_⟩, rfl, rfl, separated, ?_⟩
  · exact (contains 30).mpr ⟨rfl, rfl⟩
  · intro held
    exact Bool.noConfusion ((contains 4).mp held).2
  · exact (covers 27).mpr ⟨⟨⟨20, 40⟩, by simp, by decide⟩, ⟨⟨27, 50⟩, by simp, by decide⟩⟩

/-- Two domains are disjoint exactly if their intersection is empty, that is if no value is a member
    of both, and the search for an overlap of two sequences finds one exactly where they have a
    value in common. -/
theorem disjoint_iff_inter :
    (∀ d e : Domain, d.validate = .ok () → e.validate = .ok () →
      ∃ b r, d.disjoint e = .ok b ∧ d.inter e = .ok r ∧ (b = true ↔ r = .empty) ∧
        (b = true ↔ ∀ v, ¬(d.contains v = true ∧ e.contains v = true))) ∧
    ∀ a b : List Interval, isSeparated a = true → isSeparated b = true →
      (meets a b = true ↔ ∃ v, Covers a v ∧ Covers b v) ∧
        (meets a b = true ↔ meet a b ≠ []) := by
  constructor
  · intro d e dValid eValid
    rw [validate_eq_ok_iff] at dValid eValid
    obtain ⟨b, answered, apart⟩ := disjoint_eq dValid eValid
    obtain ⟨r, executed, denotes⟩ := inter_denotes dValid eValid
    have noneCommon : b = true ↔ ∀ v, ¬(v ∈ d ∧ v ∈ e) :=
      apart.trans (forall_congr' fun v => not_and.symm)
    refine ⟨b, r, answered, executed, noneCommon.trans denotes.eq_empty_iff.symm, ?_⟩
    simpa only [dValid.contains_iff, eValid.contains_iff] using noneCommon
  · intro a b left right
    rw [isSeparated_iff] at left right
    exact ⟨meets_iff a b left right, meets_iff_meet left right⟩

/-- Intervals of which the last value of one is the first of another, and sequences that leave two
    intervals behind before they overlap. -/
theorem disjoint_iff_inter_oneCommon :
    (Domain.intervals [⟨0, 10⟩, ⟨100, 200⟩]).validate = .ok () ∧
      (Domain.intervals [⟨11, 100⟩, ⟨201, 300⟩]).validate = .ok () ∧
      (∃ r, (Domain.intervals [⟨0, 10⟩, ⟨100, 200⟩]).disjoint
          (.intervals [⟨11, 100⟩, ⟨201, 300⟩]) = .ok false ∧
        (Domain.intervals [⟨0, 10⟩, ⟨100, 200⟩]).inter
          (.intervals [⟨11, 100⟩, ⟨201, 300⟩]) = .ok r ∧ r ≠ .empty) ∧
      isSeparated [⟨0, 3⟩, ⟨7, 9⟩] = true ∧ isSeparated [⟨5, 5⟩, ⟨9, 9⟩] = true ∧
      meets [⟨0, 3⟩, ⟨7, 9⟩] [⟨5, 5⟩, ⟨9, 9⟩] = true := by
  obtain ⟨domains, sequences⟩ := disjoint_iff_inter
  obtain ⟨b, r, answered, executed, empty, apart⟩ :=
    domains (.intervals [⟨0, 10⟩, ⟨100, 200⟩]) (.intervals [⟨11, 100⟩, ⟨201, 300⟩]) rfl rfl
  have shared : ¬b = true := fun disjoint => apart.mp disjoint 100 ⟨rfl, rfl⟩
  rw [Bool.eq_false_iff.mpr shared] at answered
  obtain ⟨common, _⟩ := sequences [⟨0, 3⟩, ⟨7, 9⟩] [⟨5, 5⟩, ⟨9, 9⟩] rfl rfl
  refine ⟨rfl, rfl, ⟨r, answered, executed, mt empty.mpr shared⟩, rfl, rfl, common.mpr ⟨9, ?_, ?_⟩⟩
  · exact ⟨⟨7, 9⟩, by simp, by decide⟩
  · exact ⟨⟨9, 9⟩, by simp, by decide⟩

/-- The computation answers a well-formed domain of exactly those members of `d` that
    have the property. -/
def Keeps (d : Domain) (P : Nat → Prop) (answer : Except Fault Domain) : Prop :=
  ∃ r, answer = .ok r ∧ r.validate = .ok () ∧
    ∀ w, r.contains w = true ↔ d.contains w = true ∧ P w

private theorem Valid.keeps_iff {d : Domain} (valid : d.Valid) {P : Nat → Prop}
    {answer : Except Fault Domain} :
    d.Keeps P answer ↔ ∃ r, answer = .ok r ∧ r.Denotes fun w => w ∈ d ∧ P w := by
  simp only [Keeps, denotes_iff_contains, valid.contains_iff]

/-- The members on one side of a threshold are kept, below or above a threshold of at most `maxValue
    + 1` and on either side of any signed one. -/
theorem thresholds_keep {d : Domain} (valid : d.validate = .ok ()) :
    (∀ v ≤ maxValue + 1, d.Keeps (fun w => w < v) (d.below v) ∧
      d.Keeps (fun w => v < w) (d.above v)) ∧
    ∀ t : Int, d.Keeps (fun w => t ≤ (w : Int)) (d.atLeast t) ∧
      d.Keeps (fun w => (w : Int) ≤ t) (d.atMost t) := by
  rw [validate_eq_ok_iff] at valid
  simp only [valid.keeps_iff]
  constructor
  · intro v admitted
    exact ⟨below_denotes valid admitted, above_denotes valid admitted⟩
  · intro t
    exact ⟨atLeast_denotes valid t, atMost_denotes valid t⟩

/-- Thresholds right behind the values of a mask, right behind all values, and below all values. -/
theorem thresholds_keep_atLimits :
    (Domain.intervals [⟨0, 3⟩, ⟨20, 31⟩, ⟨100000000, 100000000⟩]).validate = .ok () ∧
      31 ≤ maxValue + 1 ∧ 100000001 ≤ maxValue + 1 ∧
      (∃ r, (Domain.intervals [⟨0, 3⟩, ⟨20, 31⟩, ⟨100000000, 100000000⟩]).below 31 = .ok r ∧
        r.validate = .ok () ∧ r.contains 30 = true ∧ ¬r.contains 31 = true) ∧
      (∃ r, (Domain.intervals [⟨0, 3⟩, ⟨20, 31⟩, ⟨100000000, 100000000⟩]).above 100000001 = .ok r ∧
        r.validate = .ok () ∧ ¬r.contains 100000000 = true) ∧
      (∃ r, (Domain.intervals [⟨0, 3⟩, ⟨20, 31⟩, ⟨100000000, 100000000⟩]).atLeast (-7) = .ok r ∧
        r.contains 0 = true) ∧
      ∃ r, (Domain.intervals [⟨0, 3⟩, ⟨20, 31⟩, ⟨100000000, 100000000⟩]).atMost (-7) = .ok r ∧
        ¬r.contains 0 = true := by
  obtain ⟨bounded, signed⟩ :=
    thresholds_keep (d := .intervals [⟨0, 3⟩, ⟨20, 31⟩, ⟨100000000, 100000000⟩]) rfl
  obtain ⟨low, below, lowValid, inLow⟩ := (bounded 31 (by decide)).1
  obtain ⟨high, above, highValid, inHigh⟩ := (bounded 100000001 (by decide)).2
  obtain ⟨⟨all, atLeast, _, inAll⟩, ⟨none, atMost, _, inNone⟩⟩ := signed (-7)
  refine ⟨rfl, by decide, by decide, ⟨low, below, lowValid, ?_, ?_⟩, ⟨high, above, highValid, ?_⟩,
    ⟨all, atLeast, ?_⟩, ⟨none, atMost, ?_⟩⟩
  · exact (inLow 30).mpr ⟨rfl, by decide⟩
  · exact fun kept => absurd ((inLow 31).mp kept).2 (by decide)
  · exact fun kept => absurd ((inHigh 100000000).mp kept).2 (by decide)
  · exact (inAll 0).mpr ⟨rfl, by decide⟩
  · exact fun kept => absurd ((inNone 0).mp kept).2 (by decide)

/-- Every value but one is kept, so a value that is no member leaves the domain as it is; and
    the shortcuts for intervals with one value left over answer what cutting the value out of
    its interval answers. -/
theorem erase_keeps :
    (∀ d : Domain, d.validate = .ok () → ∀ v, d.Keeps (fun w => w ≠ v) (d.erase v) ∧
      (d.contains v = false → d.erase v = .ok d)) ∧
    ∀ (s : List Interval) (index v : Nat) (r : Interval), isSeparated s = true →
      s[index]? = some r → r.contains v = true →
      ∃ d, eraseAt s index v = .ok d ∧ ofSeparated (cutAt index v s) = .ok d := by
  constructor
  · intro d valid v
    rw [validate_eq_ok_iff] at valid
    refine ⟨valid.keeps_iff.mpr (erase_denotes valid v), fun missing => ?_⟩
    have outside : v ∉ d := by
      rw [← valid.contains_iff, missing]
      exact Bool.false_ne_true
    exact answers_eq (erase_denotes valid v) ⟨d, rfl, valid.denotes_of_not_mem outside⟩
      fun _ => Iff.rfl
  · intro s index v r separated here inside
    rw [isSeparated_iff] at separated
    rw [Interval.contains_iff] at inside
    obtain ⟨d, built⟩ := ofSeparated_total (cutAt_covers separated here inside).1
    exact ⟨d, (eraseAt_eq_ofSeparated here inside).trans built, built⟩

/-- A split interval, a value that is no member, and each shortcut: one value, two values in one
    interval, and two in two. -/
theorem erase_keeps_shortcuts :
    (Domain.intervals [⟨50, 60⟩]).validate = .ok () ∧
      (∃ r, (Domain.intervals [⟨50, 60⟩]).erase 55 = .ok r ∧ r.validate = .ok () ∧
        r.contains 54 = true ∧ ¬r.contains 55 = true) ∧
      (Domain.intervals [⟨50, 60⟩]).contains 70 = false ∧
      (Domain.intervals [⟨50, 60⟩]).erase 70 = .ok (.intervals [⟨50, 60⟩]) ∧
      (∃ d, eraseAt [⟨7, 7⟩] 0 7 = .ok d ∧ ofSeparated (cutAt 0 7 [⟨7, 7⟩]) = .ok d) ∧
      (∃ d, eraseAt [⟨40, 41⟩] 0 41 = .ok d ∧ ofSeparated (cutAt 0 41 [⟨40, 41⟩]) = .ok d) ∧
      ∃ d, eraseAt [⟨40, 40⟩, ⟨90, 90⟩] 1 90 = .ok d ∧
        ofSeparated (cutAt 1 90 [⟨40, 40⟩, ⟨90, 90⟩]) = .ok d := by
  obtain ⟨domains, sequences⟩ := erase_keeps
  obtain ⟨⟨r, executed, valid, inR⟩, _⟩ := domains (.intervals [⟨50, 60⟩]) rfl 55
  refine ⟨rfl, ⟨r, executed, valid, ?_, ?_⟩, rfl, (domains (.intervals [⟨50, 60⟩]) rfl 70).2 rfl,
    sequences [⟨7, 7⟩] 0 7 ⟨7, 7⟩ rfl rfl rfl, sequences [⟨40, 41⟩] 0 41 ⟨40, 41⟩ rfl rfl rfl,
    sequences [⟨40, 40⟩, ⟨90, 90⟩] 1 90 ⟨90, 90⟩ rfl rfl rfl⟩
  · exact (inR 54).mpr ⟨rfl, by decide⟩
  · exact fun kept => ((inR 55).mp kept).2 rfl

end IntegerDomains.Domain

import IntegerDomains.Proofs.Cofactors
import IntegerDomains.Proofs.Division
import IntegerDomains.Proofs.Multiplication

/-!
Runs do not grow together when their bounds are multiplied: where a value was missing behind a run,
at least one is missing behind the scaled run (`isRun_iff_scaled`).
-/

namespace IntegerDomains

/-- The interval between the multiples of both bounds. -/
def Interval.scale (r : Interval) (v : Nat) : Interval := ⟨r.lo * v, r.hi * v⟩

private theorem Interval.mul_mem_scale {r : Interval} {q v : Nat} (positive : 0 < v) :
    q * v ∈ r.scale v ↔ q ∈ r := by
  simp only [scale, mem_iff, Nat.mul_le_mul_right_iff positive]

/-- Multiples that touch are multiples of values that touch. -/
private theorem le_succ_of_scaled {a b v : Nat} (positive : 0 < v) (touches : a * v ≤ b * v + 1) :
    a ≤ b + 1 := by
  refine Nat.le_of_mul_le_mul_right ?_ positive
  calc
    a * v ≤ b * v + 1 := touches
    _ ≤ b * v + v := Nat.add_le_add_left positive _
    _ = (b + 1) * v := (Nat.succ_mul b v).symm

namespace Domain

variable {d r : Domain} {v : Nat}

/-- Without a capped product the runs are scaled as they are. -/
theorem mulValue_denotes (valid : d.Valid) (bound : v ≤ maxValue)
    (fits : ∀ x ∈ d, x * v ≤ maxValue) :
    ∃ r, d.mulValue v = .ok r ∧ r.Denotes fun w => ∃ p, d.IsRun p ∧ w ∈ p.scale v := by
  obtain ⟨r, executed, denotes⟩ := mul_runs_denotes valid (e := .single v) bound
  refine ⟨r, by rw [mulValue, ofValue_eq_ok bound]; exact executed, denotes.congr fun w => ?_⟩
  have uncapped : ∀ p, d.IsRun p →
      min (p.lo * v) maxValue = p.lo * v ∧ min (p.hi * v) maxValue = p.hi * v := fun p run =>
    ⟨Nat.min_eq_left (fits p.lo run.lo_mem), Nat.min_eq_left (fits p.hi run.hi_mem)⟩
  constructor
  · rintro ⟨p, q, run, alone, within⟩
    rw [isRun_single.mp alone, Interval.single, (uncapped p run).1, (uncapped p run).2] at within
    exact ⟨p, run, within⟩
  · rintro ⟨p, run, within⟩
    refine ⟨p, Interval.single v, run, isRun_single.mpr rfl, ?_⟩
    rw [Interval.single, (uncapped p run).1, (uncapped p run).2]
    exact within

/-- A scaled run is bounded by missing values: a neighbour in another scaled run would make the two
    runs touch before they were scaled. -/
private theorem IsRun.scaled {p : Interval} (run : d.IsRun p) (positive : 0 < v)
    (denotes : r.Denotes fun w => ∃ q, d.IsRun q ∧ w ∈ q.scale v) : r.IsRun (p.scale v) := by
  refine ⟨Nat.mul_le_mul_right v run.ordered, ?_, ?_, ?_⟩
  · intro w inside
    exact (denotes.mem_iff w).mpr ⟨p, run, inside⟩
  · intro w before member
    obtain ⟨q, other, start, stop⟩ := (denotes.mem_iff w).mp member
    simp only [Interval.scale] at before start stop
    have starts : q.lo < p.lo := Nat.lt_of_mul_lt_mul_right (a := v) (by omega)
    have stops : p.lo ≤ q.hi + 1 := le_succ_of_scaled positive (by omega)
    have inside : p.lo - 1 ∈ q := ⟨by omega, by omega⟩
    exact run.starts (p.lo - 1) (by omega) (other.members _ inside)
  · intro member
    obtain ⟨q, other, start, stop⟩ := (denotes.mem_iff _).mp member
    simp only [Interval.scale] at start stop
    have starts : q.lo ≤ p.hi + 1 := le_succ_of_scaled positive start
    have stops : p.hi < q.hi := Nat.lt_of_mul_lt_mul_right (a := v) (by omega)
    exact run.stops (other.members _ ⟨starts, stops⟩)

theorem isRun_iff_scaled (positive : 0 < v)
    (denotes : r.Denotes fun w => ∃ q, d.IsRun q ∧ w ∈ q.scale v) {u : Interval} :
    r.IsRun u ↔ ∃ p, d.IsRun p ∧ u = p.scale v := by
  constructor
  · intro run
    obtain ⟨p, unscaled, inside⟩ := (denotes.mem_iff u.lo).mp run.lo_mem
    have first : u.lo ∈ u := ⟨Nat.le_refl _, run.ordered⟩
    exact ⟨p, unscaled, run.eq_of_mem (unscaled.scaled positive denotes) first inside⟩
  · rintro ⟨p, run, rfl⟩
    exact run.scaled positive denotes

/-- For a value other than zero the cofactor is the quotient. -/
theorem cofactorValue_eq_divValue (valid : d.Valid) (positive : 0 < v) (bound : v ≤ maxValue) :
    d.cofactorValue v = d.divValue v := by
  rw [cofactorValue, divValue, ofValue_eq_ok bound]
  refine cofactor_eq_div valid bound (.inl fun zero => ?_)
  exact absurd (mem_single.mp zero) (Nat.ne_of_lt positive)

/-- Multiplication by a value, of which no product is capped, scales each run, and both division by
    the value and the cofactor for it undo it. -/
theorem scaling_undone (valid : d.validate = .ok ()) (positive : 0 < v) (bound : v ≤ maxValue)
    (fits : d = .empty ∨ ∃ top, d.greatest? = .ok (some top) ∧ top * v ≤ maxValue) :
    ∃ r, d.mulValue v = .ok r ∧ r.validate = .ok () ∧
      (∀ u, r.IsRun u ↔ ∃ p, d.IsRun p ∧ u = p.scale v) ∧
      r.divValue v = .ok d ∧ r.cofactorValue v = .ok d := by
  rw [validate_eq_ok_iff] at valid
  have uncapped : ∀ x ∈ d, x * v ≤ maxValue := by
    intro x member
    rcases fits with rfl | ⟨top, greatest, fits⟩
    · exact (mem_empty.mp member).elim
    · obtain ⟨largest, executed, _, above⟩ :=
        valid.greatest?_isGreatest (by rintro rfl; exact mem_empty.mp member)
      cases executed.symm.trans greatest
      exact Nat.le_trans (Nat.mul_le_mul_right v (above x member)) fits
  obtain ⟨r, executed, denotes⟩ := mulValue_denotes valid bound uncapped
  have divided : r.divValue v = .ok d := by
    refine valid.rebuilt (divValue_denotes denotes.valid positive bound) fun q => ?_
    rw [denotes.mem_iff, valid.mem_iff_exists_isRun]
    exact exists_congr fun p => and_congr_right fun _ => Interval.mul_mem_scale positive
  refine ⟨r, executed, validate_eq_ok_iff.mpr denotes.valid, fun u => ?_, divided, ?_⟩
  · exact isRun_iff_scaled positive denotes
  · rw [cofactorValue_eq_divValue denotes.valid positive bound, divided]

/-- A mask becomes intervals up to nearly the largest value, and a mask again. -/
theorem scaling_undone_maskToIntervals :
    (Domain.mask 0x40000005#32).validate = .ok () ∧ 0 < 3333333 ∧ 3333333 ≤ maxValue ∧
      (Domain.mask 0x40000005#32).greatest? = .ok (some 30) ∧ 30 * 3333333 ≤ maxValue ∧
      ∃ r, (Domain.mask 0x40000005#32).mulValue 3333333 = .ok r ∧
        r.divValue 3333333 = .ok (.mask 0x40000005#32) ∧
        r.cofactorValue 3333333 = .ok (.mask 0x40000005#32) := by
  have greatest : (Domain.mask 0x40000005#32).greatest? = .ok (some 30) := by decide
  obtain ⟨r, executed, _, _, divided, cofactor⟩ := @scaling_undone (.mask 0x40000005#32) 3333333
    rfl (by decide) (by decide) (.inr ⟨30, greatest, by decide⟩)
  exact ⟨rfl, by decide, by decide, greatest, by decide, r, executed, divided, cofactor⟩

end Domain

end IntegerDomains

import IntegerDomains.Domain.Intersection
import IntegerDomains.Domain.Removal
import IntegerDomains.Proofs.Cuts
import IntegerDomains.Proofs.Denotation

namespace IntegerDomains.Domain

open Intervals

/-- Clearing bits of a mask that fits leaves the members whose bits are kept. -/
private theorem ofMask_and_denotes {m kept : Mask} {P : Nat → Prop} (fits : m.Fits)
    (bits : ∀ v ≤ maskMax, kept.getLsbD v = true ↔ P v) :
    ∃ r, ofMask (m &&& kept) = .ok r ∧ r.Denotes fun v => v ∈ Domain.mask m ∧ P v := by
  have both : ∀ v, (m &&& kept).getLsbD v = true ↔ v ∈ Domain.mask m ∧ P v := fun v => by
    rw [BitVec.getLsbD_and, Bool.and_eq_true, mem_mask]
    exact and_congr_right fun set => bits v (fits v set)
  obtain ⟨r, executed, denotes⟩ := ofMask_denotes fun v set => fits v ((both v).mp set).1
  exact ⟨r, executed, denotes.congr both⟩

/-- What is cut from the intervals of a well-formed domain is brought into smallest form. -/
private theorem ofSeparated_cut_denotes {s t : List Interval} {P : Nat → Prop}
    (valid : (Domain.intervals s).Valid)
    (cut : Separated t ∧ ∀ v, Covers t v ↔ Covers s v ∧ P v) :
    ∃ r, ofSeparated t = .ok r ∧ r.Denotes fun v => v ∈ Domain.intervals s ∧ P v := by
  obtain ⟨r, executed, denotes⟩ := ofSeparated_denotes cut.1 fun v covered =>
    valid.2.1 v ((cut.2 v).mp covered).1
  exact ⟨r, executed, denotes.congr cut.2⟩

private theorem single_denotes {v : Nat} {goes : Prop} [Decidable goes] {P : Nat → Prop}
    (bound : v ≤ maxValue) (leaves : P v ↔ ¬goes) :
    ∃ r, (.ok (if goes then .empty else .single v) : Except Fault Domain) = .ok r ∧
      r.Denotes fun w => w ∈ Domain.single v ∧ P w := by
  refine ⟨_, rfl, ?_⟩
  split
  · next gone =>
    refine denotes_empty ?_
    rintro w ⟨same, stays⟩
    obtain rfl := mem_single.mp same
    exact leaves.mp stays gone
  · next kept =>
    refine denotes_single bound fun w => ?_
    rw [mem_single]
    refine and_iff_left_of_imp ?_
    rintro rfl
    exact leaves.mpr kept

private theorem ofSeparated_single {r : Interval} (one : r.isSingle = true) :
    ofSeparated [r] = .ok (.single r.lo) := by
  have same := Interval.isSingle_iff.mp one
  simp [ofSeparated, isSeparated, hasGaps, ofRuns, one, same]

/-- Of one interval of at most two values the cut leaves at most one of them. -/
private theorem eraseAt_one {u r : Interval} {index v : Nat} (here : [u][index]? = some r)
    (inside : v ∈ r) : eraseAt [u] index v = ofSeparated (cutAt index v [u]) := by
  obtain ⟨rfl, rfl⟩ : index = 0 ∧ u = r := by simpa [List.getElem?_singleton] using here
  have parts : cutAt 0 v [u] = u.without v := by simp [cutAt]
  rw [eraseAt]
  split
  · next one =>
    rw [parts, Interval.without_of_isSingle one inside]
    rfl
  · split
    · next pair =>
      rw [parts, Interval.without_of_pair pair inside]
      exact (ofSeparated_single (Interval.isSingle_single _)).symm
    · rfl

/-- Of two intervals of one value each the cut leaves the one that does not hold the value. -/
private theorem eraseAt_two {u next r : Interval} {index v : Nat}
    (here : [u, next][index]? = some r) (inside : v ∈ r) :
    eraseAt [u, next] index v = ofSeparated (cutAt index v [u, next]) := by
  rw [eraseAt]
  split
  · next singles =>
    obtain ⟨uSingle, nextSingle⟩ := Bool.and_eq_true_iff.mp singles
    match index, here with
    | 0, here =>
      obtain rfl : u = r := Option.some.inj here
      have rest : cutAt 0 v [u, next] = [next] := by
        simp [cutAt, Interval.without_of_isSingle uSingle inside]
      rw [rest, ofSeparated_single nextSingle]
      rfl
    | 1, here =>
      obtain rfl : next = r := Option.some.inj here
      have rest : cutAt 1 v [u, next] = [u] := by
        simp [cutAt, Interval.without_of_isSingle nextSingle inside]
      rw [rest, ofSeparated_single uSingle]
      rfl
  · rfl

/-- The shortcuts for one value left over answer what the general cut does. -/
theorem eraseAt_eq_ofSeparated {s : List Interval} {index v : Nat} {r : Interval}
    (here : s[index]? = some r) (inside : v ∈ r) :
    eraseAt s index v = ofSeparated (cutAt index v s) := by
  match s with
  | [_] => exact eraseAt_one here inside
  | [_, _] => exact eraseAt_two here inside
  | [] | _ :: _ :: _ :: _ => rfl

private theorem eraseAt_denotes {s : List Interval} (valid : (Domain.intervals s).Valid)
    {index v : Nat} (found : Intervals.locate? v s = some index) :
    ∃ r, eraseAt s index v = .ok r ∧ r.Denotes fun w => w ∈ Domain.intervals s ∧ w ≠ v := by
  obtain ⟨r, here, inside⟩ := getElem?_of_locate? found
  rw [eraseAt_eq_ofSeparated here inside]
  exact ofSeparated_cut_denotes valid (cutAt_covers valid.1 here inside)

/-- A value that is no member is left where it is not. -/
theorem Valid.denotes_of_not_mem {d : Domain} (valid : d.Valid) {v : Nat} (outside : v ∉ d) :
    d.Denotes fun w => w ∈ d ∧ w ≠ v :=
  valid.denotes.congr fun w => by
    refine (and_iff_left_of_imp fun member => ?_).symm
    rintro rfl
    exact outside member

private theorem others_denotes {d : Domain} (valid : d.Valid) (v : Nat) :
    ∃ r, others v d = .ok r ∧ r.Denotes fun w => w ∈ d ∧ w ≠ v := by
  cases d with
  | empty => exact ⟨.empty, rfl, valid.denotes_of_not_mem mem_empty.mp⟩
  | single w => exact single_denotes valid Iff.rfl
  | mask m =>
    rw [others]
    split
    · next beyond =>
      refine ⟨.mask m, rfl, valid.denotes_of_not_mem fun member => ?_⟩
      have bound := valid.1 v member
      omega
    · next within =>
      refine ofMask_and_denotes valid.1 fun w small => ?_
      rw [BitVec.getLsbD_not, Mask.getLsbD_bit]
      simp only [maskMax] at small
      simp only [Bool.and_eq_true, Bool.not_eq_true', Bool.and_eq_false_iff, decide_eq_true_eq,
        decide_eq_false_iff_not]
      omega
  | intervals s =>
    rw [others]
    split
    · next missing =>
      refine ⟨.intervals s, rfl, valid.denotes_of_not_mem fun member => ?_⟩
      have found := (isSome_locate?_iff valid.1).mpr member
      rw [missing] at found
      exact Bool.noConfusion found
    · next index found => exact eraseAt_denotes valid found

theorem erase_denotes {d : Domain} (valid : d.Valid) (v : Nat) :
    ∃ r, d.erase v = .ok r ∧ r.Denotes fun w => w ∈ d ∧ w ≠ v :=
  checkUnary_denotes valid (others_denotes valid v)

private theorem lower_denotes {d : Domain} (valid : d.Valid) (v : Nat) :
    ∃ r, lower v d = .ok r ∧ r.Denotes fun w => w ∈ d ∧ w < v := by
  cases d with
  | empty => exact ⟨.empty, rfl, denotes_empty fun w kept => mem_empty.mp kept.1⟩
  | single w => exact single_denotes valid Nat.not_le.symm
  | mask m =>
    rw [lower]
    split
    · next beyond =>
      refine ⟨.mask m, rfl, valid.denotes.congr fun w => ?_⟩
      refine (and_iff_left_of_imp fun member => ?_).symm
      have bound := valid.1 w member
      omega
    · refine ofMask_and_denotes valid.1 fun w small => ?_
      rw [Mask.getLsbD_below, Bool.and_eq_true, decide_eq_true_eq, decide_eq_true_eq]
      simp only [maskMax] at small
      omega
  | intervals s => exact ofSeparated_cut_denotes valid (below_covers v valid.1)

private theorem upper_denotes {d : Domain} (valid : d.Valid) (v : Nat) :
    ∃ r, upper v d = .ok r ∧ r.Denotes fun w => w ∈ d ∧ v < w := by
  cases d with
  | empty => exact ⟨.empty, rfl, denotes_empty fun w kept => mem_empty.mp kept.1⟩
  | single w => exact single_denotes valid Nat.not_le.symm
  | mask m =>
    rw [upper]
    split
    · next beyond =>
      refine ⟨.empty, rfl, denotes_empty ?_⟩
      rintro w ⟨member, above⟩
      have bound := valid.1 w member
      omega
    · refine ofMask_and_denotes valid.1 fun w small => ?_
      rw [Mask.getLsbD_above, decide_eq_true_eq]
      exact and_iff_left small
  | intervals s => exact ofSeparated_cut_denotes valid (above_covers v valid.1)

theorem below_denotes {d : Domain} (valid : d.Valid) {v : Nat} (admitted : v ≤ maxValue + 1) :
    ∃ r, d.below v = .ok r ∧ r.Denotes fun w => w ∈ d ∧ w < v := by
  rw [below, if_neg (Nat.not_lt.mpr admitted)]
  exact checkUnary_denotes valid (lower_denotes valid v)

theorem above_denotes {d : Domain} (valid : d.Valid) {v : Nat} (admitted : v ≤ maxValue + 1) :
    ∃ r, d.above v = .ok r ∧ r.Denotes fun w => w ∈ d ∧ v < w := by
  rw [above, if_neg (Nat.not_lt.mpr admitted)]
  exact checkUnary_denotes valid (upper_denotes valid v)

/-- Thresholds outside the values that a domain may hold keep all members or none. -/
theorem atLeast_denotes {d : Domain} (valid : d.Valid) (t : Int) :
    ∃ r, d.atLeast t = .ok r ∧ r.Denotes fun w => w ∈ d ∧ t ≤ (w : Int) := by
  rw [atLeast]
  split
  · refine ⟨d, rfl, valid.denotes.congr fun w => (and_iff_left ?_).symm⟩
    omega
  · split
    · refine ⟨.empty, rfl, denotes_empty ?_⟩
      rintro w ⟨member, kept⟩
      have bound := valid.le_maxValue member
      omega
    · obtain ⟨r, executed, denotes⟩ := above_denotes valid (v := (t - 1).toNat) (by omega)
      refine ⟨r, executed, denotes.congr fun w => and_congr_right fun _ => ?_⟩
      omega

theorem atMost_denotes {d : Domain} (valid : d.Valid) (t : Int) :
    ∃ r, d.atMost t = .ok r ∧ r.Denotes fun w => w ∈ d ∧ (w : Int) ≤ t := by
  rw [atMost]
  split
  · refine ⟨d, rfl, valid.denotes.congr fun w => ?_⟩
    refine (and_iff_left_of_imp fun member => ?_).symm
    have bound := valid.le_maxValue member
    omega
  · split
    · refine ⟨.empty, rfl, denotes_empty ?_⟩
      rintro w ⟨_, kept⟩
      omega
    · obtain ⟨r, executed, denotes⟩ := below_denotes valid (v := (t + 1).toNat) (by omega)
      refine ⟨r, executed, denotes.congr fun w => and_congr_right fun _ => ?_⟩
      omega

/-- Zero is the only value that stands for false. -/
theorem resolve_denotes {d : Domain} (valid : d.Valid) (truth : Bool) :
    ∃ r, d.resolve truth = .ok r ∧ r.Denotes fun w => w ∈ d ∧ (w ≠ 0 ↔ truth = true) := by
  rw [resolve]
  split
  · next holds =>
    obtain ⟨r, executed, denotes⟩ := erase_denotes valid 0
    exact ⟨r, executed, denotes.congr fun w => by simp [holds]⟩
  · next fails =>
    obtain ⟨r, executed, denotes⟩ := atMost_denotes valid 0
    refine ⟨r, executed, denotes.congr fun w => and_congr_right fun _ => ?_⟩
    simp only [fails, iff_false, Decidable.not_not, Bool.false_eq_true]
    omega

theorem interValue_denotes {d : Domain} (valid : d.Valid) (v : Nat) :
    ∃ r, d.interValue v = .ok r ∧ r.Denotes fun w => w ∈ d ∧ w = v := by
  rw [interValue, checkOperand_eq_ok valid]
  refine ⟨_, rfl, ?_⟩
  split
  · next held =>
    have member := valid.contains_iff.mp held
    refine denotes_single (valid.le_maxValue member) fun w => and_iff_right_of_imp ?_
    rintro rfl
    exact member
  · next missing =>
    refine denotes_empty ?_
    rintro w ⟨member, rfl⟩
    exact missing (valid.contains_iff.mpr member)

/-- A mask and a sequence have in common what the mask of the sequence keeps. -/
private theorem ofMask_and_ofIntervals_denotes {m : Mask} {s : List Interval}
    (left : (Domain.mask m).Valid) (right : (Domain.intervals s).Valid) :
    ∃ n, Mask.ofIntervals s = .ok n ∧ ∃ r, ofMask (m &&& n) = .ok r ∧
      r.Denotes fun v => v ∈ Domain.mask m ∧ v ∈ Domain.intervals s := by
  obtain ⟨n, executed, bits⟩ := Mask.ofIntervals_covers s right.1
  exact ⟨n, executed, ofMask_and_denotes left.1 fun v small =>
    (bits v).trans (and_iff_right small)⟩

private theorem common_denotes {d e : Domain} (left : d.Valid) (right : e.Valid) :
    ∃ r, common d e = .ok r ∧ r.Denotes fun v => v ∈ d ∧ v ∈ e := by
  cases d with
  | empty =>
    refine ⟨.empty, by cases e <;> rfl, denotes_empty fun v both => mem_empty.mp both.1⟩
  | single v =>
    cases e with
    | empty => exact ⟨.empty, rfl, denotes_empty fun v both => mem_empty.mp both.2⟩
    | _ =>
      obtain ⟨r, executed, denotes⟩ := interValue_denotes right v
      exact ⟨r, executed, denotes.congr fun w => and_comm⟩
  | mask m =>
    cases e with
    | empty => exact ⟨.empty, rfl, denotes_empty fun v both => mem_empty.mp both.2⟩
    | single v => exact interValue_denotes left v
    | mask n => exact ofMask_and_denotes left.1 fun v _ => Iff.rfl
    | intervals s =>
      obtain ⟨n, executed, r, built, denotes⟩ := ofMask_and_ofIntervals_denotes left right
      exact ⟨r, by rw [common, executed]; exact built, denotes⟩
  | intervals s =>
    cases e with
    | empty => exact ⟨.empty, rfl, denotes_empty fun v both => mem_empty.mp both.2⟩
    | single v => exact interValue_denotes left v
    | mask m =>
      obtain ⟨n, executed, r, built, denotes⟩ := ofMask_and_ofIntervals_denotes right left
      exact ⟨r, by rw [common, executed]; exact built, denotes.congr fun v => and_comm⟩
    | intervals t => exact ofSeparated_cut_denotes left (meet_covers s t left.1 right.1)

theorem inter_denotes {d e : Domain} (left : d.Valid) (right : e.Valid) :
    ∃ r, d.inter e = .ok r ∧ r.Denotes fun v => v ∈ d ∧ v ∈ e :=
  checkBinary_denotes left right (common_denotes left right)

private theorem apart_comm {d e : Domain} : (∀ v ∈ d, v ∉ e) ↔ ∀ v ∈ e, v ∉ d :=
  ⟨fun apart v right left => apart v left right, fun apart v left right => apart v right left⟩

/-- One value is apart from a domain that does not have it. -/
private theorem Valid.not_contains_iff {d : Domain} (valid : d.Valid) {v : Nat} :
    (!d.contains v) = true ↔ ∀ w ∈ Domain.single v, w ∉ d := by
  rw [Bool.not_eq_true', ← Bool.not_eq_true, valid.contains_iff]
  constructor
  · rintro missing w rfl
    exact missing
  · exact fun apart => apart v rfl

private theorem mask_and_eq_zero_iff {m n : Mask} :
    (m &&& n == 0#32) = true ↔ ∀ v ∈ Domain.mask m, v ∉ Domain.mask n := by
  rw [beq_iff_eq, Mask.eq_zero_iff]
  refine forall_congr' fun v => ?_
  rw [BitVec.getLsbD_and, mem_mask, mem_mask]
  simp

private theorem isApart_mask_intervals {m : Mask} {s : List Interval} (left : (Domain.mask m).Valid)
    (right : (Domain.intervals s).Valid) :
    ∃ n, Mask.ofIntervals s = .ok n ∧
      ((m &&& n == 0#32) = true ↔ ∀ v ∈ Domain.mask m, v ∉ Domain.intervals s) := by
  obtain ⟨n, executed, bits⟩ := Mask.ofIntervals_covers s right.1
  refine ⟨n, executed, mask_and_eq_zero_iff.trans (forall₂_congr fun v member => not_congr ?_)⟩
  exact (bits v).trans (and_iff_right (left.1 v member))

private theorem isApart_eq {d e : Domain} (left : d.Valid) (right : e.Valid) :
    ∃ b, isApart d e = .ok b ∧ (b = true ↔ ∀ v ∈ d, v ∉ e) := by
  cases d with
  | empty =>
    exact ⟨true, by cases e <;> rfl, iff_of_true rfl fun v member => (mem_empty.mp member).elim⟩
  | single v =>
    cases e with
    | empty => exact ⟨true, rfl, iff_of_true rfl fun w _ => mem_empty.mp⟩
    | _ => exact ⟨_, rfl, right.not_contains_iff⟩
  | mask m =>
    cases e with
    | empty => exact ⟨true, rfl, iff_of_true rfl fun v _ => mem_empty.mp⟩
    | single v => exact ⟨_, rfl, left.not_contains_iff.trans apart_comm⟩
    | mask n => exact ⟨_, rfl, mask_and_eq_zero_iff⟩
    | intervals s =>
      obtain ⟨n, executed, apart⟩ := isApart_mask_intervals left right
      exact ⟨_, by rw [isApart, executed]; rfl, apart⟩
  | intervals s =>
    cases e with
    | empty => exact ⟨true, rfl, iff_of_true rfl fun v _ => mem_empty.mp⟩
    | single v => exact ⟨_, rfl, left.not_contains_iff.trans apart_comm⟩
    | mask m =>
      obtain ⟨n, executed, apart⟩ := isApart_mask_intervals right left
      exact ⟨_, by rw [isApart, executed]; rfl, apart.trans apart_comm⟩
    | intervals t =>
      refine ⟨_, rfl, ?_⟩
      rw [Bool.not_eq_true', ← Bool.not_eq_true, meets_iff s t left.1 right.1, not_exists]
      exact forall_congr' fun v => not_and

/-- Two domains are disjoint exactly if no value is a member of both. -/
theorem disjoint_eq {d e : Domain} (left : d.Valid) (right : e.Valid) :
    ∃ b, d.disjoint e = .ok b ∧ (b = true ↔ ∀ v ∈ d, v ∉ e) := by
  rw [disjoint, checkOperand_eq_ok left, checkOperand_eq_ok right]
  exact isApart_eq left right

end IntegerDomains.Domain

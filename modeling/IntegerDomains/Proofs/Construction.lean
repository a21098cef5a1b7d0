import IntegerDomains.Domain.Build
import IntegerDomains.Packed
import IntegerDomains.Proofs.Denotation
import IntegerDomains.Proofs.Outcomes

namespace IntegerDomains

open Intervals

namespace Domain

theorem ofValue_eq_ok {v : Nat} (bound : v ≤ maxValue) : ofValue v = .ok (.single v) :=
  if_pos bound

theorem ofValue_denotes {v : Nat} (bound : v ≤ maxValue) :
    ∃ d, ofValue v = .ok d ∧ d.Denotes fun w => w = v :=
  ⟨.single v, ofValue_eq_ok bound, denotes_single bound fun _ => Iff.rfl⟩

theorem ofBounds_denotes {lo hi : Nat} (ordered : lo ≤ hi) (bound : hi ≤ maxValue) :
    ∃ d, ofBounds lo hi = .ok d ∧ d.Denotes fun v => lo ≤ v ∧ v ≤ hi := by
  rw [ofBounds, if_neg (by omega), if_neg (by omega)]
  by_cases same : lo = hi
  · rw [if_pos same]
    exact ⟨.single lo, rfl, denotes_single (by omega) fun w => by omega⟩
  rw [if_neg same]
  by_cases small : hi ≤ maskMax
  · have bits : ∀ v, (Mask.block lo hi).getLsbD v = true ↔ lo ≤ v ∧ v ≤ hi := fun v =>
      Mask.getLsbD_ofBlock small
    refine ⟨.mask (Mask.block lo hi), by rw [if_pos small, Mask.ofBounds_eq_ok ordered small]; rfl,
      ⟨fun v member => ?_, lo, ?_, hi, ?_, same⟩, bits⟩
    · exact Nat.le_trans ((bits v).mp member).2 small
    · exact (bits lo).mpr ⟨Nat.le_refl lo, ordered⟩
    · exact (bits hi).mpr ⟨ordered, Nat.le_refl hi⟩
  · have covers : ∀ v, Covers [⟨lo, hi⟩] v ↔ lo ≤ v ∧ v ≤ hi := fun v => by
      simp [Interval.mem_iff]
    refine ⟨.intervals [⟨lo, hi⟩], if_neg small,
      ⟨separated_single ordered, fun v covered => ?_, ⟨hi, ?_, Nat.lt_of_not_le small⟩, lo, ?_, hi,
        ?_, same⟩, covers⟩
    · exact Nat.le_trans ((covers v).mp covered).2 bound
    · exact (covers hi).mpr ⟨ordered, Nat.le_refl hi⟩
    · exact (covers lo).mpr ⟨Nat.le_refl lo, ordered⟩
    · exact (covers hi).mpr ⟨ordered, Nat.le_refl hi⟩

theorem ofBoundsWithin_denotes (lo hi : Int) :
    ∃ d, ofBoundsWithin lo hi = .ok d ∧
      d.Denotes fun v => v ≤ maxValue ∧ lo ≤ (v : Int) ∧ (v : Int) ≤ hi := by
  rw [ofBoundsWithin]
  split
  · next outside =>
    refine ⟨.empty, rfl, denotes_empty ?_⟩
    simp only [minValue, maxValue] at *
    omega
  · next within =>
    have ordered : (max lo minValue).toNat ≤ (min hi maxValue).toNat := by
      simp only [minValue, maxValue] at *
      omega
    obtain ⟨d, executed, denotes⟩ := ofBounds_denotes ordered (by omega)
    refine ⟨d, executed, denotes.congr fun v => ?_⟩
    simp only [minValue, maxValue] at *
    omega

theorem zeroAnd_denotes {v : Nat} (bound : v ≤ maxValue) :
    ∃ d, zeroAnd v = .ok d ∧ d.Denotes fun w => w = 0 ∨ w = v := by
  rw [zeroAnd]
  by_cases zero : v = 0
  · rw [if_pos zero]
    obtain ⟨d, executed, denotes⟩ := ofValue_denotes (v := 0) (by decide)
    exact ⟨d, executed, denotes.congr fun w => by omega⟩
  rw [if_neg zero]
  by_cases one : v = 1
  · rw [if_pos one]
    obtain ⟨d, executed, denotes⟩ := ofBounds_denotes (Nat.zero_le 1) (by decide)
    exact ⟨d, executed, denotes.congr fun w => by omega⟩
  rw [if_neg one, if_neg (Nat.not_lt.mpr bound)]
  have covers : ∀ w, Covers [Interval.single 0, Interval.single v] w ↔ w = 0 ∨ w = v := fun w => by
    simp only [covers_cons, covers_nil, or_false, Interval.mem_iff, Interval.single]
    omega
  have separated : Separated [Interval.single 0, Interval.single v] :=
    separated_cons.mpr ⟨Nat.le_refl 0, by simp [Interval.single]; omega,
      separated_single (Nat.le_refl v)⟩
  obtain ⟨d, executed, denotes⟩ := ofSeparated_denotes separated fun w covered => by
    rcases (covers w).mp covered with rfl | rfl
    · exact Nat.zero_le _
    · exact bound
  exact ⟨d, executed, denotes.congr covers⟩

/-- Ascending values extend the last interval or begin a new one behind a gap. -/
private theorem gatherFrom_covers (last : Interval) (vs : List Nat) (ordered : last.lo ≤ last.hi)
    (ascending : (last.hi :: vs).Pairwise (· ≤ ·)) (bounded : ∀ v ∈ last.hi :: vs, v ≤ maxValue) :
    ∃ s, gatherFrom last vs = .ok s ∧ Separated s ∧ (∀ v, Covers s v ↔ v ∈ last ∨ v ∈ vs) ∧
      ∀ r ∈ s, last.lo ≤ r.lo := by
  induction vs generalizing last with
  | nil => exact ⟨[last], rfl, separated_single ordered, fun v => by simp, by simp⟩
  | cons v rest ih =>
    obtain ⟨afterLast, restAscending⟩ := List.pairwise_cons.mp ascending
    obtain ⟨lastBound, restBounded⟩ := List.forall_mem_cons.mp bounded
    have next := afterLast v List.mem_cons_self
    have bound := restBounded v List.mem_cons_self
    have reach : Word.add last.hi 1 = .ok (last.hi + 1) :=
      Word.add_eq_ok_of_le (by omega)
    rw [gatherFrom, if_neg (Nat.not_lt.mpr bound), reach]
    simp only [bind, Except.bind]
    by_cases touches : v ≤ last.hi + 1
    · rw [if_pos touches, Nat.max_eq_right next]
      obtain ⟨s, executed, separated, covers, starts⟩ :=
        ih ⟨last.lo, v⟩ (Nat.le_trans ordered next) restAscending restBounded
      refine ⟨s, executed, separated, fun w => ?_, starts⟩
      rw [covers, List.mem_cons, ← or_assoc, Interval.mem_iff, Interval.mem_iff]
      refine or_congr_left ?_
      simp only
      omega
    · rw [if_neg touches]
      obtain ⟨s, executed, separated, covers, starts⟩ :=
        ih (Interval.single v) (Nat.le_refl v) restAscending restBounded
      refine ⟨last :: s, by rw [executed]; rfl, ?_, fun w => ?_, ?_⟩
      · refine separated_cons.mpr ⟨ordered, fun later member => ?_, separated⟩
        have start : v ≤ later.lo := starts later member
        omega
      · rw [covers_cons, covers, List.mem_cons, Interval.mem_iff (r := Interval.single v)]
        refine or_congr_right (or_congr_left ?_)
        simp only [Interval.single]
        omega
      · refine List.forall_mem_cons.mpr ⟨Nat.le_refl _, fun later member => ?_⟩
        have start : v ≤ later.lo := starts later member
        omega

private theorem gather_covers {vs : List Nat} (ascending : vs.Pairwise (· ≤ ·))
    (bounded : ∀ v ∈ vs, v ≤ maxValue) :
    ∃ s, gather vs = .ok s ∧ Separated s ∧ ∀ v, Covers s v ↔ v ∈ vs := by
  cases vs with
  | nil => exact ⟨[], rfl, separated_nil, fun v => by simp⟩
  | cons v rest =>
    obtain ⟨s, executed, separated, covers, _⟩ :=
      gatherFrom_covers (Interval.single v) rest (Nat.le_refl v) ascending bounded
    have bound := bounded v List.mem_cons_self
    refine ⟨s, by rw [gather, if_neg (Nat.not_lt.mpr bound), executed], separated, fun w => ?_⟩
    rw [covers, List.mem_cons, Interval.mem_iff, Interval.single]
    refine or_congr_left ?_
    simp only
    omega

theorem ofList_denotes {values : List Nat} (bounded : ∀ v ∈ values, v ≤ maxValue) :
    ∃ d, ofList values = .ok d ∧ d.Denotes (· ∈ values) := by
  obtain ⟨s, executed, separated, covers⟩ :=
    gather_covers (List.pairwise_mergeSort' (· ≤ ·) values)
      fun v member => bounded v (List.mem_mergeSort.mp member)
  have covers : ∀ v, Covers s v ↔ v ∈ values := fun v => (covers v).trans List.mem_mergeSort
  obtain ⟨d, built, denotes⟩ := ofSeparated_denotes separated fun v covered =>
    bounded v ((covers v).mp covered)
  exact ⟨d, by rw [ofList, executed]; exact built, denotes.congr covers⟩

theorem intervalOfPair_eq_ok_iff {pair : Nat × Nat} {r : Interval} :
    intervalOfPair pair = .ok r ↔
      (pair.1 ≤ pair.2 ∧ pair.2 ≤ maxValue) ∧ r = ⟨pair.1, pair.2⟩ := by
  rw [intervalOfPair]
  by_cases reversed : pair.2 < pair.1
  · rw [if_pos reversed]
    exact iff_of_false (by simp) (by omega)
  rw [if_neg reversed]
  by_cases beyond : maxValue < pair.2
  · rw [if_pos beyond]
    exact iff_of_false (by simp) (by omega)
  · rw [if_neg beyond, Except.ok.injEq, eq_comm]
    exact (and_iff_right (by omega)).symm

theorem tryOfPairs_denotes {pairs : List (Nat × Nat)}
    (accepted : ∀ pair ∈ pairs, pair.1 ≤ pair.2 ∧ pair.2 ≤ maxValue) :
    ∃ d, tryOfPairs pairs = .ok d ∧
      d.Denotes fun v => ∃ pair ∈ pairs, pair.1 ≤ v ∧ v ≤ pair.2 := by
  have each : ∀ pair ∈ pairs, intervalOfPair pair = .ok ⟨pair.1, pair.2⟩ := fun pair member =>
    intervalOfPair_eq_ok_iff.mpr ⟨accepted pair member, rfl⟩
  obtain ⟨s, executed, results⟩ := mapM_total fun pair member => ⟨_, each pair member⟩
  have members : ∀ r, r ∈ s ↔ ∃ pair ∈ pairs, r = ⟨pair.1, pair.2⟩ := fun r => by
    rw [results]
    refine exists_congr fun pair => and_congr_right fun member => ?_
    rw [each pair member, Except.ok.injEq, eq_comm]
  obtain ⟨d, built, denotes⟩ := ofIntervals_denotes (s := s) fun r member => by
    obtain ⟨pair, given, rfl⟩ := (members r).mp member
    exact accepted pair given
  refine ⟨d, ?_, denotes.congr fun v => ?_⟩
  · rw [tryOfPairs, mapError_eq_ok_iff.mpr executed]
    exact mapError_eq_ok_iff.mpr built
  · constructor
    · rintro ⟨r, member, inside⟩
      obtain ⟨pair, given, rfl⟩ := (members r).mp member
      exact ⟨pair, given, inside⟩
    · rintro ⟨pair, given, inside⟩
      exact ⟨_, (members _).mpr ⟨pair, given, rfl⟩, inside⟩

theorem ofPairs_denotes {pairs : List (Nat × Nat)}
    (accepted : ∀ pair ∈ pairs, pair.1 ≤ pair.2 ∧ pair.2 ≤ maxValue) :
    ∃ d, ofPairs pairs = .ok d ∧
      d.Denotes fun v => ∃ pair ∈ pairs, pair.1 ≤ v ∧ v ≤ pair.2 := by
  obtain ⟨d, executed, denotes⟩ := tryOfPairs_denotes accepted
  exact ⟨d, mapError_eq_ok_iff.mpr executed, denotes⟩

end Domain

namespace Packed

/-- The intervals of all groups of four words, inverted ones included. -/
def allGroups : List UInt16 → List Interval
  | a :: b :: c :: d :: rest => toInterval a b c d :: allGroups rest
  | _ => []

/-- All groups are decoded exactly if none of them is inverted. -/
theorem groups_eq_ok_iff {words : List UInt16} {s : List Interval} :
    groups words = .ok s ↔ (∀ r ∈ allGroups words, r.lo ≤ r.hi) ∧ s = allGroups words := by
  fun_induction allGroups words generalizing s with
  | case1 a b c d rest ih =>
    rw [groups, List.forall_mem_cons]
    constructor
    · intro executed
      split at executed
      · exact absurd executed (by simp)
      · next ordered =>
        obtain ⟨t, decoded, built⟩ := exists_of_bind_eq_ok executed
        obtain ⟨others, rfl⟩ := ih.mp decoded
        exact ⟨⟨Nat.le_of_not_lt ordered, others⟩, (Except.ok.inj built).symm⟩
    · rintro ⟨⟨first, others⟩, rfl⟩
      simp only [Nat.not_lt.mpr first, if_false, ih.mpr ⟨others, rfl⟩]
      rfl
  | case2 words short =>
    rw [groups]
    · simp [eq_comm]
    · exact short

end Packed

namespace Domain

theorem ofPacked_denotes {words : List UInt16} (whole : words.length % 4 = 0)
    (accepted : ∀ r ∈ Packed.allGroups words, r.lo ≤ r.hi ∧ r.hi ≤ maxValue) :
    ∃ d, ofPacked words = .ok d ∧ d.Denotes (Covers (Packed.allGroups words)) := by
  have decoded : Packed.toIntervals words = .ok (Packed.allGroups words) := by
    rw [Packed.toIntervals, if_neg (not_not_intro whole)]
    exact Packed.groups_eq_ok_iff.mpr ⟨fun r member => (accepted r member).1, rfl⟩
  have none : (Packed.allGroups words).find? (fun r => decide (maxValue < r.hi)) = none := by
    refine List.find?_eq_none.mpr fun r member => ?_
    rw [decide_eq_true_eq]
    exact Nat.not_lt.mpr (accepted r member).2
  obtain ⟨d, built, denotes⟩ := ofIntervals_denotes accepted
  refine ⟨d, ?_, denotes⟩
  rw [ofPacked, mapError_eq_ok_iff.mpr decoded]
  simp only [bind, Except.bind, none]
  exact mapError_eq_ok_iff.mpr built

/-- Smearing sets the bits up to the largest member. -/
private theorem Valid.getLsbD_smear {m : Mask} (valid : (Domain.mask m).Valid) :
    m ≠ 0#32 ∧ ∀ v, m.smear.getLsbD v = true ↔ ∃ w ∈ Domain.mask m, v ≤ w := by
  obtain ⟨u, inside⟩ := valid.exists_mem (by simp)
  have nonzero := Mask.ne_zero_of_bit (mem_mask.mp inside)
  refine ⟨nonzero, fun v => ?_⟩
  rw [Mask.getLsbD_smear nonzero]
  constructor
  · exact fun bound => ⟨m.highest, Mask.getLsbD_highest nonzero, bound⟩
  · rintro ⟨w, set, bound⟩
    exact Nat.le_trans bound (Mask.le_highest set)

/-- The values up to the largest member are those up to any member. -/
theorem Valid.le_greatest_iff {d : Domain} (valid : d.Valid) {top : Nat}
    (greatest : d.greatest? = .ok (some top)) {v : Nat} : v ≤ top ↔ ∃ w ∈ d, v ≤ w := by
  have nonempty : d ≠ .empty := by
    rintro rfl
    simp [greatest?] at greatest
  obtain ⟨last, answered, member, above⟩ := valid.greatest?_isGreatest nonempty
  cases answered.symm.trans greatest
  constructor
  · intro bound
    exact ⟨top, member, bound⟩
  · rintro ⟨w, inside, bound⟩
    exact Nat.le_trans bound (above w inside)

/-- Filling up reaches from zero to the largest member. -/
theorem Valid.fill_denotes {d : Domain} (valid : d.Valid) :
    ∃ r, d.fill = .ok r ∧ r.Denotes fun v => ∃ w ∈ d, v ≤ w := by
  by_cases nonempty : d = .empty
  · subst nonempty
    exact ⟨.empty, rfl, denotes_empty (by simp [mem_empty])⟩
  obtain ⟨top, executed, member, _⟩ := valid.greatest?_isGreatest nonempty
  obtain ⟨r, built, denotes⟩ := ofBounds_denotes (Nat.zero_le top) (valid.le_maxValue member)
  have upTo : r.Denotes fun v => ∃ w ∈ d, v ≤ w :=
    denotes.congr fun v => by simp [valid.le_greatest_iff executed]
  cases d with
  | empty => exact absurd rfl nonempty
  | mask m =>
    obtain ⟨nonzero, bits⟩ := valid.getLsbD_smear
    have fits : m.smear.Fits := fun v set => by
      obtain ⟨w, inside, bound⟩ := (bits v).mp set
      exact Nat.le_trans bound (valid.1 w inside)
    obtain ⟨r, built, denotes⟩ := ofMask_denotes fits
    refine ⟨r, ?_, denotes.congr bits⟩
    rw [fill, Mask.fill_eq_ok nonzero]
    exact built
  | single v => exact ⟨r, by simpa [fill, executed, bind, Except.bind] using built, upTo⟩
  | intervals s => exact ⟨r, by simpa [fill, executed, bind, Except.bind] using built, upTo⟩

/-- The smallest form of a well-formed domain has its members. -/
theorem Valid.compact_denotes {d : Domain} (valid : d.Valid) :
    ∃ r, d.compact = .ok r ∧ r.Denotes (· ∈ d) := by
  obtain ⟨r, executed, stores⟩ := compact_stores valid.repairable
  exact ⟨r, executed, stores.denotes fun v => valid.le_maxValue⟩

theorem ofValue_accepts_iff {v : Nat} : (∃ d, ofValue v = .ok d) ↔ v ≤ maxValue := by
  constructor
  · rintro ⟨d, executed⟩
    rw [ofValue] at executed
    split at executed
    · assumption
    · exact absurd executed (by simp)
  · intro bound
    exact (ofValue_denotes bound).imp fun d answered => answered.1

theorem ofBounds_accepts_iff {lo hi : Nat} :
    (∃ d, ofBounds lo hi = .ok d) ↔ lo ≤ hi ∧ hi ≤ maxValue := by
  constructor
  · rintro ⟨d, executed⟩
    rw [ofBounds] at executed
    split at executed
    · exact absurd executed (by simp)
    · split at executed
      · exact absurd executed (by simp)
      · omega
  · rintro ⟨ordered, bound⟩
    exact (ofBounds_denotes ordered bound).imp fun d answered => answered.1

theorem zeroAnd_accepts_iff {v : Nat} : (∃ d, zeroAnd v = .ok d) ↔ v ≤ maxValue := by
  constructor
  · rintro ⟨d, executed⟩
    refine Nat.le_of_not_lt fun beyond => ?_
    have large : maxValue = 100000000 := rfl
    rw [zeroAnd, if_neg (by omega), if_neg (by omega), if_pos beyond] at executed
    exact absurd executed (by simp)
  · intro bound
    exact (zeroAnd_denotes bound).imp fun d answered => answered.1

private theorem bounded_of_gatherFrom {vs : List Nat} {last : Interval} {s : List Interval}
    (executed : gatherFrom last vs = .ok s) : ∀ v ∈ vs, v ≤ maxValue := by
  induction vs generalizing last s with
  | nil => exact fun v member => absurd member List.not_mem_nil
  | cons v rest ih =>
    rw [gatherFrom] at executed
    split at executed
    · exact absurd executed (by simp)
    · next within =>
      refine List.forall_mem_cons.mpr ⟨Nat.le_of_not_lt within, ?_⟩
      obtain ⟨reach, _, extended⟩ := exists_of_bind_eq_ok executed
      split at extended
      · exact ih extended
      · obtain ⟨t, gathered, _⟩ := exists_of_bind_eq_ok extended
        exact ih gathered

private theorem bounded_of_gather {vs : List Nat} {s : List Interval}
    (executed : gather vs = .ok s) : ∀ v ∈ vs, v ≤ maxValue := by
  cases vs with
  | nil => exact fun v member => absurd member List.not_mem_nil
  | cons v rest =>
    rw [gather] at executed
    split at executed
    · exact absurd executed (by simp)
    · next within =>
      exact List.forall_mem_cons.mpr ⟨Nat.le_of_not_lt within, bounded_of_gatherFrom executed⟩

theorem ofList_accepts_iff {values : List Nat} :
    (∃ d, ofList values = .ok d) ↔ ∀ v ∈ values, v ≤ maxValue := by
  constructor
  · rintro ⟨d, executed⟩ v member
    obtain ⟨s, gathered, _⟩ := exists_of_bind_eq_ok executed
    exact bounded_of_gather gathered v (List.mem_mergeSort.mpr member)
  · intro bounded
    exact (ofList_denotes bounded).imp fun d answered => answered.1

theorem ofList_eq_ok_iff {values : List Nat} {d : Domain} :
    ofList values = .ok d ↔ (∀ v ∈ values, v ≤ maxValue) ∧ d.Denotes (· ∈ values) :=
  eq_ok_iff_denotes ofList_accepts_iff ofList_denotes

theorem tryOfPairs_accepts_iff {pairs : List (Nat × Nat)} :
    (∃ d, tryOfPairs pairs = .ok d) ↔ ∀ pair ∈ pairs, pair.1 ≤ pair.2 ∧ pair.2 ≤ maxValue := by
  constructor
  · rintro ⟨d, executed⟩ pair member
    obtain ⟨s, mapped, _⟩ := exists_of_bind_eq_ok executed
    obtain ⟨r, converted⟩ := mapM_ok_each (mapError_eq_ok_iff.mp mapped) pair member
    exact (intervalOfPair_eq_ok_iff.mp converted).1
  · intro accepted
    exact (tryOfPairs_denotes accepted).imp fun d answered => answered.1

theorem ofPairs_accepts_iff {pairs : List (Nat × Nat)} :
    (∃ d, ofPairs pairs = .ok d) ↔ ∀ pair ∈ pairs, pair.1 ≤ pair.2 ∧ pair.2 ≤ maxValue := by
  rw [← tryOfPairs_accepts_iff]
  exact exists_congr fun d => mapError_eq_ok_iff

theorem ofPacked_accepts_iff {words : List UInt16} :
    (∃ d, ofPacked words = .ok d) ↔ words.length % 4 = 0 ∧
      ∀ r ∈ Packed.allGroups words, r.lo ≤ r.hi ∧ r.hi ≤ maxValue := by
  constructor
  · rintro ⟨d, executed⟩
    obtain ⟨s, decoded, checked⟩ := exists_of_bind_eq_ok executed
    have decoded := mapError_eq_ok_iff.mp decoded
    rw [Packed.toIntervals] at decoded
    split at decoded
    · exact absurd decoded (by simp)
    · next whole =>
      obtain ⟨ordered, rfl⟩ := Packed.groups_eq_ok_iff.mp decoded
      split at checked
      · exact absurd checked (by simp [throw, throwThe, MonadExceptOf.throw])
      · next none =>
        refine ⟨Decidable.not_not.mp whole, fun r member => ⟨ordered r member, ?_⟩⟩
        have within := List.find?_eq_none.mp none r member
        rw [decide_eq_true_eq] at within
        exact Nat.le_of_not_lt within
  · rintro ⟨whole, accepted⟩
    exact (ofPacked_denotes whole accepted).imp fun d answered => answered.1

end Domain

end IntegerDomains

import IntegerDomains.Proofs.Construction

namespace IntegerDomains.Domain

/-- Every pair bounds values that a domain may hold. -/
def ProperPairs (pairs : List (Nat × Nat)) : Prop :=
  ∀ pair ∈ pairs, pair.1 ≤ pair.2 ∧ pair.2 ≤ maxValue

/-- Some pair covers the value. -/
def PairsCover (pairs : List (Nat × Nat)) (v : Nat) : Prop :=
  ∃ pair ∈ pairs, pair.1 ≤ v ∧ v ≤ pair.2

/-- Why a pair is no interval of a domain: its order counts before its size. -/
inductive PairDefect : Nat × Nat → Defect → Prop
  | inverted {lo hi : Nat} (reversed : hi < lo) : PairDefect (lo, hi) (.inverted lo hi)
  | outOfBounds {lo hi : Nat} (ordered : lo ≤ hi) (beyond : maxValue < hi) :
    PairDefect (lo, hi) (.outOfBounds hi)

private theorem intervalOfPair_eq_error_iff {pair : Nat × Nat} {defect : Defect} :
    intervalOfPair pair = .error defect ↔ PairDefect pair defect := by
  constructor
  · obtain ⟨lo, hi⟩ := pair
    intro refused
    rw [intervalOfPair] at refused
    by_cases reversed : hi < lo
    · obtain rfl := Except.error.inj ((if_pos reversed).symm.trans refused)
      exact .inverted reversed
    rw [if_neg reversed] at refused
    by_cases beyond : maxValue < hi
    · obtain rfl := Except.error.inj ((if_pos beyond).symm.trans refused)
      exact .outOfBounds (Nat.le_of_not_lt reversed) beyond
    · rw [if_neg beyond] at refused
      exact absurd refused (by simp)
  · intro defective
    cases defective with
    | inverted reversed => exact if_pos reversed
    | outOfBounds ordered beyond => exact (if_neg (Nat.not_lt.mpr ordered)).trans (if_pos beyond)

private theorem intervalOfPair_fails_iff (pair : Nat × Nat) :
    (∃ defect, intervalOfPair pair = .error defect) ↔ ¬(pair.1 ≤ pair.2 ∧ pair.2 ≤ maxValue) :=
  exists_error_iff (by simp [intervalOfPair_eq_ok_iff])

theorem tryOfPairs_eq_ok_iff {pairs : List (Nat × Nat)} {d : Domain} :
    tryOfPairs pairs = .ok d ↔ ProperPairs pairs ∧ d.Denotes (PairsCover pairs) :=
  eq_ok_iff_denotes tryOfPairs_accepts_iff tryOfPairs_denotes

theorem tryOfPairs_eq_error_iff {pairs : List (Nat × Nat)} {refusal : Refusal} :
    tryOfPairs pairs = .error refusal ↔
      ∃ pair, IsFirst (fun p => ¬(p.1 ≤ p.2 ∧ p.2 ≤ maxValue)) pairs pair ∧
        ∃ defect, PairDefect pair defect ∧ refusal = .rejected defect := by
  have refused : tryOfPairs pairs = .error refusal ↔
      ∃ defect, pairs.mapM intervalOfPair = .error defect ∧ refusal = .rejected defect := by
    rw [tryOfPairs]
    cases mapped : pairs.mapM intervalOfPair with
    | error defect => simp [bind, Except.bind, eq_comm]
    | ok s =>
      have accepted : ∃ d, tryOfPairs pairs = .ok d := by
        apply tryOfPairs_accepts_iff.mpr
        intro pair member
        obtain ⟨r, converted⟩ := mapM_ok_each mapped pair member
        exact (intervalOfPair_eq_ok_iff.mp converted).1
      obtain ⟨d, executed⟩ := accepted
      rw [tryOfPairs, mapped] at executed
      simp only [executed, reduceCtorEq, false_and, exists_false]
  rw [refused]
  simp only [mapM_eq_error_iff intervalOfPair_fails_iff, intervalOfPair_eq_error_iff]
  constructor
  · rintro ⟨defect, ⟨pair, first, defective⟩, rfl⟩
    exact ⟨pair, first, defect, defective, rfl⟩
  · rintro ⟨pair, first, defect, defective, rfl⟩
    exact ⟨defect, ⟨pair, first, defective⟩, rfl⟩

/-- The answer to pairs: the domain of all values that they cover, or the defect of the first pair
    that is no interval of a domain. -/
def PairsAnswer (pairs : List (Nat × Nat)) : Except Refusal Domain → Prop
  | .ok d => ProperPairs pairs ∧ d.validate = .ok () ∧ ∀ v, d.contains v = true ↔ PairsCover pairs v
  | .error refusal => ∃ pair, IsFirst (fun p => ¬(p.1 ≤ p.2 ∧ p.2 ≤ maxValue)) pairs pair ∧
      ∃ defect, PairDefect pair defect ∧ refusal = .rejected defect

theorem tryOfPairs_eq_iff {pairs : List (Nat × Nat)} {answer : Except Refusal Domain} :
    tryOfPairs pairs = answer ↔ PairsAnswer pairs answer := by
  cases answer with
  | ok d => rw [tryOfPairs_eq_ok_iff, PairsAnswer, denotes_iff_contains]
  | error refusal => exact tryOfPairs_eq_error_iff

private theorem tryOfPairs_congr {pairs pairs' : List (Nat × Nat)} (proper : ProperPairs pairs)
    (proper' : ProperPairs pairs') (same : ∀ v, PairsCover pairs v ↔ PairsCover pairs' v) :
    tryOfPairs pairs = tryOfPairs pairs' := by
  obtain ⟨d, executed, denotes⟩ := tryOfPairs_denotes proper'
  rw [executed, tryOfPairs_eq_ok_iff]
  refine ⟨proper, denotes.congr ?_⟩
  intro v
  exact (same v).symm

theorem ofPairs_eq_error_iff {pairs : List (Nat × Nat)} {fault : Fault} :
    ofPairs pairs = .error fault ↔
      ∃ defect, tryOfPairs pairs = .error (.rejected defect) ∧ fault = .pairs defect := by
  rw [ofPairs]
  cases executed : tryOfPairs pairs with
  | ok d => simp
  | error refusal =>
    obtain ⟨_, _, defect, _, rfl⟩ := tryOfPairs_eq_error_iff.mp executed
    simp [eq_comm]

/-- Gathering stops at the first value that no domain may hold. -/
private theorem gatherFrom_eq_error {last : Interval} {vs : List Nat} {v : Nat}
    (bound : last.hi ≤ maxValue) (first : IsFirst (maxValue < ·) vs v) :
    gatherFrom last vs = .error (.malformed (.outOfBounds v)) := by
  induction vs generalizing last with
  | nil => simp [IsFirst] at first
  | cons w rest ih =>
    rw [gatherFrom]
    rcases isFirst_cons.mp first with ⟨beyond, rfl⟩ | ⟨within, later⟩
    · exact if_pos beyond
    · have reach : Word.add last.hi 1 = .ok (last.hi + 1) :=
        Word.add_eq_ok_of_le (by omega)
      rw [if_neg within, reach]
      simp only [bind, Except.bind]
      by_cases touches : w ≤ last.hi + 1
      · rw [if_pos touches, ih (by simp only; omega) later]
      · rw [if_neg touches, ih (by simp only [Interval.single]; omega) later]

private theorem gather_eq_error {vs : List Nat} {v : Nat} (first : IsFirst (maxValue < ·) vs v) :
    gather vs = .error (.malformed (.outOfBounds v)) := by
  cases vs with
  | nil => simp [IsFirst] at first
  | cons w rest =>
    rw [gather]
    rcases isFirst_cons.mp first with ⟨beyond, rfl⟩ | ⟨within, later⟩
    · exact if_pos beyond
    · rw [if_neg within]
      exact gatherFrom_eq_error (Nat.le_of_not_lt within) later

/-- The number is the least of the values that no domain may hold. -/
def LeastBeyond (values : List Nat) (v : Nat) : Prop :=
  v ∈ values ∧ maxValue < v ∧ ∀ w ∈ values, maxValue < w → v ≤ w

private theorem ofList_refuses {values : List Nat} (beyond : ∃ v ∈ values, maxValue < v) :
    ∃ v, LeastBeyond values v ∧ ofList values = .error (.malformed (.outOfBounds v)) := by
  have sorted := List.pairwise_mergeSort' (· ≤ ·) values
  have same : ∀ v, v ∈ values.mergeSort (fun v w => decide (v ≤ w)) ↔ v ∈ values := by
    intro v
    exact List.mem_mergeSort
  obtain ⟨v, first⟩ : ∃ v, IsFirst (maxValue < ·) (values.mergeSort fun v w => decide (v ≤ w)) v := by
    rw [exists_isFirst_iff]
    simpa only [same] using beyond
  have least := first.least sorted
  simp only [same] at least
  exact ⟨v, least, by rw [ofList, gather_eq_error first]; rfl⟩

theorem ofList_faults_iff {values : List Nat} :
    (∃ fault, ofList values = .error fault) ↔ ∃ v ∈ values, maxValue < v := by
  rw [exists_error_iff ofList_accepts_iff]
  simp

/-- The answer to a list: the domain of its values, which is that of the pairs of each value with
    itself, or the least value that no domain may hold. -/
def ListAnswer (values : List Nat) : Except Fault Domain → Prop
  | .ok d => (∀ v ∈ values, v ≤ maxValue) ∧ ofPairs (values.map fun v => (v, v)) = .ok d ∧
      d.validate = .ok () ∧ ∀ v, d.contains v = true ↔ v ∈ values
  | .error fault => ∃ v, LeastBeyond values v ∧ fault = .malformed (.outOfBounds v)

private theorem pairsCover_map {values : List Nat} {v : Nat} :
    PairsCover (values.map fun v => (v, v)) v ↔ v ∈ values := by
  constructor
  · rintro ⟨pair, member, start, stop⟩
    obtain ⟨w, listed, rfl⟩ := List.mem_map.mp member
    rw [Nat.le_antisymm stop start]
    exact listed
  · intro listed
    exact ⟨(v, v), List.mem_map.mpr ⟨v, listed, rfl⟩, Nat.le_refl v, Nat.le_refl v⟩

/-- Both ways to collect a list meet at the set of its values. -/
private theorem ofPairs_map_denotes {values : List Nat} (bounded : ∀ v ∈ values, v ≤ maxValue) :
    ∃ d, ofPairs (values.map fun v => (v, v)) = .ok d ∧ d.Denotes (· ∈ values) := by
  have proper : ProperPairs (values.map fun v => (v, v)) := by
    intro pair member
    obtain ⟨v, listed, rfl⟩ := List.mem_map.mp member
    exact ⟨Nat.le_refl v, bounded v listed⟩
  obtain ⟨d, executed, denotes⟩ := ofPairs_denotes proper
  refine ⟨d, executed, denotes.congr ?_⟩
  intro v
  exact pairsCover_map

theorem ofList_eq_iff {values : List Nat} {answer : Except Fault Domain} :
    ofList values = answer ↔ ListAnswer values answer := by
  cases answer with
  | ok d =>
    rw [ofList_eq_ok_iff, ListAnswer, ← denotes_iff_contains]
    apply and_congr_right
    intro bounded
    refine (and_iff_right_of_imp ?_).symm
    intro denotes
    apply denotes.valid.rebuilt (ofPairs_map_denotes bounded)
    intro v
    exact (denotes.mem_iff v).symm
  | error fault =>
    constructor
    · intro refused
      have beyond := ofList_faults_iff.mp ⟨fault, refused⟩
      obtain ⟨v, least, executed⟩ := ofList_refuses beyond
      exact ⟨v, least, Except.error.inj (refused.symm.trans executed)⟩
    · rintro ⟨v, least, rfl⟩
      obtain ⟨w, least', executed⟩ := ofList_refuses ⟨v, least.1, least.2.1⟩
      have same := Nat.le_antisymm (least.2.2 w least'.1 least'.2.1) (least'.2.2 v least.1 least.2.1)
      rw [executed, same]

/-- Collections are answered exactly. Pairs are answered with the domain of what they cover or with
    their first defect, so that all pairs of the same values are answered alike, and the strict
    constructor faults where the checked one refuses. A list is answered as the pairs of its values
    are, and faults exactly if some value is too large. -/
theorem collected_exactly :
    (∀ pairs answer, tryOfPairs pairs = answer ↔ PairsAnswer pairs answer) ∧
      (∀ pairs pairs', ProperPairs pairs → ProperPairs pairs' →
        (∀ v, PairsCover pairs v ↔ PairsCover pairs' v) → tryOfPairs pairs = tryOfPairs pairs') ∧
      (∀ pairs, (∀ d, ofPairs pairs = .ok d ↔ tryOfPairs pairs = .ok d) ∧
        ∀ fault, ofPairs pairs = .error fault ↔
          ∃ defect, tryOfPairs pairs = .error (.rejected defect) ∧ fault = .pairs defect) ∧
      (∀ values answer, ofList values = answer ↔ ListAnswer values answer) ∧
      ∀ values, (∃ fault, ofList values = .error fault) ↔ ∃ v ∈ values, maxValue < v :=
  ⟨fun _ _ => tryOfPairs_eq_iff, fun _ _ => tryOfPairs_congr,
    fun _ => ⟨fun _ => mapError_eq_ok_iff, fun _ => ofPairs_eq_error_iff⟩,
    fun _ _ => ofList_eq_iff, fun _ => ofList_faults_iff⟩

/-- Pairs that overlap, touch, repeat and come out of order, and the one run that they cover. -/
theorem collected_exactly_shuffled :
    ProperPairs [(35, 40), (7, 8), (9, 36), (7, 8)] ∧ ProperPairs [(7, 40)] ∧
      (∀ v, PairsCover [(35, 40), (7, 8), (9, 36), (7, 8)] v ↔ PairsCover [(7, 40)] v) ∧
      tryOfPairs [(35, 40), (7, 8), (9, 36), (7, 8)] = tryOfPairs [(7, 40)] := by
  have shuffled : ProperPairs [(35, 40), (7, 8), (9, 36), (7, 8)] := by simp [ProperPairs, maxValue]
  have run : ProperPairs [(7, 40)] := by simp [ProperPairs, maxValue]
  have same : ∀ v, PairsCover [(35, 40), (7, 8), (9, 36), (7, 8)] v ↔ PairsCover [(7, 40)] v := by
    intro v
    simp only [PairsCover, List.mem_cons, List.not_mem_nil, or_false, exists_eq_or_imp,
      exists_eq_left]
    omega
  obtain ⟨_, congr, _⟩ := collected_exactly
  exact ⟨shuffled, run, same, congr _ _ shuffled run same⟩

end IntegerDomains.Domain

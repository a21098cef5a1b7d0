import IntegerDomains.Proofs.Listing

namespace IntegerDomains

namespace Mask

variable {m n rest : Mask} {taken : List Nat} {v : Nat}

/-- A mask is determined by the list of its members. -/
private theorem eq_of_values (same : m.values = n.values) : m = n := by
  refine eq_of_bits fun v => ?_
  rw [← mem_values, ← mem_values, same]

/-- Asked for its next member again and again, the mask has given `taken`, and `rest` is left. -/
inductive Gives : Mask → List Nat → Mask → Prop
  | start {m : Mask} : Gives m [] m
  | next {m behind rest : Mask} {v : Nat} {taken : List Nat}
    (first : m.next? = some (v, behind)) (others : Gives behind taken rest) :
    Gives m (v :: taken) rest

/-- One answer takes the first member off the list. -/
theorem next?_eq_some_iff : m.next? = some (v, rest) ↔ m.values = v :: rest.values := by
  by_cases zero : m = 0#32
  · simp [next?, zero, values_zero]
  · rw [next?, if_neg zero, values_of_ne_zero zero, Option.some.injEq, Prod.mk.injEq,
      List.cons.injEq]
    exact and_congr_right fun _ => ⟨congrArg values, eq_of_values⟩

theorem next?_eq_none_iff : m.next? = none ↔ m = 0#32 := by
  simp [next?]

/-- The answers so far are the front of the list, and the members of what is left are its back. -/
theorem gives_iff : Gives m taken rest ↔ m.values = taken ++ rest.values := by
  constructor
  · intro gives
    induction gives with
    | start => rfl
    | next first _ ih => rw [next?_eq_some_iff.mp first, ih, List.cons_append]
  · intro split
    induction taken generalizing m with
    | nil =>
      obtain rfl := eq_of_values split
      exact .start
    | cons v taken ih =>
      cases answer : m.next? with
      | none => simp [next?_eq_none_iff.mp answer, values_zero] at split
      | some found =>
        obtain ⟨first, behind⟩ := found
        rw [next?_eq_some_iff.mp answer, List.cons_append, List.cons.injEq] at split
        obtain ⟨rfl, others⟩ := split
        exact .next answer (ih others)

/-- Asking until the end gives all members. -/
private theorem gives_values (m : Mask) : Gives m m.values 0#32 := by
  simp [gives_iff, values_zero]

private theorem head?_values (nonzero : m ≠ 0#32) : m.values.head? = some m.lowest := by
  rw [values_of_ne_zero nonzero, List.head?_cons]

private theorem getLast?_values (nonzero : m ≠ 0#32) : m.values.getLast? = some m.highest := by
  refine getLast?_of_ascending m.values_ascending (mem_values.mpr (getLsbD_highest nonzero)) ?_
  intro v member
  exact le_highest (mem_values.mp member)

private theorem sole?_eq_some_iff_values : m.sole? = some v ↔ m.values = [v] := by
  rw [sole?_eq_some_iff]
  constructor
  · intro only
    refine m.values_ascending.eq_of_mem_iff (List.pairwise_singleton _ v) fun w => ?_
    rw [mem_values, only, List.mem_singleton]
  · intro listed w
    rw [← mem_values, listed, List.mem_singleton]

end Mask

namespace Domain

variable {d : Domain}

/-- A domain is filled up to its largest value, if it has one. -/
theorem Valid.fill_upTo (valid : d.Valid) :
    ∃ r, d.fill = .ok r ∧ r.Valid ∧ (d = .empty ∧ r = .empty ∨
      ∃ top, d.greatest? = .ok (some top) ∧ (top ∈ d ∧ ∀ v ∈ d, v ≤ top) ∧
        ∀ v, v ∈ r ↔ v ≤ top) := by
  obtain ⟨r, executed, denotes⟩ := valid.fill_denotes
  refine ⟨r, executed, denotes.valid, ?_⟩
  by_cases none : d = .empty
  · subst none
    exact .inl ⟨rfl, denotes.eq_empty_iff.mpr (by simp [mem_empty])⟩
  · obtain ⟨top, greatest, member, above⟩ := valid.greatest?_isGreatest none
    refine .inr ⟨top, greatest, ⟨member, above⟩, fun v => ?_⟩
    rw [denotes.mem_iff, valid.le_greatest_iff greatest]

end Domain

open Mask

/-- A word is asked for its members one by one and gives the positions of its set bits in ascending
    order; whenever some have been given, the hint is the number of those to come. From the list are
    answered: how many members there are, which one stands at a position, whether there is one
    alone, and of a word that has any, the first, the last and the word of all values up to the
    last. So a domain is filled with all values up to its largest one. -/
theorem answers_follow_enumeration :
    (∀ m : Mask,
      (Gives m m.values 0#32 ∧ next? 0#32 = none ∧ m.values.Pairwise (· < ·) ∧
        ∀ v, v ∈ m.values ↔ m.getLsbD v = true) ∧
      (∀ taken rest, Gives m taken rest → ∃ later, m.values = taken ++ later ∧
        Gives rest later 0#32 ∧ rest.sizeHint = (later.length, some later.length)) ∧
      m.size = m.values.length ∧ (∀ index, m.get? index = m.values[index]?) ∧
      (∀ v, m.sole? = some v ↔ m.values = [v]) ∧
      (m ≠ 0#32 → ∃ first last filled, m.values.head? = some first ∧ m.least = .ok first ∧
        m.values.getLast? = some last ∧ m.greatest = .ok last ∧
        m.fill = .ok filled ∧ ∀ v, filled.getLsbD v = true ↔ v ≤ last)) ∧
    ∀ d : Domain, d.validate = .ok () → ∃ r, d.fill = .ok r ∧ r.validate = .ok () ∧
      (d = .empty ∧ r = .empty ∨ ∃ top, d.greatest? = .ok (some top) ∧
        (top ∈ d ∧ ∀ v ∈ d, v ≤ top) ∧ ∀ v, v ∈ r ↔ v ≤ top) := by
  refine ⟨fun m => ⟨?_, ?_, m.size_eq_length, m.get?_eq_getElem?, ?_, ?_⟩, ?_⟩
  · exact ⟨m.gives_values, next?_eq_none_iff.mpr rfl, m.values_ascending, fun v => mem_values⟩
  · intro taken rest gives
    refine ⟨rest.values, gives_iff.mp gives, rest.gives_values, ?_⟩
    rw [sizeHint, count_eq_length]
  · intro v
    exact sole?_eq_some_iff_values
  · intro nonzero
    refine ⟨m.lowest, m.highest, m.smear, head?_values nonzero, least_eq_ok nonzero,
      getLast?_values nonzero, greatest_eq_ok nonzero, fill_eq_ok nonzero, fun v => ?_⟩
    exact getLsbD_smear nonzero
  · intro d valid
    obtain ⟨r, executed, rValid, upTo⟩ := (Domain.validate_eq_ok_iff.mp valid).fill_upTo
    exact ⟨r, executed, Domain.validate_eq_ok_iff.mpr rValid, upTo⟩

/-- Members at both ends of the upper half of a word: behind the first one two more are to come. And
    a domain of intervals that is filled from zero on. -/
theorem answers_follow_enumeration_topBit :
    (values 0xc0000004#32 = [2, 30, 31] ∧ Gives 0xc0000004#32 [2] 0xc0000000#32 ∧
      sizeHint 0xc0000000#32 = (2, some 2) ∧ size 0xc0000004#32 = 3 ∧
      get? 0xc0000004#32 2 = some 31 ∧ get? 0xc0000004#32 3 = none ∧ sole? 0xc0000004#32 ≠ some 2 ∧
      0xc0000004#32 ≠ 0#32 ∧ least 0xc0000004#32 = .ok 2 ∧ greatest 0xc0000004#32 = .ok 31 ∧
      ∃ filled, fill 0xc0000004#32 = .ok filled ∧ ∀ v, filled.getLsbD v = true ↔ v ≤ 31) ∧
    (Domain.intervals [⟨3, 3⟩, ⟨40, 90⟩]).validate = .ok () ∧
      ∃ r, (Domain.intervals [⟨3, 3⟩, ⟨40, 90⟩]).fill = .ok r ∧ r.validate = .ok () ∧
        ∀ v, v ∈ r ↔ v ≤ 90 := by
  obtain ⟨words, domains⟩ := answers_follow_enumeration
  have valid : (Domain.intervals [⟨3, 3⟩, ⟨40, 90⟩]).validate = .ok () := rfl
  have listed : values 0xc0000004#32 = [2, 30, 31] := by
    rw [values_eq_filter]
    decide
  have left : values 0xc0000000#32 = [30, 31] := by
    rw [values_eq_filter]
    decide
  have gives : Gives 0xc0000004#32 [2] 0xc0000000#32 := by
    rw [gives_iff, listed, left, List.singleton_append]
  have nonzero : 0xc0000004#32 ≠ 0#32 := by decide
  obtain ⟨_, hints, size, get?, sole?, ends⟩ := words 0xc0000004#32
  obtain ⟨later, back, _, hint⟩ := hints _ _ gives
  obtain ⟨first, last, filled, head, least, top, greatest, executed, bits⟩ := ends nonzero
  rw [listed] at size get? sole? back head top
  cases back
  cases head
  cases top
  obtain ⟨r, filledUp, rValid, empty | ⟨largest, answered, _, upTo⟩⟩ := domains _ valid
  · exact absurd empty.1 (by simp)
  · cases answered
    exact ⟨⟨listed, gives, hint, size, get? 2, get? 3, by simp [sole?], nonzero, least, greatest,
      filled, executed, bits⟩, valid, r, filledUp, rValid, upTo⟩

end IntegerDomains

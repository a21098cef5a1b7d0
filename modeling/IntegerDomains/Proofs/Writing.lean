import IntegerDomains.Proofs.Exports
import IntegerDomains.Proofs.Grammar

namespace IntegerDomains

namespace Text

variable {inner before behind part : List Char} {pair : Nat × Nat} {parts ps : List (List Char)}
  {pairs : List (Nat × Nat)} {v : Nat}

/-- The part is the decimals of both bounds around a dash, with any blanks around these. -/
def WritesPair (part : List Char) (pair : Nat × Nat) : Prop :=
  ∃ before behind before' behind', Blank before ∧ Blank behind ∧ Blank before' ∧ Blank behind' ∧
    part = (before ++ Nat.toDigits 10 pair.1 ++ behind) ++
      '-' :: (before' ++ Nat.toDigits 10 pair.2 ++ behind')

/-- The parts write the pairs one by one, with any blank parts in between. -/
inductive WritesPairs : List (List Char) → List (Nat × Nat) → Prop
  | nil : WritesPairs [] []
  | blank {part : List Char} {parts : List (List Char)} {pairs : List (Nat × Nat)}
    (blank : Blank part) (others : WritesPairs parts pairs) : WritesPairs (part :: parts) pairs
  | pair {part : List Char} {pair : Nat × Nat} {parts : List (List Char)}
    {pairs : List (Nat × Nat)} (writes : WritesPair part pair) (others : WritesPairs parts pairs) :
    WritesPairs (part :: parts) (pair :: pairs)

private theorem isBlank_of_isDigit {c : Char} (digit : c.isDigit = true) : isBlank c = false := by
  simp only [Char.isDigit, Bool.and_eq_true, decide_eq_true_eq, ge_iff_le,
    UInt32.le_iff_toNat_le] at digit
  have lower : 48 ≤ c.toNat := digit.1
  have upper : c.toNat ≤ 57 := digit.2
  simp only [isBlank, blankRanges, List.any_cons, List.any_nil, Bool.or_false, Bool.or_eq_false_iff,
    Bool.and_eq_false_iff, decide_eq_false_iff_not]
  omega

private theorem isDigit_toDigits : ∀ c ∈ Nat.toDigits 10 v, c.isDigit = true :=
  fun _ member => Nat.isDigit_of_mem_toDigits (by decide) (by decide) member

private theorem isBlank_toDigits : ∀ c ∈ Nat.toDigits 10 v, isBlank c = false :=
  fun c member => isBlank_of_isDigit (isDigit_toDigits c member)

private theorem trimmed_toDigits (blankBefore : Blank before) (blankBehind : Blank behind) :
    Trimmed (before ++ Nat.toDigits 10 v ++ behind) (Nat.toDigits 10 v) where
  around := ⟨before, behind, blankBefore, blankBehind, rfl⟩
  first c isFirst := isBlank_toDigits c (List.mem_of_mem_head? isFirst)
  last c isLast := isBlank_toDigits c (List.mem_of_mem_getLast? isLast)

/-- Blanks and decimals hold no separator. -/
private theorem not_mem_decimals {separator : Char} (dark : isBlank separator = false)
    (other : separator.isDigit = false) (blankBefore : Blank before) (blankBehind : Blank behind) :
    separator ∉ before ++ Nat.toDigits 10 v ++ behind := by
  intro member
  rw [List.mem_append, List.mem_append] at member
  rcases member with (inBefore | inDigits) | inBehind
  · exact absurd (blankBefore separator inBefore) (by simp [dark])
  · exact absurd (isDigit_toDigits separator inDigits) (by simp [other])
  · exact absurd (blankBehind separator inBehind) (by simp [dark])

private theorem WritesPair.free (writes : WritesPair part pair) : ',' ∉ part := by
  obtain ⟨before, behind, before', behind', blank, blank₁, blank₂, blank₃, rfl⟩ := writes
  rw [List.mem_append, List.mem_cons]
  rintro (inLower | dash | inUpper)
  · exact not_mem_decimals (by decide) (by decide) blank blank₁ inLower
  · exact absurd dash (by decide)
  · exact not_mem_decimals (by decide) (by decide) blank₂ blank₃ inUpper

/-- Between the outer blanks a written pair is a piece of these bounds. -/
private theorem WritesPair.piece (writes : WritesPair part pair) (ordered : pair.1 ≤ pair.2)
    (fits : pair.2 ≤ wordMax) : ∃ p, Trimmed part p ∧ p ≠ [] ∧ WritesBounds p pair := by
  obtain ⟨before, behind, before', behind', blank, blank₁, blank₂, blank₃, rfl⟩ := writes
  refine ⟨(Nat.toDigits 10 pair.1 ++ behind) ++ '-' :: (before' ++ Nat.toDigits 10 pair.2), ?_,
    by simp, ?_⟩
  · refine ⟨⟨before, behind', blank, blank₃, by simp⟩, fun c isFirst => ?_, fun c isLast => ?_⟩
    · rw [List.append_assoc, List.head?_append_of_ne_nil _ Nat.toDigits_ne_nil] at isFirst
      exact isBlank_toDigits c (List.mem_of_mem_head? isFirst)
    · rw [← List.cons_append, ← List.append_assoc,
        List.getLast?_append_of_ne_nil _ Nat.toDigits_ne_nil] at isLast
      exact isBlank_toDigits c (List.mem_of_mem_getLast? isLast)
  · have free : '-' ∉ Nat.toDigits 10 pair.1 ++ behind :=
      not_mem_decimals (by decide) (by decide) blank_nil blank₁
    have lower : Trimmed (Nat.toDigits 10 pair.1 ++ behind) (Nat.toDigits 10 pair.1) :=
      trimmed_toDigits blank_nil blank₁
    have upper : Trimmed (before' ++ Nat.toDigits 10 pair.2) (Nat.toDigits 10 pair.2) := by
      simpa using trimmed_toDigits (v := pair.2) blank₂ blank_nil
    exact .range free lower upper (isNumeral_toDigits (Nat.le_trans ordered fits))
      (isNumeral_toDigits fits) ordered

private theorem WritesPairs.free (writes : WritesPairs parts pairs) :
    ∀ part ∈ parts, ',' ∉ part := by
  induction writes with
  | nil => simp
  | blank blank _ ih =>
    refine List.forall_mem_cons.mpr ⟨?_, ih⟩
    intro comma
    exact absurd (blank ',' comma) (by decide)
  | pair writes _ ih => exact List.forall_mem_cons.mpr ⟨writes.free, ih⟩

/-- Of written parts exactly the pairs are kept. -/
private theorem WritesPairs.kept (writes : WritesPairs parts pairs)
    (fits : ∀ pair ∈ pairs, pair.1 ≤ pair.2 ∧ pair.2 ≤ wordMax) :
    ∃ ps, Kept parts ps ∧ List.Forall₂ WritesBounds ps pairs := by
  induction writes with
  | nil => exact ⟨[], .nil, .nil⟩
  | blank blank _ ih =>
    obtain ⟨ps, kept, bounds⟩ := ih fits
    exact ⟨ps, .blank blank kept, bounds⟩
  | pair writes _ ih =>
    obtain ⟨⟨ordered, room⟩, others⟩ := List.forall_mem_cons.mp fits
    obtain ⟨p, trimmed, nonempty, first⟩ := writes.piece ordered room
    obtain ⟨ps, kept, bounds⟩ := ih others
    exact ⟨p :: ps, .piece trimmed nonempty kept, .cons first bounds⟩

/-- The text of parts has the pieces kept of them; no parts make the same text as an empty one. -/
private theorem pieces_of_kept (free : ∀ part ∈ parts, ',' ∉ part) (kept : Kept parts ps) :
    Pieces ([','].intercalate parts) ps := by
  cases parts with
  | nil =>
    cases kept
    exact ⟨[[]], by simp, by simp, rfl, .blank blank_nil .nil⟩
  | cons part parts => exact ⟨part :: parts, by simp, free, rfl, kept⟩

end Text

namespace Domain

open Text

variable {d : Domain} {parts : List (List Char)} {written pairs : List (Nat × Nat)}

/-- The order of pairs makes no difference to what they cover. -/
private theorem pairsCover_perm (shuffled : written.Perm pairs) (v : Nat) :
    PairsCover written v ↔ PairsCover pairs v := by
  simp only [PairsCover, shuffled.mem_iff]

theorem read_writesPairs (denotes : d.Denotes (PairsCover pairs)) (proper : ProperPairs pairs)
    (shuffled : written.Perm pairs) (writes : WritesPairs parts written) :
    Domain.read (String.ofList ([','].intercalate parts)) = .ok d := by
  have inside : ∀ pair ∈ written, pair.1 ≤ pair.2 ∧ pair.2 ≤ maxValue := by
    intro pair member
    exact proper pair (shuffled.mem_iff.mp member)
  have fits : ∀ pair ∈ written, pair.1 ≤ pair.2 ∧ pair.2 ≤ wordMax := by
    intro pair member
    obtain ⟨ordered, within⟩ := inside pair member
    exact ⟨ordered, Nat.le_trans within (Nat.le_of_lt maxValue_lt_wordMax)⟩
  obtain ⟨ps, kept, bounds⟩ := writes.kept fits
  have shuffledDenotes : d.Denotes (PairsCover written) :=
    denotes.congr fun v => (pairsCover_perm shuffled v).symm
  rw [read_eq_ok_iff, String.toList_ofList]
  exact ⟨ps, written, pieces_of_kept writes.free kept, bounds,
    fun pair member => (inside pair member).2, denotes_iff_contains.mp shuffledDenotes⟩

/-- Reading answers every text by its grammar: it accepts texts of well-formed pieces within the
    values of a domain, and it names the first ill-formed piece of all others, or else the first
    bound that is too large. So a well-formed domain is read back from its pairs, whatever their
    order and whatever blanks are written around them. -/
theorem read_by_grammar_undoes_writing :
    (∀ text answer, Domain.read text = answer ↔ ReadAnswer text.toList answer) ∧
      (∀ text, (∃ d, Domain.read text = .ok d) ↔ ∃ ps pairs, Pieces text.toList ps ∧
        List.Forall₂ WritesBounds ps pairs ∧ ∀ pair ∈ pairs, pair.2 ≤ maxValue) ∧
      ∀ d : Domain, d.validate = .ok () → ∃ pairs, d.toPairs = .ok pairs ∧
        ∀ written parts, written.Perm pairs → WritesPairs parts written →
          Domain.read (String.ofList ([','].intercalate parts)) = .ok d := by
  refine ⟨fun _ _ => read_eq_iff, fun _ => read_accepts_iff, ?_⟩
  intro d valid
  obtain ⟨pairs, exported, rebuilt⟩ := (validate_eq_ok_iff.mp valid).tryOfPairs_toPairs
  obtain ⟨proper, denotes⟩ := tryOfPairs_eq_ok_iff.mp rebuilt
  refine ⟨pairs, exported, ?_⟩
  intro written parts shuffled writes
  exact read_writesPairs denotes proper shuffled writes

/-- The last of three runs written first, with blanks around it and an empty part behind it. -/
theorem read_by_grammar_undoes_writing_shuffled :
    (Domain.intervals [⟨0, 3⟩, ⟨65, 70⟩, ⟨900, 999⟩]).validate = .ok () ∧
      [(900, 999), (0, 3), (65, 70)].Perm [(0, 3), (65, 70), (900, 999)] ∧
      WritesPairs [" 900 - 999\t".toList, [], "0-3".toList, "65- 70".toList]
        [(900, 999), (0, 3), (65, 70)] ∧
      Domain.read " 900 - 999\t,,0-3,65- 70" =
        .ok (.intervals [⟨0, 3⟩, ⟨65, 70⟩, ⟨900, 999⟩]) := by
  have shuffled : [(900, 999), (0, 3), (65, 70)].Perm [(0, 3), (65, 70), (900, 999)] := by decide
  have writes : WritesPairs [" 900 - 999\t".toList, [], "0-3".toList, "65- 70".toList]
      [(900, 999), (0, 3), (65, 70)] := by
    refine .pair ⟨[' '], [' '], [' '], ['\t'], ?_, ?_, ?_, ?_, rfl⟩ <| .blank blank_nil <|
      .pair ⟨[], [], [], [], ?_, ?_, ?_, ?_, rfl⟩ <|
      .pair ⟨[], [], [' '], [], ?_, ?_, ?_, ?_, rfl⟩ .nil
    all_goals simp [Blank, isBlank, blankRanges]
  obtain ⟨_, _, undone⟩ := read_by_grammar_undoes_writing
  obtain ⟨pairs, exported, reads⟩ := undone (.intervals [⟨0, 3⟩, ⟨65, 70⟩, ⟨900, 999⟩]) rfl
  obtain rfl : [(0, 3), (65, 70), (900, 999)] = pairs := Except.ok.inj exported
  have text : String.ofList ([','].intercalate
      [" 900 - 999\t".toList, [], "0-3".toList, "65- 70".toList]) = " 900 - 999\t,,0-3,65- 70" := by
    decide
  exact ⟨rfl, shuffled, writes, text ▸ reads _ _ shuffled writes⟩

end Domain

end IntegerDomains

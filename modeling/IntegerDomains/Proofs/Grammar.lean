import IntegerDomains.Proofs.Collections
import IntegerDomains.Proofs.Numerals
import IntegerDomains.Proofs.Pieces
import Mathlib.Data.List.Forall2

/-!
An ill-formed piece is named whatever stands in front of it, so a bound beyond the values of a
domain is reported only where all pieces are well formed.
-/

namespace IntegerDomains

namespace Text

variable {piece lo hi : List Char} {pair : Nat × Nat} {problem : ReadError}

/-- The texts of both bounds of a piece: twice the whole if it has no dash, else those around the
    first dash, trimmed. -/
inductive BoundTexts : List Char → List Char → List Char → Prop
  | value {piece : List Char} (free : '-' ∉ piece) : BoundTexts piece piece piece
  | range {before behind lo hi : List Char} (free : '-' ∉ before) (lower : Trimmed before lo)
    (upper : Trimmed behind hi) : BoundTexts (before ++ '-' :: behind) lo hi

/-- A piece is one numeral, or its trimmed texts before and behind the first dash are
    numerals in order. -/
inductive WritesBounds : List Char → Nat × Nat → Prop
  | value {piece : List Char} {v : Nat} (numeral : IsNumeral piece v) : WritesBounds piece (v, v)
  | range {before behind lo hi : List Char} {v w : Nat} (free : '-' ∉ before)
    (lower : Trimmed before lo) (upper : Trimmed behind hi) (least : IsNumeral lo v)
    (greatest : IsNumeral hi w) (ordered : v ≤ w) : WritesBounds (before ++ '-' :: behind) (v, w)

/-- Why a piece writes no bounds: the lower text counts before the upper one, and their
    order last. -/
inductive PieceDefect : List Char → ReadError → Prop
  | lower {piece lo hi : List Char} {cause : NumeralError} (texts : BoundTexts piece lo hi)
    (defect : NumeralDefect lo cause) : PieceDefect piece (.badBound piece cause)
  | upper {piece lo hi : List Char} {v : Nat} {cause : NumeralError}
    (texts : BoundTexts piece lo hi) (least : IsNumeral lo v) (defect : NumeralDefect hi cause) :
    PieceDefect piece (.badBound piece cause)
  | reversed {piece lo hi : List Char} {v w : Nat} (texts : BoundTexts piece lo hi)
    (least : IsNumeral lo v) (greatest : IsNumeral hi w) (descending : w < v) :
    PieceDefect piece (.reversed piece)

private theorem boundTexts_eq_iff : boundTexts piece = (lo, hi) ↔ BoundTexts piece lo hi := by
  constructor
  · intro texts
    by_cases dashed : '-' ∈ piece
    · obtain ⟨before, behind, rfl, free⟩ := List.eq_append_cons_of_mem dashed
      rw [boundTexts, splitFirst?_append free] at texts
      obtain ⟨rfl, rfl⟩ := Prod.mk.inj texts
      exact .range free (trimmed_trim before) (trimmed_trim behind)
    · rw [boundTexts, splitFirst?_eq_none dashed] at texts
      obtain ⟨rfl, rfl⟩ := Prod.mk.inj texts
      exact .value dashed
  · rintro (free | ⟨free, lower, upper⟩)
    · rw [boundTexts, splitFirst?_eq_none free]
    · rw [boundTexts, splitFirst?_append free, ← trim_eq_iff.mpr lower, ← trim_eq_iff.mpr upper]

private theorem boundTexts_texts (piece : List Char) :
    BoundTexts piece (boundTexts piece).1 (boundTexts piece).2 := boundTexts_eq_iff.mp rfl

private theorem not_mem_of_isNumeral {v : Nat} (numeral : IsNumeral piece v) : '-' ∉ piece := by
  intro dashed
  exact absurd (numeral.isDigit_or_plus '-' dashed) (by decide)

/-- What a piece writes is given by the texts of its bounds. -/
theorem writesBounds_iff (texts : BoundTexts piece lo hi) :
    WritesBounds piece pair ↔ IsNumeral lo pair.1 ∧ IsNumeral hi pair.2 ∧ pair.1 ≤ pair.2 := by
  rw [← boundTexts_eq_iff] at texts
  constructor
  · rintro (numeral | ⟨free, lower, upper, least, greatest, ordered⟩)
    · have whole := boundTexts_eq_iff.mpr (.value (not_mem_of_isNumeral numeral))
      obtain ⟨rfl, rfl⟩ := Prod.mk.inj (texts.symm.trans whole)
      exact ⟨numeral, numeral, Nat.le_refl _⟩
    · have parts := boundTexts_eq_iff.mpr (.range free lower upper)
      obtain ⟨rfl, rfl⟩ := Prod.mk.inj (texts.symm.trans parts)
      exact ⟨least, greatest, ordered⟩
  · rintro ⟨least, greatest, ordered⟩
    obtain ⟨v, w⟩ := pair
    rcases boundTexts_eq_iff.mp texts with free | ⟨free, lower, upper⟩
    · obtain rfl : v = w := least.unique greatest
      exact .value least
    · exact .range free lower upper least greatest ordered

theorem readPiece_eq_ok_iff : readPiece piece = .ok pair ↔ WritesBounds piece pair := by
  rw [writesBounds_iff (boundTexts_texts piece), readPiece]
  simp only [bind_eq_ok_iff, mapError_eq_ok_iff, readNumeral_eq_ok_iff]
  constructor
  · rintro ⟨v, least, w, greatest, ordered⟩
    by_cases descending : w < v
    · simp [descending] at ordered
    · rw [if_neg descending] at ordered
      obtain rfl := Except.ok.inj ordered
      exact ⟨least, greatest, Nat.le_of_not_lt descending⟩
  · rintro ⟨least, greatest, ordered⟩
    exact ⟨pair.1, least, pair.2, greatest, if_neg (Nat.not_lt.mpr ordered)⟩

theorem readPiece_eq_error_iff : readPiece piece = .error problem ↔ PieceDefect piece problem := by
  have texts := boundTexts_texts piece
  rw [readPiece]
  simp only [bind_eq_error_iff, mapError_eq_ok_iff, mapError_eq_error_iff, readNumeral_eq_ok_iff,
    readNumeral_eq_error_iff]
  constructor
  · rintro (⟨cause, defect, rfl⟩ | ⟨v, least, ⟨cause, defect, rfl⟩ | ⟨w, greatest, compared⟩⟩)
    · exact .lower texts defect
    · exact .upper texts least defect
    · by_cases descending : w < v
      · rw [if_pos descending] at compared
        obtain rfl := Except.error.inj compared
        exact .reversed texts least greatest descending
      · simp [descending, pure, Except.pure] at compared
  · rintro (⟨others, defect⟩ | ⟨others, least, defect⟩ | ⟨others, least, greatest, descending⟩)
    all_goals rw [← boundTexts_eq_iff] at others; rw [others]
    · exact .inl ⟨_, defect, rfl⟩
    · exact .inr ⟨_, least, .inl ⟨_, defect, rfl⟩⟩
    · exact .inr ⟨_, least, .inr ⟨_, greatest, if_pos descending⟩⟩

private theorem readPiece_fails_iff (piece : List Char) :
    (∃ problem, readPiece piece = .error problem) ↔ ¬∃ pair, WritesBounds piece pair :=
  exists_error_iff (exists_congr fun _ => readPiece_eq_ok_iff)

theorem WritesBounds.ordered (writes : WritesBounds piece pair) : pair.1 ≤ pair.2 :=
  ((writesBounds_iff (boundTexts_texts piece)).mp writes).2.2

end Text

/-- Converting a list relates it to its results element by element. -/
private theorem mapM_eq_ok_iff {ε α β : Type} {f : α → Except ε β} {xs : List α} {ys : List β} :
    xs.mapM f = .ok ys ↔ List.Forall₂ (fun x y => f x = .ok y) xs ys := by
  induction xs generalizing ys with
  | nil =>
    rw [List.forall₂_nil_left_iff]
    constructor
    · intro executed
      exact (Except.ok.inj executed).symm
    · rintro rfl
      rfl
  | cons x rest ih =>
    simp only [List.mapM_cons, bind_eq_ok_iff, List.forall₂_cons_left_iff, ih]
    constructor
    · rintro ⟨y, first, zs, others, same⟩
      exact ⟨y, zs, first, others, (Except.ok.inj same).symm⟩
    · rintro ⟨y, zs, first, others, rfl⟩
      exact ⟨y, first, zs, others, rfl⟩

namespace Domain

open Text

variable {text : List Char} {ps : List (List Char)} {pairs : List (Nat × Nat)}

private theorem tryOfPairs_eq_ok_iff_of_ordered (ordered : ∀ pair ∈ pairs, pair.1 ≤ pair.2)
    {d : Domain} :
    tryOfPairs pairs = .ok d ↔ (∀ pair ∈ pairs, pair.2 ≤ maxValue) ∧ d.validate = .ok () ∧
      ∀ v, d.contains v = true ↔ PairsCover pairs v := by
  rw [tryOfPairs_eq_ok_iff, denotes_iff_contains, ProperPairs]
  apply and_congr_left
  intro _
  exact forall₂_congr fun pair member => and_iff_right (ordered pair member)

/-- Of pairs in order only the first one beyond the values of a domain is refused. -/
private theorem tryOfPairs_eq_error_iff_of_ordered (ordered : ∀ pair ∈ pairs, pair.1 ≤ pair.2)
    {refusal : Refusal} :
    tryOfPairs pairs = .error refusal ↔
      ∃ pair, IsFirst (fun p => maxValue < p.2) pairs pair ∧
        refusal = .rejected (.outOfBounds pair.2) := by
  rw [tryOfPairs_eq_error_iff]
  apply exists_congr
  intro pair
  have beyond : ∀ p ∈ pairs, (¬(p.1 ≤ p.2 ∧ p.2 ≤ maxValue) ↔ maxValue < p.2) := by
    intro p member
    rw [and_iff_right (ordered p member), Nat.not_le]
  rw [isFirst_congr beyond]
  apply and_congr_right
  intro first
  have inOrder := ordered pair first.mem
  constructor
  · rintro ⟨defect, defective, rfl⟩
    cases defective with
    | inverted reversed => exact absurd reversed (Nat.not_lt.mpr inOrder)
    | outOfBounds _ _ => rfl
  · rintro rfl
    exact ⟨_, .outOfBounds inOrder first.holds, rfl⟩

/-- The answer to a text: the domain of what its pieces cover, if all of them write bounds and no
    bound is too large. Otherwise the first piece that writes no bounds is named with its defect,
    and only if there is none the first bound that is too large. -/
def ReadAnswer (text : List Char) : Except ReadError Domain → Prop
  | .ok d => ∃ ps pairs, Pieces text ps ∧ List.Forall₂ WritesBounds ps pairs ∧
      (∀ pair ∈ pairs, pair.2 ≤ maxValue) ∧ d.validate = .ok () ∧
      ∀ v, d.contains v = true ↔ PairsCover pairs v
  | .error problem => ∃ ps, Pieces text ps ∧
      ((∃ piece, IsFirst (fun p => ¬∃ pair, WritesBounds p pair) ps piece ∧
          PieceDefect piece problem) ∨
        ∃ pairs, List.Forall₂ WritesBounds ps pairs ∧
          ∃ pair, IsFirst (fun p => maxValue < p.2) pairs pair ∧
            problem = .refused (.rejected (.outOfBounds pair.2)))

private theorem ordered_of_writesBounds (written : List.Forall₂ WritesBounds ps pairs) :
    ∀ pair ∈ pairs, pair.1 ≤ pair.2 := by
  induction written with
  | nil => simp
  | cons writes _ ih => exact List.forall_mem_cons.mpr ⟨writes.ordered, ih⟩

private theorem mapM_readPiece_eq_ok_iff :
    ps.mapM readPiece = .ok pairs ↔ List.Forall₂ WritesBounds ps pairs := by
  simp only [mapM_eq_ok_iff, readPiece_eq_ok_iff]

theorem read_eq_ok_iff {text : String} {d : Domain} :
    Domain.read text = .ok d ↔ ReadAnswer text.toList (.ok d) := by
  simp only [Domain.read, bind_eq_ok_iff, mapError_eq_ok_iff, mapM_readPiece_eq_ok_iff, ReadAnswer]
  constructor
  · rintro ⟨pairs, written, executed⟩
    have answer := (tryOfPairs_eq_ok_iff_of_ordered (ordered_of_writesBounds written)).mp executed
    exact ⟨pieces text.toList, pairs, pieces_eq_iff.mp rfl, written, answer⟩
  · rintro ⟨ps, pairs, kept, written, answer⟩
    have executed := (tryOfPairs_eq_ok_iff_of_ordered (ordered_of_writesBounds written)).mpr answer
    rw [pieces_eq_iff.mpr kept]
    exact ⟨pairs, written, executed⟩

theorem read_eq_error_iff {text : String} {problem : ReadError} :
    Domain.read text = .error problem ↔ ReadAnswer text.toList (.error problem) := by
  simp only [Domain.read, bind_eq_error_iff, mapError_eq_error_iff, mapM_readPiece_eq_ok_iff,
    mapM_eq_error_iff readPiece_fails_iff, readPiece_eq_error_iff, ReadAnswer]
  have refused {pairs} (written : List.Forall₂ WritesBounds (pieces text.toList) pairs) :
      (∃ refusal, tryOfPairs pairs = .error refusal ∧ .refused refusal = problem) ↔
        ∃ pair, IsFirst (fun p => maxValue < p.2) pairs pair ∧
          problem = .refused (.rejected (.outOfBounds pair.2)) := by
    simp only [tryOfPairs_eq_error_iff_of_ordered (ordered_of_writesBounds written)]
    constructor
    · rintro ⟨_, ⟨pair, first, rfl⟩, rfl⟩
      exact ⟨pair, first, rfl⟩
    · rintro ⟨pair, first, rfl⟩
      exact ⟨_, ⟨pair, first, rfl⟩, rfl⟩
  have kept : ∀ ps, Pieces text.toList ps ↔ ps = pieces text.toList := by
    intro ps
    rw [← pieces_eq_iff, eq_comm]
  simp only [kept, exists_eq_left]
  apply or_congr_right
  apply exists_congr
  intro pairs
  exact and_congr_right refused

/-- Reading answers every text by its grammar. -/
theorem read_eq_iff {text : String} {answer : Except ReadError Domain} :
    Domain.read text = answer ↔ ReadAnswer text.toList answer := by
  cases answer with
  | ok d => exact read_eq_ok_iff
  | error problem => exact read_eq_error_iff

/-- A bound that is too large does not hide an ill-formed piece behind it. -/
example : Domain.read "100000001, 7-x" = .error (.badBound "7-x".toList .invalidDigit) := rfl

/-- A text is read exactly if all of its pieces are well formed and within the values of
    a domain. -/
theorem read_accepts_iff {text : String} :
    (∃ d, Domain.read text = .ok d) ↔ ∃ ps pairs, Pieces text.toList ps ∧
      List.Forall₂ WritesBounds ps pairs ∧ ∀ pair ∈ pairs, pair.2 ≤ maxValue := by
  simp only [read_eq_ok_iff, ReadAnswer]
  constructor
  · rintro ⟨d, ps, pairs, kept, written, within, _⟩
    exact ⟨ps, pairs, kept, written, within⟩
  · rintro ⟨ps, pairs, kept, written, within⟩
    have ordered := ordered_of_writesBounds written
    obtain ⟨d, executed⟩ :=
      tryOfPairs_accepts_iff.mpr fun pair member => ⟨ordered pair member, within pair member⟩
    have answer := (tryOfPairs_eq_ok_iff_of_ordered ordered).mp executed
    exact ⟨d, ps, pairs, kept, written, answer⟩

end Domain

end IntegerDomains

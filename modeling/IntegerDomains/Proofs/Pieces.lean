import IntegerDomains.Text.Reading
import Mathlib.Data.List.TakeWhile

namespace IntegerDomains.Text

variable {text inner before behind part : List Char} {parts ps : List (List Char)}

/-- All characters are blank. -/
def Blank (text : List Char) : Prop := ∀ c ∈ text, isBlank c = true

/-- The text is the inner one between blanks, and this begins and ends with other characters. -/
structure Trimmed (text inner : List Char) : Prop where
  around : ∃ before behind, Blank before ∧ Blank behind ∧ text = before ++ inner ++ behind
  first : ∀ c, inner.head? = some c → isBlank c = false
  last : ∀ c, inner.getLast? = some c → isBlank c = false

@[simp] theorem blank_nil : Blank [] := fun _ member => absurd member List.not_mem_nil

@[simp] theorem blank_append : Blank (before ++ behind) ↔ Blank before ∧ Blank behind :=
  List.forall_mem_append

private theorem blank_reverse : Blank text.reverse ↔ Blank text := by simp [Blank]

private theorem blank_takeWhile (text : List Char) : Blank (text.takeWhile isBlank) :=
  fun _ member => List.mem_takeWhile_imp member

private theorem not_blank_head?_dropWhile (text : List Char) {c : Char}
    (first : (text.dropWhile isBlank).head? = some c) : isBlank c = false := by
  have stop := List.head?_dropWhile_not isBlank text
  rwa [first] at stop

/-- Dropping blanks stops at the first other character. -/
private theorem dropWhile_blanks_append (blank : Blank before)
    (first : ∀ c, inner.head? = some c → isBlank c = false) :
    (before ++ inner).dropWhile isBlank = inner := by
  rw [List.dropWhile_append_of_pos blank]
  cases inner with
  | nil => rfl
  | cons c rest => rw [List.dropWhile_cons_of_neg (by simp [first c rfl])]

theorem trimmed_trim (text : List Char) : Trimmed text (trim text) := by
  have front := List.takeWhile_append_dropWhile (p := isBlank) (l := text)
  generalize startsClean : text.dropWhile isBlank = rest at front
  have back := List.takeWhile_append_dropWhile (p := isBlank) (l := rest.reverse)
  have whole : rest = trim text ++ (rest.reverse.takeWhile isBlank).reverse := by
    rw [trim, startsClean, ← List.reverse_append, back, List.reverse_reverse]
  refine ⟨⟨text.takeWhile isBlank, (rest.reverse.takeWhile isBlank).reverse, blank_takeWhile text,
    blank_reverse.mpr (blank_takeWhile _), ?_⟩, fun c first => ?_, fun c last => ?_⟩
  · rw [List.append_assoc, ← whole, front]
  · apply not_blank_head?_dropWhile text
    rw [startsClean, whole, List.head?_append, first]
    rfl
  · apply not_blank_head?_dropWhile rest.reverse
    rwa [trim, startsClean, List.getLast?_reverse] at last

theorem trim_eq_iff : trim text = inner ↔ Trimmed text inner := by
  constructor
  · rintro rfl
    exact trimmed_trim text
  · rintro ⟨⟨before, behind, blankBefore, blankBehind, rfl⟩, first, last⟩
    -- An inner text without characters does not stop the blanks before it from being dropped.
    by_cases nothing : inner = []
    · subst nothing
      have blank : Blank (before ++ [] ++ behind) := by simp [blankBefore, blankBehind]
      rw [trim, List.dropWhile_eq_nil_iff.mpr blank]
      rfl
    · have firstBehind : ∀ c, (inner ++ behind).head? = some c → isBlank c = false := by
        obtain ⟨d, rest, rfl⟩ := List.exists_cons_of_ne_nil nothing
        exact first
      have lastFirst : ∀ c, inner.reverse.head? = some c → isBlank c = false := by
        intro c isLast
        rw [List.head?_reverse] at isLast
        exact last c isLast
      rw [trim, List.append_assoc, dropWhile_blanks_append blankBefore firstBehind,
        List.reverse_append, dropWhile_blanks_append (blank_reverse.mpr blankBehind) lastFirst,
        List.reverse_reverse]

private theorem trim_eq_nil_iff : trim text = [] ↔ Blank text := by
  rw [trim_eq_iff]
  constructor
  · rintro ⟨⟨before, behind, blankBefore, blankBehind, rfl⟩, _, _⟩
    simp [blankBefore, blankBehind]
  · intro blank
    exact ⟨⟨text, [], blank, blank_nil, by simp⟩, by simp, by simp⟩

private theorem splitAt_eq_splitOn (separator : Char) (text : List Char) :
    splitAt separator text = text.splitOn separator := by
  induction text with
  | nil => rw [splitAt, List.splitOn_nil]
  | cons c rest ih =>
    rw [splitAt, List.splitOn_cons_eq_if_modifyHead, ih]
    by_cases here : c = separator
    · simp [here]
    · cases others : rest.splitOn separator with
      | nil => exact absurd others (List.splitOn_ne_nil separator rest)
      | cons part parts => simp [here]

private theorem not_mem_splitAt (separator : Char) (text : List Char) :
    ∀ part ∈ splitAt separator text, separator ∉ part := by
  fun_induction splitAt separator text with
  | case1 => simp
  | case2 rest ih => exact List.forall_mem_cons.mpr ⟨List.not_mem_nil, ih⟩
  | case3 c rest other nothing =>
    rw [splitAt_eq_splitOn] at nothing
    exact absurd nothing (List.splitOn_ne_nil separator rest)
  | case4 c rest other part parts others ih =>
    rw [others] at ih
    obtain ⟨first, later⟩ := List.forall_mem_cons.mp ih
    refine List.forall_mem_cons.mpr ⟨?_, later⟩
    simpa [first] using Ne.symm other

/-- A text is joined of its parts without the separator, and of no others. -/
theorem splitAt_eq_iff {separator : Char} :
    splitAt separator text = parts ↔
      parts ≠ [] ∧ (∀ part ∈ parts, separator ∉ part) ∧ [separator].intercalate parts = text := by
  constructor
  · rintro rfl
    refine ⟨?_, not_mem_splitAt separator text, ?_⟩
    · rw [splitAt_eq_splitOn]
      exact List.splitOn_ne_nil separator text
    · rw [splitAt_eq_splitOn, List.intercalate_splitOn]
  · rintro ⟨nonempty, free, rfl⟩
    rw [splitAt_eq_splitOn, List.splitOn_intercalate separator free nonempty]

theorem splitFirst?_append {separator : Char} (free : separator ∉ before) :
    splitFirst? separator (before ++ separator :: behind) = some (before, behind) := by
  induction before with
  | nil => rw [List.nil_append, splitFirst?, if_pos rfl]
  | cons c rest ih =>
    obtain ⟨other, later⟩ := not_or.mp (mt List.mem_cons.mpr free)
    rw [List.cons_append, splitFirst?, if_neg (Ne.symm other), ih later]
    rfl

theorem splitFirst?_eq_none {separator : Char} (free : separator ∉ text) :
    splitFirst? separator text = none := by
  induction text with
  | nil => rfl
  | cons c rest ih =>
    obtain ⟨other, later⟩ := not_or.mp (mt List.mem_cons.mpr free)
    rw [splitFirst?, if_neg (Ne.symm other), ih later]
    rfl

/-- Of the parts of a text, the blank ones are left out and the others trimmed. -/
inductive Kept : List (List Char) → List (List Char) → Prop
  | nil : Kept [] []
  | blank {part : List Char} {parts ps : List (List Char)} (blank : Blank part)
    (others : Kept parts ps) : Kept (part :: parts) ps
  | piece {part p : List Char} {parts ps : List (List Char)} (trimmed : Trimmed part p)
    (nonempty : p ≠ []) (others : Kept parts ps) : Kept (part :: parts) (p :: ps)

/-- The text is joined by commas of parts of which these pieces are kept. -/
def Pieces (text : List Char) (ps : List (List Char)) : Prop :=
  ∃ parts, parts ≠ [] ∧ (∀ part ∈ parts, ',' ∉ part) ∧ [','].intercalate parts = text ∧
    Kept parts ps

private theorem kept_iff :
    Kept parts ps ↔ ((parts.map trim).filter fun piece => !piece.isEmpty) = ps := by
  constructor
  · intro kept
    induction kept with
    | nil => rfl
    | blank blank _ ih => simp [trim_eq_nil_iff.mpr blank, ih]
    | piece trimmed nonempty _ ih => simp [trim_eq_iff.mpr trimmed, nonempty, ih]
  · rintro rfl
    induction parts with
    | nil => exact .nil
    | cons part parts ih =>
      by_cases nothing : trim part = []
      · simpa [nothing] using Kept.blank (trim_eq_nil_iff.mp nothing) ih
      · simpa [nothing] using Kept.piece (trimmed_trim part) nothing ih

theorem pieces_eq_iff : pieces text = ps ↔ Pieces text ps := by
  constructor
  · intro kept
    obtain ⟨nonempty, free, joined⟩ := splitAt_eq_iff.mp (rfl : splitAt ',' text = _)
    exact ⟨splitAt ',' text, nonempty, free, joined, kept_iff.mpr kept⟩
  · rintro ⟨parts, nonempty, free, joined, kept⟩
    rw [pieces, splitAt_eq_iff.mpr ⟨nonempty, free, joined⟩]
    exact kept_iff.mp kept

end IntegerDomains.Text

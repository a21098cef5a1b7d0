import IntegerDomains.Domain.Build
import IntegerDomains.Text.Blank
import IntegerDomains.Text.Numeral

namespace IntegerDomains

/-- Why text is no written domain. -/
inductive ReadError
  /-- A bound of the piece is no numeral. -/
  | badBound (piece : List Char) (cause : Text.NumeralError)
  /-- The bounds of the piece are in the wrong order. -/
  | reversed (piece : List Char)
  /-- The pieces are well written, but their bounds are refused. -/
  | refused (refusal : Refusal)
deriving DecidableEq

/-- The wording of an error. -/
def ReadError.message : ReadError → String
  | .badBound piece cause => s!"bad bound in '{String.ofList piece}': {cause.message}"
  | .reversed piece => s!"range '{String.ofList piece}' has lo > hi"
  | .refused refusal => refusal.message

namespace Text

/-- The trimmed pieces of the text that are not blank. -/
def pieces (text : List Char) : List (List Char) :=
  ((splitAt ',' text).map trim).filter fun piece => !piece.isEmpty

/-- The texts of both bounds of a piece: those around its first dash, or twice the whole. -/
def boundTexts (piece : List Char) : List Char × List Char :=
  match splitFirst? '-' piece with
  | some (lo, hi) => (trim lo, trim hi)
  | none => (piece, piece)

/-- The bounds of a piece. -/
def readPiece (piece : List Char) : Except ReadError (Nat × Nat) := do
  let lo ← (readNumeral (boundTexts piece).1).mapError (ReadError.badBound piece)
  let hi ← (readNumeral (boundTexts piece).2).mapError (ReadError.badBound piece)
  if hi < lo then .error (.reversed piece) else return (lo, hi)

end Text

/-- The domain that the text writes. -/
def Domain.read (text : String) : Except ReadError Domain := do
  let pairs ← (Text.pieces text.toList).mapM Text.readPiece
  (Domain.tryOfPairs pairs).mapError ReadError.refused

end IntegerDomains

import IntegerDomains.Arithmetic.Difference
import IntegerDomains.Arithmetic.Product
import IntegerDomains.Arithmetic.Quotient
import IntegerDomains.Arithmetic.Sum
import IntegerDomains.Domain.Intersection
import IntegerDomains.Packed
import IntegerDomains.Text.Reading

namespace IntegerDomains.Calculator

/-- The operators of the command line. -/
inductive Operator
  | plus
  | minus
  | times
  | divide
  | cofactor
  | intersect
deriving DecidableEq

/-- The operator of a command word. -/
def Operator.ofWord? : String → Option Operator
  | "plus" => some .plus
  | "minus" => some .minus
  | "mul" => some .times
  | "div" => some .divide
  | "inv-mul" => some .cofactor
  | "intersect" => some .intersect
  | _ => none

/-- The title of an operator's result. -/
def Operator.title : Operator → String
  | .plus => "Plus"
  | .minus => "Minus"
  | .times => "Mul"
  | .divide => "Div"
  | .cofactor => "InvMul"
  | .intersect => "Intersect"

/-- The result of an operator; `floor` is for division alone. -/
def Operator.apply (op : Operator) (floor : Bool) (left right : Domain) : Except Fault Domain :=
  match op with
  | .plus => left.add right
  | .minus => left.sub right
  | .times => left.mul right
  | .divide => left.div right floor
  | .cofactor => left.cofactor right
  | .intersect => left.inter right

/-- Arguments set apart into words and flags. -/
structure Arguments where
  words : List String
  floor : Bool
  packed : Bool

/-- The words and flags of a command line: each flag at most once, and no other word that begins
    with a dash, except a dash alone and what follows two dashes. -/
def Arguments.ofList? : List String → Option Arguments
  | [] => some ⟨[], false, false⟩
  | "--" :: rest => some ⟨rest, false, false⟩
  | arg :: rest => do
    let found ← ofList? rest
    if arg = "--floor" then
      if found.floor then none else some ⟨found.words, true, found.packed⟩
    else if arg = "--packed" then
      if found.packed then none else some ⟨found.words, found.floor, true⟩
    else if arg.toList.head? = some '-' ∧ arg ≠ "-" then none
    else some ⟨arg :: found.words, found.floor, found.packed⟩

/-- One calculation. -/
structure Request where
  operator : Operator
  left : String
  right : String
  floor : Bool
  packed : Bool

/-- The calculation that a command line asks for. -/
def Request.ofArguments? (args : List String) : Option Request := do
  match ← Arguments.ofList? args with
  | ⟨[word, left, right], floor, packed⟩ =>
    return ⟨← Operator.ofWord? word, left, right, floor, packed⟩
  | _ => none

/-- What the command line answers: the exit status, the lines of output, and what went wrong. -/
structure Outcome where
  status : UInt32
  lines : List String
  problem : Option String

/-- A value that may be missing. -/
def optionText : Option Nat → String
  | none => "None"
  | some v => s!"Some({v})"

/-- Packed words in square brackets. -/
def wordsText (words : List UInt16) : String :=
  "[" ++ String.intercalate ", " (words.map fun word => toString word.toNat) ++ "]"

/-- An operand with its size. -/
def operandText (d : Domain) : Except Fault String := do
  return (← d.text) ++ " (size " ++ toString (← d.size) ++ ")"

/-- The lines on both operands and on the result. -/
def Request.report (request : Request) (left right : Domain) : Except Fault (List String) := do
  let operands := ["left  = " ++ (← operandText left), "right = " ++ (← operandText right)]
  let result ← request.operator.apply request.floor left right
  let size ← result.size
  let least := optionText (← result.least?)
  let greatest := optionText (← result.greatest?)
  let packed ← if request.packed then
      (fun words => ["packed = " ++ wordsText words]) <$> result.toPacked
    else pure []
  return operands ++ [request.operator.title ++ " = " ++ (← result.text),
    s!"size = {size}, min = {least}, max = {greatest}"] ++ packed

/-- The outcome of a calculation: status 1 for a text that is no domain, 101 for a fault. -/
def Request.outcome (request : Request) : Outcome :=
  match Domain.read request.left, Domain.read request.right with
  | .error problem, _ | .ok _, .error problem => ⟨1, [], some problem.message⟩
  | .ok left, .ok right =>
    match request.report left right with
    | .error fault => ⟨101, [], some fault.message⟩
    | .ok lines => ⟨0, lines, none⟩

/-- How the command line is used. -/
def usage : String :=
  "usage: calc [--floor] [--packed] plus|minus|mul|div|inv-mul|intersect DOMAIN DOMAIN"

/-- The outcome of a command line: status 2 where it asks for no calculation. -/
def run (args : List String) : Outcome :=
  match Request.ofArguments? args with
  | some request => request.outcome
  | none => ⟨2, [], some usage⟩

end IntegerDomains.Calculator

import IntegerDomains.Domain.Basic

namespace IntegerDomains

/-- Why stored data are no well-formed domain in its smallest form, or packed words no sequence. -/
inductive Defect
  /-- The value exceeds `maxValue`. -/
  | outOfBounds (v : Nat)
  /-- The interval has its bounds in the wrong order. -/
  | inverted (lo hi : Nat)
  /-- The interval at this position starts before its predecessor ends. -/
  | unsorted (index : Nat)
  /-- The interval at this position touches its predecessor. -/
  | unmerged (index : Nat)
  /-- A sequence without intervals stands for the empty set. -/
  | noIntervals
  /-- The one value is not stored as such. -/
  | unsolved (v : Nat)
  /-- A mask without members stands for the empty set. -/
  | noMembers
  /-- The largest value would fit a mask. -/
  | maskable (largest : Nat)
  /-- The mask has a member above `maskMax`. -/
  | maskOverflow (m : Mask)
  /-- The number of packed words is not that of whole intervals. -/
  | packedLength (count : Nat)
deriving DecidableEq

/-- The wording of a defect. -/
def Defect.message : Defect → String
  | .outOfBounds v => s!"value {v} is out of bounds (SUP = {maxValue})"
  | .inverted lo hi => s!"range [{lo},{hi}] has lo > hi"
  | .unsorted index => s!"range #{index} starts before its predecessor ends"
  | .unmerged index => s!"range #{index} touches its predecessor and should have been merged"
  | .noIntervals => "empty range sequence should be represented as Empty"
  | .unsolved v => s!"single value {v} should be represented as Solved"
  | .noMembers => "empty bitset should be represented as Empty"
  | .maskable largest => s!"ranges with max {largest} should be represented as a Bitset"
  | .maskOverflow m =>
    "bitset 0x" ++ String.ofList (Nat.toDigits 16 m.toNat) ++ " uses bits beyond value 30"
  | .packedLength count => s!"packed length {count} is not a multiple of 4 words"

/-- The operations that check their operands. -/
inductive Operation
  | intersection
  | intersectionValue
  | disjointness
  | removeValue
  | removeFrom
  | removeUpTo
  | sum
  | difference
  | product
  | quotient
  | cofactor
deriving DecidableEq

/-- The name under which messages speak of an operation. -/
def Operation.name : Operation → String
  | .intersection => "intersection"
  | .intersectionValue => "intersection_value"
  | .disjointness => "shares_no_elements"
  | .removeValue => "remove_value"
  | .removeFrom => "remove_gte"
  | .removeUpTo => "remove_lte"
  | .sum => "plus"
  | .difference => "minus"
  | .product => "mul"
  | .quotient => "divby"
  | .cofactor => "inv_mul"

/-- The questions that only a mask with members answers. -/
inductive MaskQuestion
  | least
  | greatest
  | fill
deriving DecidableEq

/-- The name under which messages speak of a question. -/
def MaskQuestion.name : MaskQuestion → String
  | .least => "bit_min"
  | .greatest => "bit_max"
  | .fill => "fill_below_max"

/-- Why a computation ends without a result. -/
inductive Fault
  /-- A number left its machine word. -/
  | overflow
  /-- An operand of the operation is malformed. -/
  | operand (op : Operation) (d : Domain) (defect : Defect)
  /-- The result of the operation is malformed. -/
  | result (op : Operation) (d : Domain) (defect : Defect)
  /-- The data from which a domain was to be built have a defect. -/
  | malformed (defect : Defect)
  /-- The pairs from which a domain was to be built have a defect. -/
  | pairs (defect : Defect)
  /-- The threshold of a removal exceeds `maxValue + 1`. -/
  | threshold (op : Operation) (v : Nat)
  /-- An interval was to be built from bounds in the wrong order. -/
  | bounds
  /-- Intervals were to be coalesced that are not sorted. -/
  | unsortedIntervals
  /-- A domain was to be built from intervals that are not separated. -/
  | unseparated (s : List Interval)
  /-- A mask was to be built from bounds in the wrong order. -/
  | maskBounds (lo hi : Nat)
  /-- A mask was to be built beyond `maskMax`. -/
  | maskCapacity (hi : Nat)
  /-- The question was put to a mask without members. -/
  | noMember (question : MaskQuestion)
deriving DecidableEq

/-- The wording of a fault. -/
def Fault.message : Fault → String
  | .overflow => "arithmetic overflow"
  | .operand op d defect => s!"{op.name}: invalid input {d.record}: {defect.message}"
  | .result op d defect => s!"{op.name}: produced invalid result {d.record}: {defect.message}"
  | .malformed defect => defect.message
  | .pairs defect => s!"from_ranges: {defect.message}"
  | .threshold op v => s!"{op.name}: threshold {v} exceeds SUP + 1"
  | .bounds => "Range bounds must satisfy lo <= hi"
  | .unsortedIntervals => "merge_overlapping expects sorted ranges"
  | .unseparated s => s!"from_csis: ranges are not CSIS: {Domain.record.recordAll s}"
  | .maskBounds lo hi => s!"range_mask: lo={lo} > hi={hi}"
  | .maskCapacity hi => s!"range_mask: hi={hi} exceeds bitset capacity"
  | .noMember question => s!"{question.name} of an empty bitset"

/-- Why a checked constructor does not answer a domain. -/
inductive Refusal
  /-- The data have a defect. -/
  | rejected (defect : Defect)
  /-- The construction itself ended in a fault. -/
  | failed (fault : Fault)
deriving DecidableEq

/-- The wording of a refusal. -/
def Refusal.message : Refusal → String
  | .rejected defect => defect.message
  | .failed fault => fault.message

end IntegerDomains

import IntegerDomains.Arithmetic.Difference
import IntegerDomains.Arithmetic.Product
import IntegerDomains.Arithmetic.Quotient
import IntegerDomains.Arithmetic.Sum
import IntegerDomains.Calculator
import IntegerDomains.Domain.Build
import IntegerDomains.Domain.Intersection
import IntegerDomains.Domain.Query
import IntegerDomains.Domain.Removal
import IntegerDomains.Domain.Validity
import IntegerDomains.Main
import IntegerDomains.Packed
import IntegerDomains.Proofs.Bits
import IntegerDomains.Proofs.Calls
import IntegerDomains.Proofs.Cofactors
import IntegerDomains.Proofs.Collections
import IntegerDomains.Proofs.Combination
import IntegerDomains.Proofs.Construction
import IntegerDomains.Proofs.Covering
import IntegerDomains.Proofs.Cuts
import IntegerDomains.Proofs.Defects
import IntegerDomains.Proofs.Denotation
import IntegerDomains.Proofs.Differences
import IntegerDomains.Proofs.Division
import IntegerDomains.Proofs.Enumeration
import IntegerDomains.Proofs.Exports
import IntegerDomains.Proofs.Gaps
import IntegerDomains.Proofs.Grammar
import IntegerDomains.Proofs.Groupings
import IntegerDomains.Proofs.Interchange
import IntegerDomains.Proofs.Joining
import IntegerDomains.Proofs.Listing
import IntegerDomains.Proofs.MalformedOperands
import IntegerDomains.Proofs.MaskPaths
import IntegerDomains.Proofs.MaximalRuns
import IntegerDomains.Proofs.Membership
import IntegerDomains.Proofs.Monotonicity
import IntegerDomains.Proofs.Multiplication
import IntegerDomains.Proofs.Numerals
import IntegerDomains.Proofs.Outcomes
import IntegerDomains.Proofs.Packing
import IntegerDomains.Proofs.Pieces
import IntegerDomains.Proofs.Products
import IntegerDomains.Proofs.Propagation
import IntegerDomains.Proofs.Quotients
import IntegerDomains.Proofs.Repairs
import IntegerDomains.Proofs.Runs
import IntegerDomains.Proofs.Scaling
import IntegerDomains.Proofs.SeparatedForm
import IntegerDomains.Proofs.Separating
import IntegerDomains.Proofs.Settling
import IntegerDomains.Proofs.Shifts
import IntegerDomains.Proofs.SmallestForms
import IntegerDomains.Proofs.SortingLoop
import IntegerDomains.Proofs.Subsets
import IntegerDomains.Proofs.Sums
import IntegerDomains.Proofs.TruthValues
import IntegerDomains.Proofs.Validation
import IntegerDomains.Proofs.WordGroups
import IntegerDomains.Proofs.Writing
import IntegerDomains.Text.Reading

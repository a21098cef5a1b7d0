import IntegerDomains.Domain.Intersection
import IntegerDomains.Proofs.Differences
import IntegerDomains.Proofs.Products
import IntegerDomains.Proofs.Quotients
import IntegerDomains.Proofs.Subsets
import IntegerDomains.Proofs.Sums

/-!
None of the operations involved is exact: the difference of two domains with zero, the product
intervals and the cofactors of zero answer more than there is. But they never answer less
(`Relation.forward_holds`, `Relation.backward_holds`), so no step removes a value of a solution.
-/

namespace IntegerDomains.Propagation

inductive Relation
  | sum
  | product
deriving DecidableEq

def Relation.combine : Relation → Nat → Nat → Nat
  | .sum, x, y => x + y
  | .product, x, y => x * y

/-- What the domains of both operands leave for the result. -/
def Relation.forward : Relation → Domain → Domain → Except Fault Domain
  | .sum, d, e => d.add e
  | .product, d, e => d.mul e

/-- What the domains of the result and of one operand leave for the other operand. -/
def Relation.backward : Relation → Domain → Domain → Except Fault Domain
  | .sum, d, e => d.sub e
  | .product, d, e => d.cofactor e

/-- The result is what the relation makes of the operands. Variables may coincide. -/
structure Constraint (V : Type) where
  relation : Relation
  left : V
  right : V
  result : V
deriving DecidableEq

def Constraint.Holds {V : Type} (c : Constraint V) (assignment : V → Nat) : Prop :=
  c.relation.combine (assignment c.left) (assignment c.right) = assignment c.result

/-- The variable of a constraint that a step narrows. -/
inductive Role
  | result
  | left
  | right
deriving DecidableEq

structure Step (V : Type) where
  constraint : Constraint V
  role : Role
deriving DecidableEq

variable {V : Type}

def Step.target (step : Step V) : V :=
  match step.role with
  | .result => step.constraint.result
  | .left => step.constraint.left
  | .right => step.constraint.right

/-- What the other two variables leave for the target. -/
def Step.support (step : Step V) (store : V → Domain) : Except Fault Domain :=
  let c := step.constraint
  match step.role with
  | .result => c.relation.forward (store c.left) (store c.right)
  | .left => c.relation.backward (store c.result) (store c.right)
  | .right => c.relation.backward (store c.result) (store c.left)

def Step.apply [DecidableEq V] (step : Step V) (store : V → Domain) :
    Except Fault (V → Domain) := do
  let support ← step.support store
  let narrowed ← (store step.target).inter support
  return fun x => if x = step.target then narrowed else store x

/-- The domains after each of the steps in turn. -/
def run [DecidableEq V] (store : V → Domain) : List (Step V) → Except Fault (List (V → Domain))
  | [] => .ok []
  | step :: rest => do
    let next ← step.apply store
    return next :: (← run next rest)

private theorem Relation.combine_comm (relation : Relation) (x y : Nat) :
    relation.combine x y = relation.combine y x := by
  cases relation with
  | sum => exact Nat.add_comm x y
  | product => exact Nat.mul_comm x y

theorem Relation.forward_holds (relation : Relation) {d e : Domain} (dValid : d.Valid)
    (eValid : e.Valid) :
    ∃ r, relation.forward d e = .ok r ∧ r.Valid ∧ ∀ x ∈ d, ∀ y ∈ e,
      relation.combine x y ≤ maxValue → relation.combine x y ∈ r := by
  cases relation with
  | sum =>
    obtain ⟨r, executed, denotes⟩ := Domain.add_denotes dValid eValid
    refine ⟨r, executed, denotes.valid, ?_⟩
    intro x inLeft y inRight bound
    exact (denotes.mem_iff _).mpr ⟨bound, x, inLeft, y, inRight, rfl⟩
  | product =>
    obtain ⟨r, executed, valid, holds⟩ := Domain.mul_holds_products dValid eValid
    refine ⟨r, executed, valid, ?_⟩
    intro x inLeft y inRight bound
    have member := holds x inLeft y inRight
    simp only [Relation.combine] at bound ⊢
    rwa [Nat.min_eq_left bound] at member

theorem Relation.backward_holds (relation : Relation) {d e : Domain} (dValid : d.Valid)
    (eValid : e.Valid) :
    ∃ r, relation.backward d e = .ok r ∧ r.Valid ∧ ∀ x ≤ maxValue, ∀ y ∈ e,
      relation.combine x y ∈ d → x ∈ r := by
  cases relation with
  | sum =>
    obtain ⟨r, executed, denotes⟩ := Domain.sub_denotes dValid eValid
    refine ⟨r, executed, denotes.valid, ?_⟩
    intro x _ y inRight sum
    exact (denotes.mem_iff x).mpr (.inr ⟨x + y, sum, y, inRight, rfl⟩)
  | product => exact Domain.cofactor_holds_factors dValid eValid

def AllValid (store : V → Domain) : Prop := ∀ x, (store x).Valid

/-- Every value of the assignment is in the domain of its variable. -/
def Within (assignment : V → Nat) (store : V → Domain) : Prop := ∀ x, assignment x ∈ store x

def Narrows (before after : V → Domain) : Prop := ∀ x, after x ⊆ before x

/-- The support has the target's value in every assignment that satisfies the constraint. -/
private theorem Step.support_holds (step : Step V) {store : V → Domain} (valid : AllValid store) :
    ∃ r, step.support store = .ok r ∧ r.Valid ∧ ∀ assignment, step.constraint.Holds assignment →
      Within assignment store → assignment step.target ∈ r := by
  obtain ⟨⟨relation, left, right, result⟩, role⟩ := step
  simp only [Constraint.Holds]
  cases role with
  | result =>
    obtain ⟨r, executed, rValid, holds⟩ := relation.forward_holds (valid left) (valid right)
    refine ⟨r, executed, rValid, ?_⟩
    intro assignment combined within
    have bound := (valid result).le_maxValue (within result)
    have member := holds _ (within left) _ (within right) (by rwa [combined])
    rwa [combined] at member
  | left =>
    obtain ⟨r, executed, rValid, holds⟩ := relation.backward_holds (valid result) (valid right)
    refine ⟨r, executed, rValid, ?_⟩
    intro assignment combined within
    apply holds _ ((valid left).le_maxValue (within left)) _ (within right)
    rw [combined]
    exact within result
  | right =>
    obtain ⟨r, executed, rValid, holds⟩ := relation.backward_holds (valid result) (valid left)
    refine ⟨r, executed, rValid, ?_⟩
    intro assignment combined within
    apply holds _ ((valid right).le_maxValue (within right)) _ (within left)
    rw [relation.combine_comm, combined]
    exact within result

variable [DecidableEq V]

/-- What holds of the narrowed domain and held of all domains before holds of all domains after. -/
private theorem forall_narrowed {P : V → Domain → Prop} {store : V → Domain} {target : V}
    {narrowed : Domain} (atTarget : P target narrowed) (before : ∀ x, P x (store x)) (x : V) :
    P x (if x = target then narrowed else store x) := by
  by_cases same : x = target
  · subst same
    simpa using atTarget
  · simpa [same] using before x

theorem Step.apply_keeps (step : Step V) {store : V → Domain} (valid : AllValid store) :
    ∃ next, step.apply store = .ok next ∧ AllValid next ∧ Narrows store next ∧
      ∀ assignment, step.constraint.Holds assignment → Within assignment store →
        Within assignment next := by
  obtain ⟨support, supported, supportValid, holds⟩ := step.support_holds valid
  obtain ⟨narrowed, intersected, denotes⟩ := Domain.inter_denotes (valid step.target) supportValid
  refine ⟨fun x => if x = step.target then narrowed else store x, ?_, ?_, ?_, ?_⟩
  · rw [Step.apply, supported]
    simp only [bind, Except.bind, intersected]
    rfl
  · exact forall_narrowed (P := fun _ d => d.Valid) denotes.valid valid
  · apply forall_narrowed (P := fun x d => d ⊆ store x)
    · intro v member
      exact ((denotes.mem_iff v).mp member).1
    · intro x v member
      exact member
  · intro assignment satisfied within
    apply forall_narrowed (P := fun x d => assignment x ∈ d)
    · exact (denotes.mem_iff _).mpr ⟨within step.target, holds assignment satisfied within⟩
    · exact within

/-- Steps for constraints of a list keep what satisfies all constraints of the list. -/
theorem run_keeps (constraints : List (Constraint V)) {steps : List (Step V)} {store : V → Domain}
    (valid : AllValid store) (posted : ∀ step ∈ steps, step.constraint ∈ constraints) :
    ∃ stores, run store steps = .ok stores ∧ stores.length = steps.length ∧
      (store :: stores).Pairwise Narrows ∧ ∀ current ∈ stores, AllValid current ∧
        ∀ assignment, (∀ c ∈ constraints, c.Holds assignment) → Within assignment store →
          Within assignment current := by
  induction steps generalizing store with
  | nil => exact ⟨[], rfl, rfl, List.pairwise_singleton _ _, by simp⟩
  | cons step rest ih =>
    obtain ⟨first, others⟩ := List.forall_mem_cons.mp posted
    obtain ⟨next, stepped, nextValid, narrows, keeps⟩ := step.apply_keeps valid
    obtain ⟨stores, executed, count, chain, each⟩ := ih nextValid others
    refine ⟨next :: stores, ?_, ?_, ?_, ?_⟩
    · rw [run, stepped]
      simp only [bind, Except.bind, executed]
      rfl
    · rw [List.length_cons, List.length_cons, count]
    · refine List.pairwise_cons.mpr ⟨?_, chain⟩
      intro later member
      rcases List.mem_cons.mp member with rfl | inRest
      · exact narrows
      · intro x v inLater
        exact narrows x v ((List.pairwise_cons.mp chain).1 later inRest x v inLater)
    · intro current member
      rcases List.mem_cons.mp member with rfl | inRest
      · refine ⟨nextValid, ?_⟩
        intro assignment satisfied
        exact keeps assignment (satisfied step.constraint first)
      · obtain ⟨currentValid, kept⟩ := each current inRest
        refine ⟨currentValid, ?_⟩
        intro assignment satisfied within
        exact kept assignment satisfied (keeps assignment (satisfied step.constraint first) within)

/-- From well-formed domains, steps for given constraints in any number and order run without a
    fault. After each of them the domains are well formed and subsets of all domains before, and
    every assignment of the initial domains that satisfies the constraints is still within them. So
    a domain without members tells that there is none. -/
theorem run_keeps_solutions {constraints : List (Constraint V)} {steps : List (Step V)}
    {store : V → Domain} (valid : ∀ x, (store x).validate = .ok ())
    (posted : ∀ step ∈ steps, step.constraint ∈ constraints) :
    ∃ stores, run store steps = .ok stores ∧ stores.length = steps.length ∧
      (store :: stores).Pairwise (fun before after => ∀ x, after x ⊆ before x) ∧
      ∀ current ∈ stores, (∀ x, (current x).validate = .ok ()) ∧
        (∀ assignment : V → Nat, (∀ x, assignment x ∈ store x) →
          (∀ c ∈ constraints, c.Holds assignment) → ∀ x, assignment x ∈ current x) ∧
        ∀ x, current x = .empty → ¬∃ assignment : V → Nat,
          (∀ x, assignment x ∈ store x) ∧ ∀ c ∈ constraints, c.Holds assignment := by
  simp only [Domain.validate_eq_ok_iff] at valid ⊢
  obtain ⟨stores, executed, count, chain, each⟩ := run_keeps constraints valid posted
  refine ⟨stores, executed, count, chain, ?_⟩
  intro current member
  obtain ⟨currentValid, kept⟩ := each current member
  refine ⟨currentValid, ?_, ?_⟩
  · intro assignment within satisfied
    exact kept assignment satisfied within
  · rintro x none ⟨assignment, within, satisfied⟩
    have value := kept assignment satisfied within x
    rw [none] at value
    exact Domain.mem_empty.mp value

/-- Four variables, of which the third is the sum and the fourth the product of the first two. -/
def sumAndProduct : List (Constraint (Fin 4)) := [⟨.sum, 0, 1, 2⟩, ⟨.product, 0, 1, 3⟩]

def sumAndProductStore : Fin 4 → Domain
  | 0 => .mask 2047#32
  | 1 => .mask 66060288#32
  | 2 => .mask 8388607#32
  | 3 => .intervals [⟨0, 0⟩, ⟨21, 44⟩]

def sumAndProductSteps : List (Step (Fin 4)) :=
  [⟨⟨.sum, 0, 1, 2⟩, .result⟩, ⟨⟨.sum, 0, 1, 2⟩, .left⟩, ⟨⟨.product, 0, 1, 3⟩, .right⟩,
    ⟨⟨.product, 0, 1, 3⟩, .result⟩, ⟨⟨.sum, 0, 1, 2⟩, .right⟩]

theorem run_keeps_solutions_sumAndProduct :
    (∀ x, (sumAndProductStore x).validate = .ok ()) ∧
      (∀ step ∈ sumAndProductSteps, step.constraint ∈ sumAndProduct) ∧
      ∃ stores, run sumAndProductStore sumAndProductSteps = .ok stores ∧ stores.length = 5 ∧
        ∀ current ∈ stores, ∀ assignment : Fin 4 → Nat,
          (∀ x, assignment x ∈ sumAndProductStore x) →
            (∀ c ∈ sumAndProduct, c.Holds assignment) → ∀ x, assignment x ∈ current x := by
  have valid : ∀ x, (sumAndProductStore x).validate = .ok () := by
    intro x
    match x with
    | 0 | 1 | 2 | 3 => rfl
  have posted : ∀ step ∈ sumAndProductSteps, step.constraint ∈ sumAndProduct := by decide
  obtain ⟨stores, executed, count, _, each⟩ := run_keeps_solutions valid posted
  refine ⟨valid, posted, stores, executed, count, ?_⟩
  intro current member
  exact (each current member).2.1

end IntegerDomains.Propagation

import IntegerDomains.Proofs.Calls

/-!
The removals by a threshold of any size look at their operand only for thresholds among the values
of domains. Beyond them all members stay or none does, whatever the operand is.
-/

namespace IntegerDomains

/-- The computation ends in the fault of the operation for the first operand that validation
    rejects, with the defect that validation reports. -/
def Operation.Refuses {α : Type} (op : Operation) (operands : List Domain)
    (answer : Except Fault α) : Prop :=
  ∃ accepted d rest defect, operands = accepted ++ d :: rest ∧
    (∀ a ∈ accepted, a.validate = .ok ()) ∧ d.validate = .error (.rejected defect) ∧
    answer = .error (.operand op d defect)

private theorem Operation.Refuses.exists_fault {α : Type} {op : Operation} {operands : List Domain}
    {answer : Except Fault α} (refuses : op.Refuses operands answer) :
    ∃ fault, answer = .error fault := by
  obtain ⟨_, _, _, _, _, _, _, faulted⟩ := refuses
  exact ⟨_, faulted⟩

namespace Domain

/-- The check of an operand faults with the defect that validation reports. -/
private theorem checkOperand_eq_error {d : Domain} (op : Operation) (malformed : ¬d.Valid) :
    ∃ defect, d.validate = .error (.rejected defect) ∧
      checkOperand op d = .error (.operand op d defect) := by
  obtain ⟨found, executed, accepted⟩ := defect?_total d
  cases found with
  | none => exact absurd (accepted.mp rfl) malformed
  | some defect =>
    refine ⟨defect, validate_eq_rejected_iff.mpr executed, ?_⟩
    rw [checkOperand, executed]
    rfl

private theorem checkOperand_refuses {α : Type} {op : Operation} {d : Domain}
    {next : Unit → Except Fault α} (malformed : ¬d.Valid) (others : List Domain) :
    op.Refuses (d :: others) (checkOperand op d >>= next) := by
  obtain ⟨defect, rejected, checked⟩ := checkOperand_eq_error op malformed
  refine ⟨[], d, others, defect, rfl, by simp, rejected, ?_⟩
  rw [checked]
  rfl

theorem checkUnary_refuses {op : Operation} {run : Domain → Except Fault Domain} {d : Domain}
    (malformed : ¬d.Valid) : op.Refuses [d] (checkUnary op run d) :=
  checkOperand_refuses malformed []

/-- Both operands are checked before anything else, the first one first. -/
private theorem checkOperands_refuse {α : Type} {op : Operation} {d e : Domain}
    {next : Unit → Except Fault α} (malformed : ¬(d.Valid ∧ e.Valid)) :
    op.Refuses [d, e] (checkOperand op d >>= fun _ => checkOperand op e >>= next) := by
  by_cases dValid : d.Valid
  · have eMalformed : ¬e.Valid := fun eValid => malformed ⟨dValid, eValid⟩
    obtain ⟨defect, rejected, checked⟩ := checkOperand_eq_error op eMalformed
    refine ⟨[d], e, [], defect, rfl, ?_, rejected, ?_⟩
    · simp [validate_eq_ok_iff, dValid]
    · rw [checkOperand_eq_ok dValid]
      simp only [bind, Except.bind, checked]
  · exact checkOperand_refuses dValid [e]

theorem checkBinary_refuses {op : Operation} {run : Domain → Domain → Except Fault Domain}
    {d e : Domain} (malformed : ¬(d.Valid ∧ e.Valid)) :
    op.Refuses [d, e] (checkBinary op run d e) :=
  checkOperands_refuse malformed

private theorem disjoint_refuses {d e : Domain} (malformed : ¬(d.Valid ∧ e.Valid)) :
    Operation.disjointness.Refuses [d, e] (d.disjoint e) :=
  checkOperands_refuse malformed

end Domain

/-- The operation whose checks enclose the computation. -/
def Binary.operation : Binary → Operation
  | .inter => .intersection
  | .add => .sum
  | .sub => .difference
  | .mul => .product
  | .div _ => .quotient
  | .cofactor => .cofactor

theorem Binary.apply_refuses (op : Binary) {d e : Domain} (malformed : ¬(d.Valid ∧ e.Valid)) :
    op.operation.Refuses [d, e] (op.apply d e) := by
  cases op <;> exact Domain.checkBinary_refuses malformed

/-- A value that no domain may hold is a fault of its own. -/
private theorem Binary.applyValue_faults (op : Binary) {d : Domain} (malformed : ¬d.Valid)
    (v : Nat) : ∃ fault, (do op.apply d (← Domain.ofValue v)) = .error fault := by
  cases built : Domain.ofValue v with
  | error fault => exact ⟨fault, rfl⟩
  | ok e => exact (op.apply_refuses fun both => malformed both.1).exists_fault

/-- The operation looks at its operand. Filling up and compacting take any data, and so do the
    removals by a threshold beyond the values of domains. -/
def Unary.Checks : Unary → Prop
  | .fill | .compact => False
  | .atLeast t => 0 < t ∧ t ≤ maxValue
  | .atMost t => 0 ≤ t ∧ t < maxValue
  | _ => True

namespace Domain

private theorem below_faults {d : Domain} (malformed : ¬d.Valid) (v : Nat) :
    ∃ fault, d.below v = .error fault := by
  unfold below
  split
  · exact ⟨_, rfl⟩
  · exact (checkUnary_refuses malformed).exists_fault

private theorem above_faults {d : Domain} (malformed : ¬d.Valid) (v : Nat) :
    ∃ fault, d.above v = .error fault := by
  unfold above
  split
  · exact ⟨_, rfl⟩
  · exact (checkUnary_refuses malformed).exists_fault

private theorem atLeast_faults_iff {d : Domain} (malformed : ¬d.Valid) (t : Int) :
    (∃ fault, d.atLeast t = .error fault) ↔ 0 < t ∧ t ≤ maxValue := by
  unfold atLeast
  by_cases low : t ≤ 0
  · simp only [low, if_true, reduceCtorEq, exists_false, false_iff]
    omega
  · by_cases high : maxValue < t
    · simp only [low, high, if_true, if_false, reduceCtorEq, exists_false, false_iff]
      omega
    · simp only [low, high, if_false]
      exact iff_of_true (above_faults malformed _) ⟨by omega, by omega⟩

private theorem atMost_faults_iff {d : Domain} (malformed : ¬d.Valid) (t : Int) :
    (∃ fault, d.atMost t = .error fault) ↔ 0 ≤ t ∧ t < maxValue := by
  unfold atMost
  by_cases high : maxValue ≤ t
  · simp only [high, if_true, reduceCtorEq, exists_false, false_iff]
    omega
  · by_cases low : t < 0
    · simp only [low, high, if_true, if_false, reduceCtorEq, exists_false, false_iff]
      omega
    · simp only [low, high, if_false]
      exact iff_of_true (below_faults malformed _) ⟨by omega, by omega⟩

end Domain

/-- An operation that looks at its operand faults for a malformed one, for every scalar. -/
theorem Unary.apply_faults_iff (op : Unary) {d : Domain} (malformed : ¬d.Valid)
    (notFill : op ≠ .fill) (notCompact : op ≠ .compact) :
    (∃ fault, op.apply d = .error fault) ↔ op.Checks := by
  cases op with
  | fill => exact absurd rfl notFill
  | compact => exact absurd rfl notCompact
  | interValue v => exact iff_of_true (Domain.checkOperand_refuses malformed []).exists_fault trivial
  | erase v => exact iff_of_true (Domain.checkUnary_refuses malformed).exists_fault trivial
  | below v => exact iff_of_true (Domain.below_faults malformed v) trivial
  | above v => exact iff_of_true (Domain.above_faults malformed v) trivial
  | atLeast t => exact Domain.atLeast_faults_iff malformed t
  | atMost t => exact Domain.atMost_faults_iff malformed t
  | resolve truth =>
    refine iff_of_true ?_ trivial
    cases truth with
    | true => exact (Domain.checkUnary_refuses malformed).exists_fault
    | false => exact (Domain.atMost_faults_iff malformed 0).mpr (by decide)
  | addValue v => exact iff_of_true (Binary.applyValue_faults .add malformed v) trivial
  | subValue v => exact iff_of_true (Binary.applyValue_faults .sub malformed v) trivial
  | mulValue v => exact iff_of_true (Binary.applyValue_faults .mul malformed v) trivial
  | divValue v => exact iff_of_true (Binary.applyValue_faults (.div false) malformed v) trivial
  | cofactorValue v => exact iff_of_true (Binary.applyValue_faults .cofactor malformed v) trivial

/-- No operation on two domains answers if a malformed one is either of them, nor does an operation
    on a malformed domain, for whatever scalar, unless it is a removal by a threshold beyond the
    values of domains. -/
theorem malformed_operand_faults {d : Domain} (malformed : ¬d.validate = .ok ()) :
    (∀ (op : Binary) (e : Domain), op.operation.Refuses [d, e] (op.apply d e) ∧
      op.operation.Refuses [e, d] (op.apply e d)) ∧
    (∀ e : Domain, Operation.disjointness.Refuses [d, e] (d.disjoint e) ∧
      Operation.disjointness.Refuses [e, d] (e.disjoint d)) ∧
    ∀ op : Unary, op ≠ .fill → op ≠ .compact →
      ((∃ fault, op.apply d = .error fault) ↔ op.Checks) := by
  rw [Domain.validate_eq_ok_iff] at malformed
  refine ⟨?_, ?_, ?_⟩
  · intro op e
    exact ⟨op.apply_refuses fun both => malformed both.1,
      op.apply_refuses fun both => malformed both.2⟩
  · intro e
    exact ⟨Domain.disjoint_refuses fun both => malformed both.1,
      Domain.disjoint_refuses fun both => malformed both.2⟩
  · intro op notFill notCompact
    exact op.apply_faults_iff malformed notFill notCompact

theorem malformed_operand_faults_noMembers :
    ¬(Domain.mask 0#32).validate = .ok () ∧
      Operation.sum.Refuses [.single 7, .mask 0#32] ((Domain.single 7).add (.mask 0#32)) ∧
      Operation.disjointness.Refuses [.mask 0#32, .empty] ((Domain.mask 0#32).disjoint .empty) ∧
      ∃ fault, (Domain.mask 0#32).atLeast 1 = .error fault := by
  have malformed : ¬(Domain.mask 0#32).validate = .ok () := fun accepted => nomatch accepted
  obtain ⟨binary, disjointness, unary⟩ := malformed_operand_faults malformed
  refine ⟨malformed, (binary .add _).2, (disjointness _).1, ?_⟩
  have checks : (Unary.atLeast 1).Checks := ⟨by decide, by decide⟩
  exact (unary (.atLeast 1) nofun nofun).mpr checks

/-- A mask without members is let through by a removal that keeps all members. -/
theorem atLeast_lets_malformed_through :
    (Domain.mask 0#32).validate = .error (.rejected .noMembers) ∧
      (Domain.mask 0#32).atLeast 0 = .ok (.mask 0#32) := ⟨rfl, rfl⟩

end IntegerDomains

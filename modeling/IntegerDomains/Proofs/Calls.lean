import IntegerDomains.Proofs.Construction
import IntegerDomains.Proofs.Differences
import IntegerDomains.Proofs.Products
import IntegerDomains.Proofs.Quotients
import IntegerDomains.Proofs.Subsets
import IntegerDomains.Proofs.Sums

namespace IntegerDomains

/-- The data of which a domain is built. -/
inductive Source
  | empty
  | value (v : Nat)
  | bounds (lo hi : Nat)
  | boundsWithin (lo hi : Int)
  | zeroAnd (v : Nat)
  | list (values : List Nat)
  | pairs (given : List (Nat × Nat))
  | checkedPairs (given : List (Nat × Nat))
  | packed (words : List UInt16)

def Source.build : Source → Except Refusal Domain
  | .empty => .ok .empty
  | .value v => (Domain.ofValue v).mapError .failed
  | .bounds lo hi => (Domain.ofBounds lo hi).mapError .failed
  | .boundsWithin lo hi => (Domain.ofBoundsWithin lo hi).mapError .failed
  | .zeroAnd v => (Domain.zeroAnd v).mapError .failed
  | .list values => (Domain.ofList values).mapError .failed
  | .pairs given => (Domain.ofPairs given).mapError .failed
  | .checkedPairs given => Domain.tryOfPairs given
  | .packed words => Domain.ofPacked words

/-- All values of the data are values that a domain may hold, and all bounds are in order. -/
def Source.Admitted : Source → Prop
  | .empty | .boundsWithin _ _ => True
  | .value v | .zeroAnd v => v ≤ maxValue
  | .bounds lo hi => lo ≤ hi ∧ hi ≤ maxValue
  | .list values => ∀ v ∈ values, v ≤ maxValue
  | .pairs given | .checkedPairs given =>
    ∀ pair ∈ given, pair.1 ≤ pair.2 ∧ pair.2 ≤ maxValue
  | .packed words =>
    words.length % 4 = 0 ∧ ∀ r ∈ Packed.allGroups words, r.lo ≤ r.hi ∧ r.hi ≤ maxValue

inductive Unary
  | fill
  | compact
  | interValue (v : Nat)
  | erase (v : Nat)
  | below (v : Nat)
  | above (v : Nat)
  | atLeast (t : Int)
  | atMost (t : Int)
  | resolve (truth : Bool)
  | addValue (v : Nat)
  | subValue (v : Nat)
  | mulValue (v : Nat)
  | divValue (v : Nat)
  | cofactorValue (v : Nat)

def Unary.apply : Unary → Domain → Except Fault Domain
  | .fill, d => d.fill
  | .compact, d => d.compact
  | .interValue v, d => d.interValue v
  | .erase v, d => d.erase v
  | .below v, d => d.below v
  | .above v, d => d.above v
  | .atLeast t, d => d.atLeast t
  | .atMost t, d => d.atMost t
  | .resolve truth, d => d.resolve truth
  | .addValue v, d => d.addValue v
  | .subValue v, d => d.subValue v
  | .mulValue v, d => d.mulValue v
  | .divValue v, d => d.divValue v
  | .cofactorValue v, d => d.cofactorValue v

/-- Thresholds are at most `maxValue + 1` and operands of arithmetic are values that a domain may
    hold. All other scalars are free. -/
def Unary.Admitted : Unary → Prop
  | .below v | .above v => v ≤ maxValue + 1
  | .addValue v | .subValue v | .mulValue v | .divValue v | .cofactorValue v => v ≤ maxValue
  | _ => True

/-- The operations on two domains that answer a domain. -/
inductive Binary
  | inter
  | add
  | sub
  | mul
  | div (floor : Bool)
  | cofactor

def Binary.apply : Binary → Domain → Domain → Except Fault Domain
  | .inter, d, e => d.inter e
  | .add, d, e => d.add e
  | .sub, d, e => d.sub e
  | .mul, d, e => d.mul e
  | .div floor, d, e => d.div e floor
  | .cofactor, d, e => d.cofactor e

/-- A call names its operands by their positions among the domains obtained so far. -/
inductive Call
  | build (source : Source)
  | unary (op : Unary) (operand : Nat)
  | binary (op : Binary) (left right : Nat)
  | disjoint (left right : Nat)

/-- Why a sequence of calls ends early. -/
inductive Stop
  | missing (position : Nat)
  | refused (refusal : Refusal)
  | faulted (fault : Fault)

namespace Call

def operand (domains : List Domain) (position : Nat) : Except Stop Domain :=
  match domains[position]? with
  | some d => .ok d
  | none => .error (.missing position)

/-- The domains after a call; a question whether two of them are disjoint adds none. -/
def step (domains : List Domain) : Call → Except Stop (List Domain)
  | .build source => do
    return domains ++ [← source.build.mapError .refused]
  | .unary op position => do
    let d ← operand domains position
    return domains ++ [← (op.apply d).mapError .faulted]
  | .binary op left right => do
    let d ← operand domains left
    let e ← operand domains right
    return domains ++ [← (op.apply d e).mapError .faulted]
  | .disjoint left right => do
    let d ← operand domains left
    let e ← operand domains right
    let _ ← (d.disjoint e).mapError .faulted
    return domains

def run (domains : List Domain) : List Call → Except Stop (List Domain)
  | [] => .ok domains
  | call :: rest => do run (← call.step domains) rest

/-- The number of domains that a call adds. -/
def added : Call → Nat
  | .disjoint _ _ => 0
  | _ => 1

def addedAll : List Call → Nat
  | [] => 0
  | call :: rest => call.added + addedAll rest

/-- After `count` domains the call has its operands, and its data and scalars are admitted. -/
def Admitted (count : Nat) : Call → Prop
  | .build source => source.Admitted
  | .unary op position => op.Admitted ∧ position < count
  | .binary _ left right | .disjoint left right => left < count ∧ right < count

/-- Each call is admitted after the domains that were obtained before it. -/
def AllAdmitted (count : Nat) : List Call → Prop
  | [] => True
  | call :: rest => call.Admitted count ∧ AllAdmitted (count + call.added) rest

end Call

/-- A domain that denotes anything is well formed. -/
private theorem exists_valid {ε : Type} {answer : Except ε Domain} {P : Nat → Prop}
    (denotes : ∃ r, answer = .ok r ∧ r.Denotes P) : ∃ r, answer = .ok r ∧ r.Valid :=
  denotes.imp fun _ answered => ⟨answered.1, answered.2.valid⟩

private theorem mapError_valid {ε φ : Type} {answer : Except ε Domain} {P : Nat → Prop} (g : ε → φ)
    (denotes : ∃ r, answer = .ok r ∧ r.Denotes P) : ∃ r, answer.mapError g = .ok r ∧ r.Valid :=
  denotes.imp fun _ answered => ⟨mapError_eq_ok_iff.mpr answered.1, answered.2.valid⟩

theorem Source.build_valid {source : Source} (admitted : source.Admitted) :
    ∃ d, source.build = .ok d ∧ d.Valid := by
  cases source with
  | empty => exact ⟨.empty, rfl, trivial⟩
  | value v => exact mapError_valid _ (Domain.ofValue_denotes admitted)
  | bounds lo hi => exact mapError_valid _ (Domain.ofBounds_denotes admitted.1 admitted.2)
  | boundsWithin lo hi => exact mapError_valid _ (Domain.ofBoundsWithin_denotes lo hi)
  | zeroAnd v => exact mapError_valid _ (Domain.zeroAnd_denotes admitted)
  | list values => exact mapError_valid _ (Domain.ofList_denotes admitted)
  | pairs given => exact mapError_valid _ (Domain.ofPairs_denotes admitted)
  | checkedPairs given => exact exists_valid (Domain.tryOfPairs_denotes admitted)
  | packed words => exact exists_valid (Domain.ofPacked_denotes admitted.1 admitted.2)

/-- Admitted data are the accepted ones: all others are refused. -/
theorem Source.admitted_iff {source : Source} :
    source.Admitted ↔ ∃ d, source.build = .ok d := by
  refine ⟨fun admitted => (build_valid admitted).imp fun d answered => answered.1, ?_⟩
  rintro ⟨d, executed⟩
  cases source with
  | empty => trivial
  | value v => exact Domain.ofValue_accepts_iff.mp ⟨d, mapError_eq_ok_iff.mp executed⟩
  | bounds lo hi => exact Domain.ofBounds_accepts_iff.mp ⟨d, mapError_eq_ok_iff.mp executed⟩
  | boundsWithin lo hi => trivial
  | zeroAnd v => exact Domain.zeroAnd_accepts_iff.mp ⟨d, mapError_eq_ok_iff.mp executed⟩
  | list values => exact Domain.ofList_accepts_iff.mp ⟨d, mapError_eq_ok_iff.mp executed⟩
  | pairs given => exact Domain.ofPairs_accepts_iff.mp ⟨d, mapError_eq_ok_iff.mp executed⟩
  | checkedPairs given => exact Domain.tryOfPairs_accepts_iff.mp ⟨d, executed⟩
  | packed words => exact Domain.ofPacked_accepts_iff.mp ⟨d, executed⟩

theorem Binary.apply_valid (op : Binary) {d e : Domain} (left : d.Valid) (right : e.Valid) :
    ∃ r, op.apply d e = .ok r ∧ r.Valid := by
  cases op with
  | inter => exact exists_valid (Domain.inter_denotes left right)
  | add => exact exists_valid (Domain.add_denotes left right)
  | sub => exact exists_valid (Domain.sub_denotes left right)
  | mul =>
    obtain ⟨a, b, _, _, denotes⟩ := Domain.mul_denotes left right
    exact exists_valid denotes
  | div floor =>
    obtain ⟨a, b, _, _, denotes⟩ := Domain.div_denotes left right floor
    exact exists_valid denotes
  | cofactor =>
    obtain ⟨a, b, _, _, denotes⟩ := Domain.cofactor_denotes left right
    exact exists_valid denotes

/-- An operation with a value is the operation with the domain of the value. -/
private theorem Binary.applyValue_valid (op : Binary) {d : Domain} (valid : d.Valid) {v : Nat}
    (bound : v ≤ maxValue) : ∃ r, (do op.apply d (← Domain.ofValue v)) = .ok r ∧ r.Valid := by
  rw [Domain.ofValue_eq_ok bound]
  exact op.apply_valid valid bound

theorem Unary.apply_valid (op : Unary) {d : Domain} (valid : d.Valid) (admitted : op.Admitted) :
    ∃ r, op.apply d = .ok r ∧ r.Valid := by
  cases op with
  | fill => exact exists_valid valid.fill_denotes
  | compact => exact exists_valid valid.compact_denotes
  | interValue v => exact exists_valid (Domain.interValue_denotes valid v)
  | erase v => exact exists_valid (Domain.erase_denotes valid v)
  | below v => exact exists_valid (Domain.below_denotes valid admitted)
  | above v => exact exists_valid (Domain.above_denotes valid admitted)
  | atLeast t => exact exists_valid (Domain.atLeast_denotes valid t)
  | atMost t => exact exists_valid (Domain.atMost_denotes valid t)
  | resolve truth => exact exists_valid (Domain.resolve_denotes valid truth)
  | addValue v => exact Binary.applyValue_valid .add valid admitted
  | subValue v => exact Binary.applyValue_valid .sub valid admitted
  | mulValue v => exact Binary.applyValue_valid .mul valid admitted
  | divValue v => exact Binary.applyValue_valid (.div false) valid admitted
  | cofactorValue v => exact Binary.applyValue_valid .cofactor valid admitted

namespace Call

/-- Every domain obtained so far is well formed. -/
def AllValid (domains : List Domain) : Prop := ∀ d ∈ domains, d.Valid

private theorem AllValid.append {domains more : List Domain} (valid : AllValid domains)
    (moreValid : AllValid more) : AllValid (domains ++ more) :=
  List.forall_mem_append.mpr ⟨valid, moreValid⟩

private theorem operand_valid {domains : List Domain} (valid : AllValid domains) {position : Nat}
    (present : position < domains.length) :
    ∃ d, operand domains position = .ok d ∧ d.Valid := by
  refine ⟨domains[position], ?_, valid _ (List.getElem_mem present)⟩
  rw [operand, List.getElem?_eq_getElem present]

/-- An admitted call answers, keeps the domains obtained so far and adds well-formed ones only. -/
theorem step_valid {call : Call} {domains : List Domain} (valid : AllValid domains)
    (admitted : call.Admitted domains.length) :
    ∃ more, call.step domains = .ok (domains ++ more) ∧ more.length = call.added ∧
      AllValid more := by
  cases call with
  | build source =>
    obtain ⟨d, executed, dValid⟩ := Source.build_valid admitted
    refine ⟨[d], ?_, rfl, List.forall_mem_singleton.mpr dValid⟩
    rw [step, mapError_eq_ok_iff.mpr executed]
    rfl
  | unary op position =>
    obtain ⟨scalars, present⟩ := admitted
    obtain ⟨d, found, dValid⟩ := operand_valid valid present
    obtain ⟨r, executed, rValid⟩ := op.apply_valid dValid scalars
    refine ⟨[r], ?_, rfl, List.forall_mem_singleton.mpr rValid⟩
    rw [step, found]
    simp only [bind, Except.bind, mapError_eq_ok_iff.mpr executed]
    rfl
  | binary op left right =>
    obtain ⟨leftPresent, rightPresent⟩ := admitted
    obtain ⟨d, leftFound, dValid⟩ := operand_valid valid leftPresent
    obtain ⟨e, rightFound, eValid⟩ := operand_valid valid rightPresent
    obtain ⟨r, executed, rValid⟩ := op.apply_valid dValid eValid
    refine ⟨[r], ?_, rfl, List.forall_mem_singleton.mpr rValid⟩
    rw [step, leftFound, rightFound]
    simp only [bind, Except.bind, mapError_eq_ok_iff.mpr executed]
    rfl
  | disjoint left right =>
    obtain ⟨leftPresent, rightPresent⟩ := admitted
    obtain ⟨d, leftFound, dValid⟩ := operand_valid valid leftPresent
    obtain ⟨e, rightFound, eValid⟩ := operand_valid valid rightPresent
    obtain ⟨answer, executed, _⟩ := Domain.disjoint_eq dValid eValid
    refine ⟨[], ?_, rfl, fun d member => absurd member List.not_mem_nil⟩
    rw [step, leftFound, rightFound, List.append_nil]
    simp only [bind, Except.bind, mapError_eq_ok_iff.mpr executed]
    rfl

/-- An admitted sequence of calls runs to its end from any well-formed domains. -/
theorem run_valid {calls : List Call} {domains : List Domain} (valid : AllValid domains)
    (admitted : AllAdmitted domains.length calls) :
    ∃ more, run domains calls = .ok (domains ++ more) ∧ more.length = addedAll calls ∧
      AllValid more := by
  induction calls generalizing domains with
  | nil =>
    exact ⟨[], by rw [run, List.append_nil], rfl, fun d member => absurd member List.not_mem_nil⟩
  | cons call rest ih =>
    obtain ⟨first, others⟩ := admitted
    obtain ⟨new, stepped, count, newValid⟩ := step_valid valid first
    -- The call adds as many domains as it counts, so the rest finds its operands.
    have extended : AllAdmitted (domains ++ new).length rest := by
      rw [List.length_append, count]
      exact others
    obtain ⟨more, executed, moreCount, moreValid⟩ := ih (valid.append newValid) extended
    refine ⟨new ++ more, ?_, ?_, newValid.append moreValid⟩
    · rw [run, stepped, ← List.append_assoc]
      exact executed
    · rw [List.length_append, count, moreCount, addedAll]

/-- Admitted data are exactly those that are accepted, and a run of admitted calls that starts
    without any domain ends neither in a fault nor in a refusal: every domain that it obtains passes
    the check of well-formedness. -/
theorem run_validate :
    (∀ source : Source, source.Admitted ↔ ∃ d, source.build = .ok d) ∧
      ∀ calls, AllAdmitted 0 calls → ∃ domains, run [] calls = .ok domains ∧
        domains.length = addedAll calls ∧ ∀ d ∈ domains, d.validate = .ok () := by
  refine ⟨fun source => Source.admitted_iff, fun calls admitted => ?_⟩
  have nothing : AllValid [] := fun d member => absurd member List.not_mem_nil
  obtain ⟨domains, executed, count, valid⟩ := run_valid nothing admitted
  exact ⟨domains, executed, count, fun d member => Domain.validate_eq_ok_iff.mpr (valid d member)⟩

/-- Calls of each kind, with a mask, intervals and an operand of arithmetic. -/
def mixedCalls : List Call :=
  [.build (.bounds 0 40), .build (.list [7, 3, 7]), .binary .add 0 1, .unary (.erase 5) 2,
    .disjoint 1 3, .binary .sub 3 0, .unary (.divValue 2) 4]

theorem run_validate_mixedCalls :
    AllAdmitted 0 mixedCalls ∧ ∃ domains, run [] mixedCalls = .ok domains ∧
      domains.length = addedAll mixedCalls ∧ ∀ d ∈ domains, d.validate = .ok () := by
  have admitted : AllAdmitted 0 mixedCalls := by
    simp [mixedCalls, AllAdmitted, Admitted, added, Source.Admitted, Unary.Admitted, maxValue]
  exact ⟨admitted, run_validate.2 mixedCalls admitted⟩

end Call

end IntegerDomains

import IntegerDomains.Proofs.Construction
import IntegerDomains.Proofs.Sums

/-!
A partial sum drops what exceeds `maxValue`, and adding more never brings a value back below it. So
neither the order nor the grouping of the summands matters (`Grouping.total_denotes`).
-/

namespace IntegerDomains

/-- The value is a sum of one member of each domain. -/
def AddsUp : List Domain → Nat → Prop
  | [], w => w = 0
  | d :: rest, w => ∃ v ∈ d, ∃ x, AddsUp rest x ∧ v + x = w

private theorem addsUp_singleton {d : Domain} {w : Nat} : AddsUp [d] w ↔ w ∈ d := by
  simp [AddsUp]

private theorem addsUp_append {ds es : List Domain} {w : Nat} :
    AddsUp (ds ++ es) w ↔ ∃ x, AddsUp ds x ∧ ∃ y, AddsUp es y ∧ x + y = w := by
  induction ds generalizing w with
  | nil => simp [AddsUp]
  | cons d rest ih =>
    constructor
    · rintro ⟨v, member, _, sum, rfl⟩
      obtain ⟨x, left, y, right, rfl⟩ := ih.mp sum
      exact ⟨v + x, ⟨v, member, x, left, rfl⟩, y, right, by omega⟩
    · rintro ⟨_, ⟨v, member, x, left, rfl⟩, y, right, rfl⟩
      exact ⟨v, member, x + y, ih.mpr ⟨x, left, y, right, rfl⟩, by omega⟩

/-- The members follow their domains into another order. -/
private theorem AddsUp.of_perm {ds es : List Domain} (perm : ds.Perm es) {w : Nat}
    (sum : AddsUp ds w) : AddsUp es w := by
  induction perm generalizing w with
  | nil => exact sum
  | cons d _ ih =>
    obtain ⟨v, member, x, rest, total⟩ := sum
    exact ⟨v, member, x, ih rest, total⟩
  | swap d e others =>
    obtain ⟨v, vMember, _, ⟨u, uMember, x, rest, rfl⟩, total⟩ := sum
    exact ⟨u, uMember, v + x, ⟨v, vMember, x, rest, rfl⟩, by omega⟩
  | trans _ _ first second => exact second (first sum)

private theorem addsUp_perm {ds es : List Domain} (perm : ds.Perm es) {w : Nat} :
    AddsUp ds w ↔ AddsUp es w :=
  ⟨AddsUp.of_perm perm, AddsUp.of_perm perm.symm⟩

/-- The order and the grouping in which domains are added up. -/
inductive Grouping
  /-- A domain by itself. -/
  | one (d : Domain)
  /-- The sum of two groups. -/
  | sum (left right : Grouping)

namespace Grouping

/-- The domains from left to right. -/
def domains : Grouping → List Domain
  | .one d => [d]
  | .sum left right => left.domains ++ right.domains

/-- Add up each group, and then both results. -/
def total : Grouping → Except Fault Domain
  | .one d => .ok d
  | .sum left right => do (← left.total).add (← right.total)

/-- Each domain is added to the sum of those before it. -/
def fold (g : Grouping) (rest : List Domain) : Grouping :=
  rest.foldl (fun before d => .sum before (.one d)) g

private theorem domains_fold (g : Grouping) (rest : List Domain) :
    (g.fold rest).domains = g.domains ++ rest := by
  induction rest generalizing g with
  | nil => simp [fold]
  | cons d rest ih =>
    have step : g.fold (d :: rest) = (Grouping.sum g (.one d)).fold rest := rfl
    rw [step, ih, domains, domains, List.append_assoc, List.singleton_append]

private theorem total_fold (g : Grouping) (rest : List Domain) :
    (g.fold rest).total = g.total >>= fun d => rest.foldlM Domain.add d := by
  induction rest generalizing g with
  | nil => simp [fold]
  | cons d rest ih =>
    have step : g.fold (d :: rest) = (Grouping.sum g (.one d)).fold rest := rfl
    rw [step, ih]
    cases answer : g.total <;> simp [total, answer, bind, Except.bind]

/-- The induction is on the grouping: a member of a group is at most the sum it enters, so what the
    groups drop beyond `maxValue` is in no sum that is kept. -/
theorem total_denotes (g : Grouping) (valid : ∀ d ∈ g.domains, d.Valid) :
    ∃ r, g.total = .ok r ∧ r.Denotes fun w => w ≤ maxValue ∧ AddsUp g.domains w := by
  induction g with
  | one d =>
    have dValid := valid d (by simp [domains])
    refine ⟨d, rfl, dValid.denotes.congr ?_⟩
    intro w
    rw [domains, addsUp_singleton, iff_and_self]
    exact dValid.le_maxValue
  | sum left right leftAnswers rightAnswers =>
    obtain ⟨leftValid, rightValid⟩ := List.forall_mem_append.mp valid
    obtain ⟨d, leftTotal, dDenotes⟩ := leftAnswers leftValid
    obtain ⟨e, rightTotal, eDenotes⟩ := rightAnswers rightValid
    obtain ⟨r, executed, denotes⟩ := Domain.add_denotes dDenotes.valid eDenotes.valid
    refine ⟨r, ?_, denotes.congr ?_⟩
    · rw [total, leftTotal, rightTotal]
      exact executed
    · intro w
      rw [domains, addsUp_append]
      simp only [dDenotes.mem_iff, eDenotes.mem_iff]
      constructor
      · rintro ⟨bound, x, ⟨_, leftSum⟩, y, ⟨_, rightSum⟩, sum⟩
        exact ⟨bound, x, leftSum, y, rightSum, sum⟩
      · rintro ⟨bound, x, leftSum, y, rightSum, sum⟩
        exact ⟨bound, x, ⟨by omega, leftSum⟩, y, ⟨by omega, rightSum⟩, sum⟩

end Grouping

namespace Domain

/-- The domain of zero is neutral on either side. -/
theorem add_zero_eq {d : Domain} (valid : d.Valid) :
    d.add (.single 0) = .ok d ∧ (Domain.single 0).add d = .ok d := by
  have zeroValid : (Domain.single 0).Valid := Nat.zero_le _
  constructor
  · apply valid.rebuilt (add_denotes valid zeroValid)
    intro w
    simpa [mem_single] using valid.le_maxValue
  · apply valid.rebuilt (add_denotes zeroValid valid)
    intro w
    simpa [mem_single] using valid.le_maxValue

end Domain

/-- Several domains have one sum, of all sums of one member of each that a domain may hold: every
    grouping of every order of the domains answers it, and so does adding them up from the left in
    any order. The domain of zero changes nothing on either side. -/
theorem total_independent_of_order :
    (∀ domains : List Domain, domains ≠ [] → (∀ d ∈ domains, d.validate = .ok ()) →
      ∃ total, total.validate = .ok () ∧ (∀ w, w ∈ total ↔ w ≤ maxValue ∧ AddsUp domains w) ∧
        (∀ g : Grouping, g.domains.Perm domains → g.total = .ok total) ∧
        ∀ d rest, (d :: rest).Perm domains → rest.foldlM Domain.add d = .ok total) ∧
    ∃ zero, Domain.ofValue 0 = .ok zero ∧ ∀ d : Domain, d.validate = .ok () →
      d.add zero = .ok d ∧ zero.add d = .ok d := by
  constructor
  · intro domains nonempty valid
    have orderValid : ∀ g : Grouping, g.domains.Perm domains → ∀ d ∈ g.domains, d.Valid := by
      intro g perm d member
      exact Domain.validate_eq_ok_iff.mp (valid d (perm.mem_iff.mp member))
    obtain ⟨first, others, rfl⟩ := List.exists_cons_of_ne_nil nonempty
    have given : ((Grouping.one first).fold others).domains.Perm (first :: others) := by
      rw [Grouping.domains_fold]
      rfl
    obtain ⟨total, executed, denotes⟩ := Grouping.total_denotes _ (orderValid _ given)
    have sameMembers : ∀ g : Grouping, g.domains.Perm (first :: others) → g.total = .ok total := by
      intro g perm
      apply denotes.valid.rebuilt (g.total_denotes (orderValid g perm))
      intro w
      rw [denotes.mem_iff, addsUp_perm (perm.trans given.symm)]
    refine ⟨total, Domain.validate_eq_ok_iff.mpr denotes.valid, ?_, sameMembers, ?_⟩
    · intro w
      rw [denotes.mem_iff, addsUp_perm given]
    · intro d rest perm
      have folded := sameMembers ((Grouping.one d).fold rest) (by rwa [Grouping.domains_fold])
      rw [Grouping.total_fold] at folded
      exact folded
  · refine ⟨.single 0, Domain.ofValue_eq_ok (Nat.zero_le _), ?_⟩
    intro d valid
    exact Domain.add_zero_eq (Domain.validate_eq_ok_iff.mp valid)

/-- A mask, intervals and a value, whose largest sums pass `maxValue`, in two orders and
    groupings. -/
theorem total_independent_of_order_mixed :
    ([.mask 27#32, .intervals [⟨7, 9⟩, ⟨99999995, 99999997⟩], .single 1] : List Domain) ≠ [] ∧
      (∀ d ∈ ([.mask 27#32, .intervals [⟨7, 9⟩, ⟨99999995, 99999997⟩], .single 1] : List Domain),
        d.validate = .ok ()) ∧
      ∃ total, total.validate = .ok () ∧
        (Grouping.sum (.one (.single 1))
          (.sum (.one (.intervals [⟨7, 9⟩, ⟨99999995, 99999997⟩])) (.one (.mask 27#32)))).total =
            .ok total ∧
        [.intervals [⟨7, 9⟩, ⟨99999995, 99999997⟩], .single 1].foldlM Domain.add (.mask 27#32) =
          .ok total ∧
        ∃ zero, Domain.ofValue 0 = .ok zero ∧ (Domain.mask 27#32).add zero = .ok (.mask 27#32) := by
  have valid : ∀ d ∈ ([.mask 27#32, .intervals [⟨7, 9⟩, ⟨99999995, 99999997⟩], .single 1] :
      List Domain), d.validate = .ok () := by
    intro d member
    simp only [List.mem_cons, List.not_mem_nil, or_false] at member
    rcases member with rfl | rfl | rfl <;> rfl
  obtain ⟨orders, zero, built, neutral⟩ := total_independent_of_order
  obtain ⟨total, totalValid, _, groupings, folds⟩ := orders _ (List.cons_ne_nil _ _) valid
  refine ⟨List.cons_ne_nil _ _, valid, total, totalValid, ?_, folds _ _ (.refl _), zero, built,
    (neutral _ (valid _ List.mem_cons_self)).1⟩
  apply groupings
  simp only [Grouping.domains]
  exact List.reverse_perm [_, _, _]

end IntegerDomains

namespace IntegerDomains

/-- What is answered after a first step was answered by this step. -/
theorem exists_of_bind_eq_ok {ε α β : Type} {first : Except ε α} {next : α → Except ε β} {b : β}
    (executed : first >>= next = .ok b) : ∃ a, first = .ok a ∧ next a = .ok b := by
  cases first with
  | error e => exact absurd executed (by simp [bind, Except.bind])
  | ok a => exact ⟨a, rfl, executed⟩

theorem bind_eq_ok_iff {ε α β : Type} {first : Except ε α} {next : α → Except ε β} {b : β} :
    first >>= next = .ok b ↔ ∃ a, first = .ok a ∧ next a = .ok b := by
  constructor
  · exact exists_of_bind_eq_ok
  · rintro ⟨a, rfl, executed⟩
    exact executed

theorem bind_eq_error_iff {ε α β : Type} {first : Except ε α} {next : α → Except ε β} {e : ε} :
    first >>= next = .error e ↔ first = .error e ∨ ∃ a, first = .ok a ∧ next a = .error e := by
  cases first <;> simp [bind, Except.bind]

/-- A list that was converted as a whole was converted element by element. -/
theorem mapM_ok_each {ε α β : Type} {f : α → Except ε β} {xs : List α} {ys : List β}
    (executed : xs.mapM f = .ok ys) : ∀ x ∈ xs, ∃ y, f x = .ok y := by
  induction xs generalizing ys with
  | nil => exact fun x member => absurd member List.not_mem_nil
  | cons x rest ih =>
    rw [List.mapM_cons] at executed
    obtain ⟨y, first, others⟩ := exists_of_bind_eq_ok executed
    obtain ⟨zs, mapped, _⟩ := exists_of_bind_eq_ok others
    exact List.forall_mem_cons.mpr ⟨⟨y, first⟩, ih mapped⟩

@[simp] theorem mapError_ok {ε φ α : Type} {g : ε → φ} {a : α} :
    (Except.ok a).mapError g = .ok a := rfl

@[simp] theorem mapError_error {ε φ α : Type} {g : ε → φ} {e : ε} :
    (Except.error e : Except ε α).mapError g = .error (g e) := rfl

/-- Naming the cause of an error otherwise changes no answer. -/
theorem mapError_eq_ok_iff {ε φ α : Type} {answer : Except ε α} {g : ε → φ} {a : α} :
    answer.mapError g = .ok a ↔ answer = .ok a := by
  cases answer with
  | error e => exact iff_of_false nofun nofun
  | ok b =>
    change Except.ok b = Except.ok a ↔ _
    rw [Except.ok.injEq, Except.ok.injEq]

theorem mapError_eq_error_iff {ε φ α : Type} {answer : Except ε α} {g : ε → φ} {e : φ} :
    answer.mapError g = .error e ↔ ∃ cause, answer = .error cause ∧ g cause = e := by
  cases answer <;> simp

/-- Where each element has a result, so has the list, and it holds exactly these results. -/
theorem mapM_total {ε α β : Type} {f : α → Except ε β} {xs : List α}
    (each : ∀ x ∈ xs, ∃ y, f x = .ok y) :
    ∃ ys, xs.mapM f = .ok ys ∧ ∀ y, y ∈ ys ↔ ∃ x ∈ xs, f x = .ok y := by
  induction xs with
  | nil => exact ⟨[], rfl, by simp⟩
  | cons x rest ih =>
    obtain ⟨⟨y, first⟩, others⟩ := List.forall_mem_cons.mp each
    obtain ⟨ys, executed, results⟩ := ih others
    refine ⟨y :: ys, by rw [List.mapM_cons, first, executed]; rfl, fun z => ?_⟩
    simp only [List.mem_cons, results, or_and_right, exists_or, exists_eq_left, first,
      Except.ok.injEq]
    exact or_congr_left eq_comm

/-- A computation that answers exactly under a condition fails exactly outside of it. -/
theorem exists_error_iff {ε α : Type} {answer : Except ε α} {A : Prop}
    (accepts : (∃ a, answer = .ok a) ↔ A) : (∃ e, answer = .error e) ↔ ¬A := by
  rw [← accepts]
  cases answer <;> simp

/-- The element has the property, and none before it has. -/
def IsFirst {α : Type} (P : α → Prop) (xs : List α) (x : α) : Prop :=
  ∃ front back, xs = front ++ x :: back ∧ (∀ y ∈ front, ¬P y) ∧ P x

theorem isFirst_cons {α : Type} {P : α → Prop} {x y : α} {xs : List α} :
    IsFirst P (x :: xs) y ↔ P x ∧ y = x ∨ ¬P x ∧ IsFirst P xs y := by
  constructor
  · rintro ⟨front, back, split, none, holds⟩
    cases front with
    | nil =>
      obtain ⟨rfl, _⟩ := List.cons.inj split
      exact .inl ⟨holds, rfl⟩
    | cons z front =>
      obtain ⟨rfl, rest⟩ := List.cons.inj split
      obtain ⟨first, others⟩ := List.forall_mem_cons.mp none
      exact .inr ⟨first, front, back, rest, others, holds⟩
  · rintro (⟨holds, rfl⟩ | ⟨first, front, back, rfl, none, holds⟩)
    · exact ⟨[], xs, rfl, by simp, holds⟩
    · exact ⟨x :: front, back, rfl, List.forall_mem_cons.mpr ⟨first, none⟩, holds⟩

theorem IsFirst.mem {α : Type} {P : α → Prop} {xs : List α} {x : α} (first : IsFirst P xs x) :
    x ∈ xs := by
  obtain ⟨front, back, rfl, _⟩ := first
  exact List.mem_append_right front List.mem_cons_self

theorem IsFirst.holds {α : Type} {P : α → Prop} {xs : List α} {x : α} (first : IsFirst P xs x) :
    P x := by
  obtain ⟨_, _, _, _, holds⟩ := first
  exact holds

theorem isFirst_congr {α : Type} {P Q : α → Prop} {xs : List α} {x : α}
    (same : ∀ y ∈ xs, (P y ↔ Q y)) : IsFirst P xs x ↔ IsFirst Q xs x := by
  refine exists_congr fun front => exists_congr fun back => and_congr_right ?_
  rintro rfl
  obtain ⟨before, behind⟩ := List.forall_mem_append.mp same
  refine and_congr ?_ (behind x List.mem_cons_self)
  exact forall₂_congr fun y member => not_congr (before y member)

/-- If some element has the property, then there is a first one. -/
theorem exists_isFirst_iff {α : Type} {P : α → Prop} {xs : List α} :
    (∃ x, IsFirst P xs x) ↔ ∃ x ∈ xs, P x := by
  induction xs with
  | nil => simp [IsFirst]
  | cons x rest ih =>
    by_cases holds : P x
    · simp [isFirst_cons, holds]
    · simp [isFirst_cons, holds, ih]

/-- In ascending order the first number of a kind is the least one. -/
theorem IsFirst.least {P : Nat → Prop} {xs : List Nat} {x : Nat} (first : IsFirst P xs x)
    (ascending : xs.Pairwise (· ≤ ·)) : x ∈ xs ∧ P x ∧ ∀ y ∈ xs, P y → x ≤ y := by
  obtain ⟨front, back, rfl, none, holds⟩ := first
  obtain ⟨_, behind, _⟩ := List.pairwise_append.mp ascending
  refine ⟨List.mem_append_right _ List.mem_cons_self, holds, ?_⟩
  intro y member holds'
  rcases List.mem_append.mp member with before | later
  · exact absurd holds' (none y before)
  · rcases List.mem_cons.mp later with rfl | later
    · exact Nat.le_refl y
    · exact (List.pairwise_cons.mp behind).1 y later

theorem find?_eq_some_iff_isFirst {α : Type} {P : α → Prop} [DecidablePred P] {xs : List α}
    {x : α} : (xs.find? fun y => decide (P y)) = some x ↔ IsFirst P xs x := by
  rw [List.find?_eq_some_iff_append]
  simp only [IsFirst, decide_eq_true_eq, Bool.not_eq_true', decide_eq_false_iff_not]
  constructor
  · rintro ⟨holds, front, back, split, none⟩
    exact ⟨front, back, split, none, holds⟩
  · rintro ⟨front, back, split, none, holds⟩
    exact ⟨holds, front, back, split, none⟩

/-- A list is not converted because of its first element that is not. -/
theorem mapM_eq_error_iff {ε α β : Type} {f : α → Except ε β} {P : α → Prop}
    (fails : ∀ x, (∃ e, f x = .error e) ↔ P x) {xs : List α} {e : ε} :
    xs.mapM f = .error e ↔ ∃ x, IsFirst P xs x ∧ f x = .error e := by
  induction xs with
  | nil => simp [IsFirst, pure, Except.pure]
  | cons x rest ih =>
    rw [List.mapM_cons]
    cases first : f x with
    | error e' =>
      have holds := (fails x).mp ⟨e', first⟩
      simp [isFirst_cons, holds, first, bind, Except.bind]
    | ok b =>
      have free : ¬P x := by simp [← fails, first]
      simp only [isFirst_cons, free, false_and, not_false_eq_true, true_and, false_or, ← ih]
      cases rest.mapM f <;> simp [bind, Except.bind, pure, Except.pure]

end IntegerDomains

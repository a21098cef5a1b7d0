import IntegerDomains.Proofs.Separating

/-!
No pass of the loop changes what will have been written in the end (`Pass.drain_eq`), and each takes
load from the stack (`Pass.load_lt`).
-/

namespace IntegerDomains.Intervals

/-- The state of the loop between two passes: the output so far, in reverse, and the stack. -/
structure Stage where
  written : List Interval
  pending : List Pending

/-- One pass over the stack. -/
inductive Pass : Stage → Stage → Prop
  /-- The copies of a pivot are written. -/
  | pivots {written s : List Interval} {rest : List Pending} :
    Pass ⟨written, .pivots s :: rest⟩ ⟨s.reverse ++ written, rest⟩
  /-- A segment of at most one interval is written. -/
  | short {written s : List Interval} {rest : List Pending} (few : s.length ≤ 1) :
    Pass ⟨written, .segment s :: rest⟩ ⟨s.reverse ++ written, rest⟩
  /-- A longer one is set apart by the interval in its middle. -/
  | split {written s : List Interval} {rest : List Pending} {pivot : Interval}
    (several : 1 < s.length) (middle : s[s.length / 2]? = some pivot) :
    Pass ⟨written, .segment s :: rest⟩
      ⟨written, .segment (lesser pivot s) :: .pivots (copies pivot s) ::
        .segment (greater pivot s) :: rest⟩

/-- So many passes lead from the first stage to the last one. -/
inductive Passes : Nat → Stage → Stage → Prop
  | none {stage : Stage} : Passes 0 stage stage
  | next {count : Nat} {first between last : Stage} (pass : Pass first between)
    (others : Passes count between last) : Passes (count + 1) first last

/-- The loop goes on as long as work is left. -/
theorem exists_pass {stage : Stage} (unfinished : stage.pending ≠ []) :
    ∃ next, Pass stage next := by
  obtain ⟨written, pending⟩ := stage
  match pending, unfinished with
  | .pivots s :: rest, _ => exact ⟨_, .pivots⟩
  | .segment s :: rest, _ =>
    by_cases few : s.length ≤ 1
    · exact ⟨_, .short few⟩
    · have middle : s[s.length / 2]? = some s[s.length / 2] := List.getElem?_eq_getElem (by omega)
      exact ⟨_, .split (by omega) middle⟩

theorem Pass.load_lt {first last : Stage} (pass : Pass first last) :
    Pending.load last.pending < Pending.load first.pending := by
  cases pass with
  | pivots => simp only [Pending.load, Pending.weight]; omega
  | short few => simp only [Pending.load, Pending.weight]; omega
  | split several middle =>
    have shorter := lesser_add_greater_lt (List.mem_of_getElem? middle)
    simp only [Pending.load, Pending.weight]
    omega

theorem Pass.drain_eq {first last : Stage} (pass : Pass first last) :
    drain first.written first.pending = drain last.written last.pending := by
  cases pass with
  | pivots => rw [drain]
  | short few => rw [drain, dif_pos few]
  | split several middle =>
    obtain ⟨inside, rfl⟩ := List.getElem?_eq_some_iff.mp middle
    rw [drain, dif_neg (by omega)]

private theorem Passes.load_le {count : Nat} {first last : Stage}
    (passes : Passes count first last) :
    count + Pending.load last.pending ≤ Pending.load first.pending := by
  induction passes with
  | none => omega
  | next pass _ ih =>
    have less := pass.load_lt
    omega

theorem Passes.drain_eq {count : Nat} {first last : Stage} (passes : Passes count first last) :
    drain first.written first.pending = drain last.written last.pending := by
  induction passes with
  | none => rfl
  | next pass _ ih => exact pass.drain_eq.trans ih

/-- A sorted sequence is determined by its intervals and their numbers. -/
private theorem eq_of_sorted {s t : List Interval} (perm : s.Perm t) (left : Sorted s)
    (right : Sorted t) : s = t := by
  refine perm.eq_of_pairwise (fun r u _ _ before behind => ?_) left right
  obtain ⟨a, b⟩ := r
  obtain ⟨c, d⟩ := u
  simp only [Interval.le_iff, Interval.mk.injEq] at *
  omega

/-- The shortcut for a sorted sequence answers what the loop would have written. -/
private theorem sort_eq_drain (s : List Interval) : sort s = drain [] [.segment s] := by
  have perm : (drain [] [.segment s]).Perm s := by
    simpa [Pending.intervals] using drain_perm [] [.segment s]
  have sorted : Sorted (drain [] [.segment s]) :=
    sorted_drain [] [.segment s] List.Pairwise.nil ⟨by simp, List.pairwise_singleton _ _⟩ (by simp)
  exact eq_of_sorted ((sort_perm s).trans perm.symm) (sorted_sort s) sorted

/-- Sorting answers the one sorted sequence of the intervals, each as often as it was given. The
    loop makes at most three passes for each of them and one more, and it stops only where this
    sequence is written. -/
theorem sort_total_correct (s : List Interval) :
    isSorted (sort s) = true ∧ (sort s).Perm s ∧ (∀ r, (sort s).count r = s.count r) ∧
      (∀ t, isSorted t = true → t.Perm s → t = sort s) ∧
      ∀ count stage, Passes count ⟨[], [.segment s]⟩ stage →
        count ≤ 3 * s.length + 1 ∧
          ((∃ next, Pass stage next) ∨ stage = ⟨(sort s).reverse, []⟩) := by
  have perm := sort_perm s
  refine ⟨isSorted_iff.mpr (sorted_sort s), perm, fun r => perm.count_eq r, ?_, ?_⟩
  · intro t sorted same
    exact eq_of_sorted (same.trans perm.symm) (isSorted_iff.mp sorted) (sorted_sort s)
  · intro count stage passes
    have bound := passes.load_le
    have output := passes.drain_eq
    simp only [Pending.load, Pending.weight] at bound
    refine ⟨by omega, ?_⟩
    by_cases unfinished : stage.pending ≠ []
    · exact .inl (exists_pass unfinished)
    · obtain ⟨written, pending⟩ := stage
      obtain rfl : pending = [] := Decidable.not_not.mp unfinished
      have reversed : sort s = written.reverse := by
        rw [sort_eq_drain, output, drain]
      rw [reversed, List.reverse_reverse]
      exact .inr rfl

/-- An inverted interval and two copies of another one: seven passes, of which two set apart. -/
theorem sort_total_correct_copies :
    isSorted [⟨3, 1⟩, ⟨7, 9⟩, ⟨7, 9⟩] = true ∧
      [⟨3, 1⟩, ⟨7, 9⟩, ⟨7, 9⟩].Perm [⟨7, 9⟩, ⟨3, 1⟩, (⟨7, 9⟩ : Interval)] ∧
      [⟨3, 1⟩, ⟨7, 9⟩, ⟨7, 9⟩] = sort [⟨7, 9⟩, ⟨3, 1⟩, ⟨7, 9⟩] ∧
      Passes 7 ⟨[], [.segment [⟨7, 9⟩, ⟨3, 1⟩, ⟨7, 9⟩]]⟩ ⟨[⟨7, 9⟩, ⟨7, 9⟩, ⟨3, 1⟩], []⟩ ∧
      7 ≤ 3 * [⟨7, 9⟩, ⟨3, 1⟩, (⟨7, 9⟩ : Interval)].length + 1 := by
  have perm : [⟨3, 1⟩, ⟨7, 9⟩, ⟨7, 9⟩].Perm [⟨7, 9⟩, ⟨3, 1⟩, (⟨7, 9⟩ : Interval)] := .swap _ _ _
  have passes : Passes 7 ⟨[], [.segment [⟨7, 9⟩, ⟨3, 1⟩, ⟨7, 9⟩]]⟩
      ⟨[⟨7, 9⟩, ⟨7, 9⟩, ⟨3, 1⟩], []⟩ :=
    .next (.split (by decide) rfl) <| .next (.short (by decide)) <| .next .pivots <|
      .next (.split (by decide) rfl) <| .next (.short (by decide)) <|
      .next .pivots <| .next (.short (by decide)) .none
  obtain ⟨_, _, _, unique, loop⟩ := sort_total_correct [⟨7, 9⟩, ⟨3, 1⟩, ⟨7, 9⟩]
  exact ⟨rfl, perm, unique _ rfl perm, passes, (loop _ _ passes).1⟩

end IntegerDomains.Intervals

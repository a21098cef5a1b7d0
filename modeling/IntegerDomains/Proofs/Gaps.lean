import IntegerDomains.Proofs.Joining
import IntegerDomains.Proofs.Outcomes

/-!
A value in a bridged gap is combined with a partner inside an interval at least as wide. If one
value may slide along as the other moves (`Slides`), it slides to the edge of its gap, where it was
covered before. So bridging adds no combination (`combines_bridge`).
-/

namespace IntegerDomains

namespace Intervals

theorem size_eq_ok {r : Interval} (ordered : r.lo ≤ r.hi) (bound : r.hi ≤ maxValue) :
    r.size = .ok (r.hi + 1 - r.lo) := by
  have successor : Word.add 1 r.hi = .ok (r.hi + 1) := by
    rw [Word.add_eq_ok_of_le (by omega), Nat.add_comm]
  rw [Interval.size, successor]
  exact Word.sub_eq_ok (by omega)

/-- No interval is narrower than the narrowest, which is one of them unless there is none. -/
theorem narrowest_isLeast {s : List Interval} (proper : Proper s) :
    ∃ gap, narrowest s = .ok gap ∧ (∀ r ∈ s, gap + r.lo ≤ r.hi + 1) ∧
      (s = [] ∧ gap = maxValue ∨ ∃ r ∈ s, gap + r.lo = r.hi + 1) := by
  have each : ∀ r ∈ s, r.size = .ok (r.hi + 1 - r.lo) := fun r member =>
    size_eq_ok (proper.mem member).1 (proper.mem member).2
  obtain ⟨sizes, executed, results⟩ := mapM_total fun r member => ⟨_, each r member⟩
  have found : ∀ r ∈ s, r.hi + 1 - r.lo ∈ sizes := fun r member =>
    (results _).mpr ⟨r, member, each r member⟩
  refine ⟨sizes.min?.getD maxValue, by rw [narrowest, executed]; rfl, ?_⟩
  cases least : sizes.min? with
  | none =>
    rw [List.min?_eq_none_iff] at least
    have nothing : s = [] := List.eq_nil_iff_forall_not_mem.mpr fun r member =>
      List.not_mem_nil (least ▸ found r member)
    subst nothing
    exact ⟨nofun, .inl ⟨rfl, rfl⟩⟩
  | some size =>
    obtain ⟨attained, le⟩ := List.min?_eq_some_iff.mp least
    obtain ⟨r, member, same⟩ := (results size).mp attained
    rw [each r member, Except.ok.injEq] at same
    have ordered := (proper.mem member).1
    refine ⟨fun u inside => ?_, .inr ⟨r, member, ?_⟩⟩
    · have narrower := le _ (found u inside)
      have inOrder := (proper.mem inside).1
      rw [Option.getD_some]
      omega
    · rw [Option.getD_some]
      omega

/-- The value lies between two intervals that are at most `gap` apart. -/
def Bridged (gap : Nat) (s : List Interval) (v : Nat) : Prop :=
  ∃ u ∈ s, ∃ t ∈ s, u.hi < v ∧ v < t.lo ∧ t.lo ≤ u.hi + gap

/-- A joined interval may stand for both: it starts like the first and ends like the second. -/
private theorem bridged_of_joined {gap : Nat} {current r : Interval} {rest : List Interval}
    {v : Nat} (bridged : Bridged gap (⟨current.lo, r.hi⟩ :: rest) v) :
    Bridged gap (current :: r :: rest) v := by
  obtain ⟨u, left, t, right, after, before, close⟩ := bridged
  have left : ∃ w ∈ current :: r :: rest, w.hi = u.hi := by
    rcases List.mem_cons.mp left with rfl | later
    · exact ⟨r, by simp, rfl⟩
    · exact ⟨u, by simp [later], rfl⟩
  have right : ∃ w ∈ current :: r :: rest, w.lo = t.lo := by
    rcases List.mem_cons.mp right with rfl | later
    · exact ⟨current, by simp, rfl⟩
    · exact ⟨t, by simp [later], rfl⟩
  obtain ⟨p, fromLeft, stop⟩ := left
  obtain ⟨q, fromRight, start⟩ := right
  exact ⟨p, fromLeft, q, fromRight, by omega, by omega, by omega⟩

/-- What bridging adds lies in the gap between the first two intervals if it joins them, and is
    added behind the first one otherwise. -/
private theorem covers_of_bridgeFrom (gap : Nat) (current : Interval) (s : List Interval) {v : Nat}
    (covered : Covers (bridgeFrom gap current s) v) :
    Covers (current :: s) v ∨ Bridged gap (current :: s) v := by
  induction s generalizing current with
  | nil => exact .inl covered
  | cons r rest ih =>
    rw [bridgeFrom] at covered
    split at covered
    · rw [covers_cons] at covered ⊢
      rw [or_assoc]
      refine covered.imp_right fun later => (ih r later).imp_right ?_
      rintro ⟨u, left, t, right, gap⟩
      exact ⟨u, List.mem_cons_of_mem _ left, t, List.mem_cons_of_mem _ right, gap⟩
    · next close =>
      rcases ih ⟨current.lo, r.hi⟩ covered with inside | bridged
      · rw [covers_cons, Interval.mem_iff] at inside
        rw [covers_cons, covers_cons, Interval.mem_iff, Interval.mem_iff]
        rcases inside with joined | later
        · by_cases inGap : current.hi < v ∧ v < r.lo
          · exact .inr ⟨current, by simp, r, by simp, inGap.1, inGap.2, by omega⟩
          · exact .inl (by simp only at joined; omega)
        · exact .inl (.inr (.inr later))
      · exact .inr (bridged_of_joined bridged)

theorem covers_bridge (gap : Nat) {s : List Interval} (separated : Separated s) :
    (∀ v, Covers s v → Covers (bridge gap s) v) ∧
      ∀ v, Covers (bridge gap s) v → Covers s v ∨ Bridged gap s v := by
  refine ⟨fun v => ((joins_bridge gap s).refines separated).covers, fun v covered => ?_⟩
  cases s with
  | nil => exact .inl covered
  | cons r rest => exact covers_of_bridgeFrom gap r rest covered

/-- A value of the one sequence is related to a value of the other. -/
def Combines (R : Nat → Nat → Prop) (a b : List Interval) : Prop :=
  ∃ x y, Covers a x ∧ Covers b y ∧ R x y

private theorem combines_flip {R : Nat → Nat → Prop} {a b : List Interval} :
    Combines (flip R) b a ↔ Combines R a b := by
  constructor <;> rintro ⟨x, y, left, right, related⟩ <;> exact ⟨y, x, right, left, related⟩

/-- From a gap that is no wider than the partner's interval the value reaches one of the edges while
    its partner moves within the interval. -/
def Slides (R : Nat → Nat → Prop) : Prop :=
  ∀ {x y p q : Nat} {s : Interval}, R x y → p < x → x < q → y ∈ s → q + s.lo ≤ p + (s.hi + 1) →
    ∃ moved ∈ s, R p moved ∨ R q moved

/-- A bridge over gaps no wider than the partners adds no combination. -/
theorem combines_bridge {R : Nat → Nat → Prop} (slides : Slides R) {gap : Nat}
    {a b : List Interval} (separated : Separated a)
    (narrow : ∀ s ∈ b, gap + s.lo ≤ s.hi + 1) :
    Combines R (bridge gap a) b ↔ Combines R a b := by
  obtain ⟨keeps, adds⟩ := covers_bridge gap separated
  constructor
  · rintro ⟨x, y, left, ⟨s, member, inside⟩, related⟩
    rcases adds x left with covered | ⟨u, fromLeft, t, fromRight, after, before, close⟩
    · exact ⟨x, y, covered, ⟨s, member, inside⟩, related⟩
    -- The value lies in a bridged gap and slides to an edge, which was covered before.
    have width := narrow s member
    have lower : Covers a u.hi :=
      covers_of_mem fromLeft ⟨separated.1 u fromLeft, Nat.le_refl _⟩
    have upper : Covers a t.lo :=
      covers_of_mem fromRight ⟨Nat.le_refl _, separated.1 t fromRight⟩
    obtain ⟨moved, stays, atLower | atUpper⟩ := slides related after before inside (by omega)
    · exact ⟨u.hi, moved, lower, covers_of_mem member stays, atLower⟩
    · exact ⟨t.lo, moved, upper, covers_of_mem member stays, atUpper⟩
  · rintro ⟨x, y, left, right, related⟩
    exact ⟨x, y, keeps x left, right, related⟩

private theorem bridgeBy_combines {a b : List Interval} (left : Proper a) (right : Proper b) :
    ∃ bridged, bridgeBy b a = .ok bridged ∧ Proper bridged ∧
      ∀ R, Slides R → (Combines R bridged b ↔ Combines R a b) := by
  rw [bridgeBy]
  split
  · obtain ⟨gap, executed, narrow, _⟩ := narrowest_isLeast right
    refine ⟨bridge gap a, by rw [executed]; rfl, (joins_bridge gap a).proper left, ?_⟩
    intro R slides
    exact combines_bridge slides left.separated narrow
  · exact ⟨a, rfl, left, fun R _ => Iff.rfl⟩

/-- Each round of bridging keeps all combinations, hence so do all rounds together. -/
private theorem settle_combines (a b : List Interval) (left : Proper a) (right : Proper b) :
    ∃ settled, settle a b = .ok settled ∧ Proper settled.1 ∧ Proper settled.2 ∧
      ∀ R, Slides R → Slides (flip R) →
        (Combines R settled.1 settled.2 ↔ Combines R a b) := by
  obtain ⟨a', first, aProper, aSame⟩ := bridgeBy_combines left right
  obtain ⟨b', second, bProper, bSame⟩ := bridgeBy_combines right aProper
  -- The second half of a round bridges the right side, for which the relation is flipped.
  have round : ∀ R, Slides R → Slides (flip R) → (Combines R a' b' ↔ Combines R a b) := by
    intro R slides flipped
    rw [← combines_flip, bSame _ flipped, combines_flip, aSame R slides]
  rw [settle, first]
  simp only [bind, Except.bind, second]
  split
  · obtain ⟨settled, executed, leftProper, rightProper, same⟩ :=
      settle_combines a' b' aProper bProper
    exact ⟨settled, executed, leftProper, rightProper, fun R slides flipped =>
      (same R slides flipped).trans (round R slides flipped)⟩
  · exact ⟨(a', b'), rfl, aProper, bProper, round⟩
termination_by a.length + b.length

/-- Bridging both operands keeps all combinations. -/
theorem bridgeBoth_combines {a b : List Interval} (left : Proper a) (right : Proper b) :
    ∃ bridged, bridgeBoth a b = .ok bridged ∧ Proper bridged.1 ∧ Proper bridged.2 ∧
      ∀ R, Slides R → Slides (flip R) →
        (Combines R bridged.1 bridged.2 ↔ Combines R a b) := by
  rw [bridgeBoth]
  split
  · exact ⟨(a, b), rfl, left, right, fun R _ _ => Iff.rfl⟩
  · exact settle_combines a b left right

end Intervals

end IntegerDomains

import IntegerDomains.Intervals.Bridging
import IntegerDomains.Proofs.Covering
import Mathlib.Data.List.Chain

namespace IntegerDomains.Intervals

/-- The second sequence is the first one with some of its neighbours joined. -/
inductive Joins : List Interval → List Interval → Prop
  | nil : Joins [] []
  /-- The first interval stays as it is. -/
  | keep {r : Interval} {s t : List Interval} (rest : Joins s t) : Joins (r :: s) (r :: t)
  /-- The first interval is joined with the one that its successors begin with. -/
  | join {r : Interval} {lo hi : Nat} {s t : List Interval} (rest : Joins s (⟨lo, hi⟩ :: t)) :
    Joins (r :: s) (⟨r.lo, hi⟩ :: t)

variable {r next u : Interval} {s t : List Interval} {gap : Nat}

theorem Joins.refl (s : List Interval) : Joins s s := by
  induction s with
  | nil => exact .nil
  | cons r s ih => exact .keep ih

theorem Joins.trans {u : List Interval} (first : Joins s t) (second : Joins t u) : Joins s u := by
  induction first generalizing u with
  | nil => exact second
  | keep _ ih =>
    cases second with
    | keep rest => exact .keep (ih rest)
    | join rest => exact .join (ih rest)
  | join _ ih =>
    cases second with
    | keep rest => exact .join (ih (.keep rest))
    | join rest => exact .join (ih (.join rest))

theorem Joins.length_le (joins : Joins s t) : t.length ≤ s.length := by
  induction joins with
  | nil => exact Nat.le_refl _
  | keep _ ih => exact Nat.succ_le_succ ih
  | join _ ih => exact Nat.le_succ_of_le ih

/-- Each joint makes the sequence shorter. -/
theorem Joins.eq_of_length_le (joins : Joins s t) (long : s.length ≤ t.length) : t = s := by
  induction joins with
  | nil => rfl
  | keep _ ih => rw [ih (Nat.le_of_succ_le_succ long)]
  | join rest _ =>
    have shorter := rest.length_le
    simp only [List.length_cons] at long shorter
    omega

theorem Joins.antisymm (first : Joins s t) (second : Joins t s) : s = t :=
  second.eq_of_length_le first.length_le

/-- The first interval of a coarser sequence starts where the first one did. -/
private theorem Joins.exists_cons (joins : Joins (r :: s) t) :
    ∃ u rest, t = u :: rest ∧ u.lo = r.lo := by
  cases joins with
  | keep => exact ⟨_, _, rfl, rfl⟩
  | join => exact ⟨_, _, rfl, rfl⟩

theorem Joins.ne_nil (joins : Joins s t) (nonempty : s ≠ []) : t ≠ [] := by
  cases joins with
  | nil => exact nonempty
  | keep => exact List.cons_ne_nil _ _
  | join => exact List.cons_ne_nil _ _

/-- An interval of a coarser sequence starts like one that it holds. -/
theorem Joins.starts (joins : Joins s t) (separated : Separated s) (member : u ∈ t) :
    ∃ r ∈ s, r.lo = u.lo ∧ r.hi ≤ u.hi := by
  induction joins generalizing u with
  | nil => exact absurd member List.not_mem_nil
  | @keep r s t rest ih =>
    rcases List.mem_cons.mp member with rfl | later
    · exact ⟨u, List.mem_cons_self, rfl, Nat.le_refl _⟩
    · obtain ⟨p, inside, same⟩ := ih (separated_cons.mp separated).2.2 later
      exact ⟨p, List.mem_cons_of_mem _ inside, same⟩
  | @join r lo hi s t rest ih =>
    obtain ⟨_, gaps, tail⟩ := separated_cons.mp separated
    rcases List.mem_cons.mp member with rfl | later
    · obtain ⟨p, inside, _, stop⟩ : ∃ p ∈ s, p.lo = lo ∧ p.hi ≤ hi := ih tail List.mem_cons_self
      have apart := gaps p inside
      have ordered := tail.1 p inside
      have longer : r.hi ≤ hi := by omega
      exact ⟨r, List.mem_cons_self, rfl, longer⟩
    · obtain ⟨p, inside, same⟩ := ih tail (List.mem_cons_of_mem _ later)
      exact ⟨p, List.mem_cons_of_mem _ inside, same⟩

/-- It ends like one that it holds as well. -/
theorem Joins.stops (joins : Joins s t) (member : u ∈ t) : ∃ r ∈ s, r.hi = u.hi := by
  induction joins generalizing u with
  | nil => exact absurd member List.not_mem_nil
  | keep _ ih =>
    rcases List.mem_cons.mp member with rfl | later
    · exact ⟨u, List.mem_cons_self, rfl⟩
    · obtain ⟨p, inside, same⟩ := ih later
      exact ⟨p, List.mem_cons_of_mem _ inside, same⟩
  | join _ ih =>
    rcases List.mem_cons.mp member with rfl | later
    · obtain ⟨p, inside, same⟩ := ih List.mem_cons_self
      exact ⟨p, List.mem_cons_of_mem _ inside, same⟩
    · obtain ⟨p, inside, same⟩ := ih (List.mem_cons_of_mem _ later)
      exact ⟨p, List.mem_cons_of_mem _ inside, same⟩

/-- Behind an interval a coarser sequence leaves the gap that was there. -/
private theorem Joins.beyond (joins : Joins s t) (separated : Separated (r :: s)) (member : u ∈ t) :
    r.hi + 1 < u.lo ∧ u.lo ≤ u.hi := by
  obtain ⟨_, gaps, tail⟩ := separated_cons.mp separated
  obtain ⟨p, inside, start, stop⟩ := joins.starts tail member
  have apart := gaps p inside
  have ordered := tail.1 p inside
  omega

theorem Joins.separated (joins : Joins s t) (separated : Separated s) : Separated t := by
  induction joins with
  | nil => exact separated
  | keep rest ih =>
    obtain ⟨ordered, _, tail⟩ := separated_cons.mp separated
    exact separated_cons.mpr ⟨ordered, fun later member => (rest.beyond separated member).1, ih tail⟩
  | @join r lo hi s t rest ih =>
    obtain ⟨ordered, _, tail⟩ := separated_cons.mp separated
    obtain ⟨_, gaps, apart⟩ := separated_cons.mp (ih tail)
    have behind : r.hi + 1 < lo ∧ lo ≤ hi := rest.beyond separated List.mem_cons_self
    have joined : r.lo ≤ hi := by omega
    exact separated_cons.mpr ⟨joined, gaps, apart⟩

theorem Joins.refines (joins : Joins s t) (separated : Separated s) : Refines s t := by
  induction joins with
  | nil => exact nofun
  | keep _ ih =>
    refine List.forall_mem_cons.mpr ⟨⟨_, List.mem_cons_self, Nat.le_refl _, Nat.le_refl _⟩, ?_⟩
    intro p member
    obtain ⟨u, inside, within⟩ := ih (separated_cons.mp separated).2.2 p member
    exact ⟨u, List.mem_cons_of_mem _ inside, within⟩
  | @join r lo hi s t rest ih =>
    obtain ⟨ordered, _, tail⟩ := separated_cons.mp separated
    have behind : r.hi + 1 < lo ∧ lo ≤ hi := rest.beyond separated List.mem_cons_self
    have longer : r.hi ≤ hi := by omega
    refine List.forall_mem_cons.mpr ⟨⟨_, List.mem_cons_self, Nat.le_refl _, longer⟩, ?_⟩
    intro p member
    obtain ⟨u, inside, start, stop⟩ := ih tail p member
    rcases List.mem_cons.mp inside with rfl | later
    · have earlier : r.lo ≤ p.lo := by
        simp only at start
        omega
      exact ⟨_, List.mem_cons_self, earlier, stop⟩
    · exact ⟨u, List.mem_cons_of_mem _ later, start, stop⟩

theorem Joins.proper (joins : Joins s t) (proper : Proper s) : Proper t := by
  refine proper_iff.mpr ⟨joins.separated proper.separated, ?_⟩
  intro u member
  obtain ⟨r, inside, same⟩ := joins.stops member
  exact same ▸ (proper.mem inside).2

theorem Joins.least?_eq (joins : Joins s t) : least? t = least? s := by
  cases joins with
  | nil => rfl
  | keep => rfl
  | join => rfl

private theorem greatest?_cons : greatest? (r :: s) = some ((greatest? s).getD r.hi) := by
  rw [greatest?, greatest?, List.getLast?_cons, Option.map_some, Option.getD_map]

theorem Joins.greatest?_eq (joins : Joins s t) : greatest? t = greatest? s := by
  induction joins with
  | nil => rfl
  | keep _ ih => rw [greatest?_cons, greatest?_cons, ih]
  | join _ ih =>
    rw [greatest?_cons, greatest?_cons, ← ih, greatest?_cons]
    rfl

/-- A separated sequence with the ends of another one, each interval of which lies within
    one of its own. -/
structure Coarsens (s t : List Interval) : Prop where
  separated : isSeparated t = true
  least : least? t = least? s
  greatest : greatest? t = greatest? s
  refines : Refines s t

theorem Joins.coarsens (joins : Joins s t) (separated : Separated s) : Coarsens s t where
  separated := isSeparated_iff.mpr (joins.separated separated)
  least := joins.least?_eq
  greatest := joins.greatest?_eq
  refines := joins.refines separated

/-- Neighbours may also be joined before the rest is. -/
private theorem Joins.of_joined (joins : Joins (⟨r.lo, next.hi⟩ :: s) t) :
    Joins (r :: next :: s) t := by
  cases joins with
  | keep rest => exact .join (.keep rest)
  | join rest => exact .join (.join rest)

/-- Where the first interval starts does not matter to what is joined. -/
private theorem Joins.restart (joins : Joins (r :: s) (u :: t)) (lo : Nat) :
    Joins (⟨lo, r.hi⟩ :: s) (⟨lo, u.hi⟩ :: t) := by
  cases joins with
  | keep rest => exact .keep rest
  | join rest => exact .join rest

/-- The distance between neighbours exceeds the gap. -/
def Spaced (gap : Nat) (s : List Interval) : Prop := s.IsChain fun r next => gap < next.lo - r.hi

private theorem spaced_single : Spaced gap [r] := .singleton r

private theorem spaced_cons_cons :
    Spaced gap (r :: next :: s) ↔ gap < next.lo - r.hi ∧ Spaced gap (next :: s) :=
  List.isChain_cons_cons

/-- Where the first interval starts does not matter to the distances. -/
private theorem Spaced.restart (spaced : Spaced gap (r :: s)) (lo : Nat) :
    Spaced gap (⟨lo, r.hi⟩ :: s) := by
  cases s with
  | nil => exact spaced_single
  | cons next s => exact spaced_cons_cons.mpr (spaced_cons_cons.mp spaced :)

private theorem joins_bridgeFrom (gap : Nat) (current : Interval) (s : List Interval) :
    Joins (current :: s) (bridgeFrom gap current s) := by
  induction s generalizing current with
  | nil => exact .refl _
  | cons r rest ih =>
    rw [bridgeFrom]
    split
    · exact .keep (ih r)
    · exact .of_joined (ih ⟨current.lo, r.hi⟩)

theorem joins_bridge (gap : Nat) (s : List Interval) : Joins s (bridge gap s) := by
  cases s with
  | nil => exact .nil
  | cons r rest => exact joins_bridgeFrom gap r rest

private theorem spaced_bridgeFrom (gap : Nat) (current : Interval) (s : List Interval) :
    Spaced gap (bridgeFrom gap current s) := by
  induction s generalizing current with
  | nil => exact spaced_single
  | cons r rest ih =>
    rw [bridgeFrom]
    split
    · next wide =>
      have spaced := ih r
      obtain ⟨u, others, same, start⟩ := (joins_bridgeFrom gap r rest).exists_cons
      rw [same] at spaced ⊢
      exact spaced_cons_cons.mpr ⟨start ▸ wide, spaced⟩
    · exact ih ⟨current.lo, r.hi⟩

/-- Bridging leaves no neighbours that are as close as the gap. -/
theorem spaced_bridge (gap : Nat) (s : List Interval) : Spaced gap (bridge gap s) := by
  cases s with
  | nil => exact .nil
  | cons r rest => exact spaced_bridgeFrom gap r rest

/-- A coarser sequence that keeps neighbours apart has them at their distance, so where it exceeds
    the gap, neither does bridging join them. -/
private theorem Joins.bridgeFrom_least {current : Interval} (joins : Joins (current :: s) t)
    (spaced : Spaced gap t) : Joins (bridgeFrom gap current s) t := by
  induction s generalizing current t with
  | nil => exact joins
  | cons r rest ih =>
    rw [bridgeFrom]
    cases joins with
    | keep later =>
      obtain ⟨u, others, rfl, start⟩ := later.exists_cons
      obtain ⟨wide, apart⟩ := spaced_cons_cons.mp spaced
      rw [if_pos (start ▸ wide)]
      exact .keep (ih later apart)
    | join later =>
      split
      · exact .join (ih later (spaced.restart _))
      · exact ih (later.restart current.lo) spaced

theorem Joins.bridge_least (joins : Joins s t) (spaced : Spaced gap t) :
    Joins (bridge gap s) t := by
  cases s with
  | nil => exact joins
  | cons r rest => exact joins.bridgeFrom_least spaced

end IntegerDomains.Intervals

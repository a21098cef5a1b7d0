import IntegerDomains.Word

namespace IntegerDomains.Mask

/-- The smallest member, known in the lowest words without a search. -/
def least (m : Mask) : Except Fault Nat :=
  match m with
  | 0#32 => .error (.noMember .least)
  | 1#32 => .ok 0
  | 2#32 => .ok 1
  | 3#32 => .ok 0
  | _ => .ok m.lowest

/-- The largest member, known in the lowest words without a search. -/
def greatest (m : Mask) : Except Fault Nat :=
  match m with
  | 0#32 => .error (.noMember .greatest)
  | 1#32 => .ok 0
  | 2#32 | 3#32 => .ok 1
  | _ => .ok m.highest

theorem least_eq_ok {m : Mask} (nonzero : m ≠ 0#32) : m.least = .ok m.lowest := by
  unfold least
  split
  · contradiction
  · rw [lowest_eq (v := 0) (by decide) (by decide)]
  · rw [lowest_eq (v := 1) (by decide) (by decide)]
  · rw [lowest_eq (v := 0) (by decide) (by decide)]
  · rfl

theorem greatest_eq_ok {m : Mask} (nonzero : m ≠ 0#32) : m.greatest = .ok m.highest := by
  unfold greatest
  split
  · contradiction
  all_goals rfl

/-- Every value up to the largest member. -/
def fill (m : Mask) : Except Fault Mask :=
  if m = 0#32 then .error (.noMember .fill) else .ok m.smear

theorem fill_eq_ok {m : Mask} (nonzero : m ≠ 0#32) : m.fill = .ok m.smear := if_neg nonzero

/-- Bounds of a mask have to be in order and to fit. -/
def checkBounds (lo hi : Nat) : Except Fault Unit :=
  if hi < lo then .error (.maskBounds lo hi)
  else if maskMax < hi then .error (.maskCapacity hi)
  else .ok ()

/-- The values from `lo` to `hi`. -/
def ofBounds (lo hi : Nat) : Except Fault Mask := do
  checkBounds lo hi
  return block lo hi

/-- The values up to `maskMax` of ascending intervals, read up to the first that starts beyond. -/
def ofIntervals : List Interval → Except Fault Mask
  | [] => .ok 0#32
  | r :: rest =>
    if maskMax < r.lo then .ok 0#32
    else do
      let m ← ofBounds r.lo (min r.hi maskMax)
      return m ||| (← ofIntervals rest)

/-- The length of the lowest run of set bits, by the first clear bit behind its start. -/
def runLength (m : Mask) : Nat := lowest (~~~(m >>> m.lowest))

/-- The last position of the lowest run of set bits. -/
def runEnd (m : Mask) : Nat := m.lowest + (m.runLength - 1)

/-- The mask with its lowest run of set bits cleared. -/
def dropRun (m : Mask) : Mask := m &&& ~~~block m.lowest m.runEnd

/-- Clearing a block that holds a set bit makes the word smaller. -/
private theorem clear_lt {m run : Mask} {i : Nat} (set : m.getLsbD i = true)
    (inRun : run.getLsbD i = true) : (m &&& ~~~run).toNat < m.toNat := by
  have le : (m &&& ~~~run).toNat ≤ m.toNat := by
    rw [BitVec.toNat_and]
    exact Nat.and_le_left
  have ne : (m &&& ~~~run).toNat ≠ m.toNat := by
    intro same
    have equal : m &&& ~~~run = m := BitVec.eq_of_toNat_eq same
    have cleared : (m &&& ~~~run).getLsbD i = false := by simp [inRun]
    rw [equal, set] at cleared
    exact Bool.noConfusion cleared
  omega

theorem dropRun_lt {m : Mask} (nonzero : m ≠ 0#32) : m.dropRun.toNat < m.toNat := by
  have set := getLsbD_lowest nonzero
  have inside : m.lowest < 32 := BitVec.lt_of_getLsbD set
  refine clear_lt set ?_
  rw [getLsbD_block]
  simp [inside, runEnd]

/-- The maximal runs of set bits in ascending order, each of which has to fit. -/
def runs (m : Mask) : Except Fault (List Interval) :=
  if _ : m = 0#32 then .ok []
  else do
    checkBounds m.lowest m.runEnd
    return ⟨m.lowest, m.runEnd⟩ :: (← m.dropRun.runs)
termination_by m.toNat
decreasing_by exact dropRun_lt ‹_›

end IntegerDomains.Mask

import IntegerDomains.Limits

namespace IntegerDomains

/-- A set of values below 32; domains use the bits up to `maskMax` only. -/
abbrev Mask := BitVec 32

namespace Mask

/-- Every value a mask of a domain may hold. -/
def full : Mask := 0x7fffffff#32

/-- The values below `v`. -/
def below (v : Nat) : Mask := BitVec.ofNat 32 ((1 <<< v) - 1)

/-- The values above `v`, up to `maskMax`. -/
def above (v : Nat) : Mask := full &&& ~~~below (v + 1)

/-- The values from `lo` to `hi`. -/
def block (lo hi : Nat) : Mask := BitVec.ofNat 32 (((1 <<< (hi + 1 - lo)) - 1) <<< lo)

/-- The value alone. -/
def bit (v : Nat) : Mask := BitVec.ofNat 32 (1 <<< v)

theorem getLsbD_below {v i : Nat} : (below v).getLsbD i = (decide (i < 32) && decide (i < v)) := by
  rw [below, BitVec.getLsbD_ofNat, Nat.one_shiftLeft, Nat.testBit_two_pow_sub_one]

theorem getLsbD_full {i : Nat} : full.getLsbD i = decide (i ≤ maskMax) := by
  have lowBits : full = below 31 := rfl
  rw [lowBits, getLsbD_below]
  grind [maskMax]

theorem getLsbD_above {v i : Nat} : (above v).getLsbD i = decide (v < i ∧ i ≤ maskMax) := by
  rw [above, BitVec.getLsbD_and, BitVec.getLsbD_not, getLsbD_full, getLsbD_below]
  grind [maskMax]

theorem getLsbD_block {lo hi i : Nat} :
    (block lo hi).getLsbD i = (decide (i < 32) && decide (lo ≤ i ∧ i ≤ hi)) := by
  rw [block, BitVec.getLsbD_ofNat, Nat.testBit_shiftLeft, Nat.one_shiftLeft,
    Nat.testBit_two_pow_sub_one]
  grind

theorem getLsbD_bit {v i : Nat} : (bit v).getLsbD i = (decide (i < 32) && decide (i = v)) := by
  rw [bit, BitVec.getLsbD_ofNat, Nat.one_shiftLeft, Nat.testBit_two_pow]
  grind

/-- Bit `v` is set. -/
def contains (m : Mask) (v : Nat) : Bool := m.getLsbD v

/-- The position of the lowest set bit, 32 if there is none. -/
def lowest (m : Mask) : Nat := m.ctz.toNat

theorem lowest_le_width (m : Mask) : m.lowest ≤ 32 := by
  rw [lowest, BitVec.ctz_eq_reverse_clz]
  exact BitVec.clz_le

theorem getLsbD_lowest {m : Mask} (nonzero : m ≠ 0#32) : m.getLsbD m.lowest = true :=
  BitVec.getLsbD_true_ctz_of_ne_zero nonzero

theorem getLsbD_of_lt_lowest {m : Mask} {i : Nat} (before : i < m.lowest) : m.getLsbD i = false :=
  BitVec.getLsbD_false_of_lt_ctz before

/-- The lowest set bit is the set one with clear bits below it. -/
theorem lowest_eq {m : Mask} {v : Nat} (set : m.getLsbD v = true)
    (clear : ∀ i < v, m.getLsbD i = false) : m.lowest = v := by
  have nonzero : m ≠ 0#32 := by
    rintro rfl
    simp at set
  rcases Nat.lt_trichotomy m.lowest v with before | same | behind
  · have first := getLsbD_lowest nonzero
    simp [clear _ before] at first
  · exact same
  · simp [getLsbD_of_lt_lowest behind] at set

/-- The position of the highest set bit of a word that has one. -/
def highest (m : Mask) : Nat := 31 - m.clz.toNat

theorem getLsbD_highest {m : Mask} (nonzero : m ≠ 0#32) : m.getLsbD m.highest = true :=
  BitVec.getLsbD_true_clz_of_ne_zero (by decide) nonzero

/-- The number of set bits. -/
def count (m : Mask) : Nat := m.cpop.toNat

/-- The number of members, which takes no counting in the lowest words. -/
def size (m : Mask) : Nat :=
  match m with
  | 0#32 => 0
  | 1#32 | 2#32 => 1
  | 3#32 => 2
  | _ => m.count

theorem size_eq_count (m : Mask) : m.size = m.count := by
  unfold size
  split <;> rfl

/-- The mask with its lowest set bit cleared. -/
def dropLowest (m : Mask) : Mask := m &&& (m - 1#32)

/-- The lowest member and the mask of the others. -/
def next? (m : Mask) : Option (Nat × Mask) :=
  if m = 0#32 then none else some (m.lowest, m.dropLowest)

/-- At least and at most so many members are still to come. -/
def sizeHint (m : Mask) : Nat × Option Nat := (m.count, some m.count)

theorem dropLowest_lt {m : Mask} (nonzero : m ≠ 0#32) : m.dropLowest.toNat < m.toNat := by
  have positive : m.toNat ≠ 0 := fun h => nonzero (BitVec.eq_of_toNat_eq (by simpa using h))
  have bound := m.isLt
  have pred : (m - 1#32).toNat = m.toNat - 1 := by
    rw [BitVec.toNat_sub]
    simp only [BitVec.toNat_ofNat]
    omega
  have shrinks : m.dropLowest.toNat ≤ (m - 1#32).toNat := by
    rw [dropLowest, BitVec.toNat_and]
    exact Nat.and_le_right
  omega

/-- The members in ascending order. -/
def values (m : Mask) : List Nat :=
  if _ : m = 0#32 then [] else m.lowest :: m.dropLowest.values
termination_by m.toNat
decreasing_by exact dropLowest_lt ‹_›

theorem values_zero : values 0#32 = [] := by
  unfold values
  simp

theorem values_of_ne_zero {m : Mask} (nonzero : m ≠ 0#32) :
    m.values = m.lowest :: m.dropLowest.values := by
  rw [values, dif_neg nonzero]

/-- The member at a zero-based position of the ascending order. -/
def get? (m : Mask) : Nat → Option Nat
  | 0 => if m = 0#32 then none else some m.lowest
  | index + 1 => if m = 0#32 then none else m.dropLowest.get? index

/-- The member of a mask that has exactly one. -/
def sole? (m : Mask) : Option Nat :=
  if m ≠ 0#32 ∧ m.dropLowest = 0#32 then some m.lowest else none

/-- Every bit at or below the highest set one, by copying set bits downwards in doubling steps. -/
def smear (m : Mask) : Mask :=
  [1, 2, 4, 8, 16].foldl (fun word step => word ||| word >>> step) m

end Mask

end IntegerDomains

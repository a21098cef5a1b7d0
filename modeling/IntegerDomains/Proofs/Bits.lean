import IntegerDomains.Arithmetic.Difference
import IntegerDomains.Arithmetic.Sum
import Mathlib.Data.List.Sort

namespace IntegerDomains

namespace Mask

theorem eq_of_bits {m n : Mask} (same : ∀ v, m.getLsbD v = true ↔ n.getLsbD v = true) : m = n :=
  BitVec.eq_of_getLsbD_eq fun v _ => Bool.eq_iff_iff.mpr (same v)

theorem eq_zero_iff {m : Mask} : m = 0#32 ↔ ∀ v, m.getLsbD v = false := by
  constructor
  · rintro rfl v
    exact BitVec.getLsbD_zero
  · intro clear
    exact BitVec.eq_of_getLsbD_eq fun v _ => by rw [clear v, BitVec.getLsbD_zero]

theorem ne_zero_of_bit {m : Mask} {v : Nat} (set : m.getLsbD v = true) : m ≠ 0#32 := by
  rintro rfl
  simp at set

theorem lowest_le {m : Mask} {v : Nat} (set : m.getLsbD v = true) : m.lowest ≤ v := by
  refine Nat.le_of_not_lt fun before => ?_
  rw [getLsbD_of_lt_lowest before] at set
  exact Bool.noConfusion set

theorem le_highest {m : Mask} {v : Nat} (set : m.getLsbD v = true) : v ≤ m.highest := by
  have weight : 2 ^ v ≤ m.toNat := Nat.ge_two_pow_of_testBit set
  have bound : m.toNat < 2 ^ (32 - m.clz.toNat) := BitVec.toNat_lt_two_pow_sub_clz
  have below : v < 32 - m.clz.toNat :=
    (Nat.pow_lt_pow_iff_right (by decide)).mp (Nat.lt_of_le_of_lt weight bound)
  rw [highest]
  omega

/-- Members add up to no more than the largest ones. -/
theorem add_le_of_highest {m n : Mask} {v w bound : Nat} (largest : m.highest + n.highest ≤ bound)
    (left : m.getLsbD v = true) (right : n.getLsbD w = true) : v + w ≤ bound :=
  Nat.le_trans (Nat.add_le_add (le_highest left) (le_highest right)) largest

/-- No member exceeds `maskMax`. -/
def Fits (m : Mask) : Prop := ∀ v, m.getLsbD v = true → v ≤ maskMax

theorem fits_iff {m : Mask} : m &&& ~~~full = 0#32 ↔ m.Fits := by
  rw [eq_zero_iff]
  refine forall_congr' fun v => ?_
  rw [BitVec.getLsbD_and, BitVec.getLsbD_not, getLsbD_full]
  constructor
  · intro clear set
    have inside := BitVec.lt_of_getLsbD set
    simpa [set, inside] using clear
  · intro bound
    cases set : m.getLsbD v with
    | false => rfl
    | true =>
      have le := bound set
      simp [le]

/-- Borrowing for the subtraction of one turns the lowest set bit and the clear ones below it over
    and leaves those above it alone. -/
private theorem sub_one_eq {m : Mask} (nonzero : m ≠ 0#32) :
    m - 1#32 = (m &&& ~~~below (m.lowest + 1)) ||| below m.lowest := by
  have set := getLsbD_lowest nonzero
  have inside := BitVec.lt_of_getLsbD set
  have parts : m = (m &&& ~~~below (m.lowest + 1)) ||| bit m.lowest := by
    refine BitVec.eq_of_getLsbD_eq fun v inWord => ?_
    rw [BitVec.getLsbD_or, BitVec.getLsbD_and, BitVec.getLsbD_not, getLsbD_below, getLsbD_bit]
    rcases Nat.lt_trichotomy v m.lowest with before | rfl | behind
    · rw [getLsbD_of_lt_lowest before]
      grind
    · grind
    · grind
  have apart : (m &&& ~~~below (m.lowest + 1)) &&& bit m.lowest = 0#32 := by
    refine BitVec.eq_of_getLsbD_eq fun v inWord => ?_
    rw [BitVec.getLsbD_and, BitVec.getLsbD_and, BitVec.getLsbD_not, getLsbD_below, getLsbD_bit,
      BitVec.getLsbD_zero]
    grind
  have lowerApart : (m &&& ~~~below (m.lowest + 1)) &&& below m.lowest = 0#32 := by
    refine BitVec.eq_of_getLsbD_eq fun v inWord => ?_
    rw [BitVec.getLsbD_and, BitVec.getLsbD_and, BitVec.getLsbD_not, getLsbD_below, getLsbD_below,
      BitVec.getLsbD_zero]
    grind
  have step : bit m.lowest = below m.lowest + 1#32 := by
    refine BitVec.eq_of_toNat_eq ?_
    have power := Nat.pow_lt_pow_right (a := 2) (by decide) inside
    have positive := Nat.two_pow_pos m.lowest
    simp only [bit, below, BitVec.toNat_add, BitVec.toNat_ofNat, Nat.one_shiftLeft]
    omega
  calc m - 1#32
      = ((m &&& ~~~below (m.lowest + 1)) + bit m.lowest) - 1#32 := by
        rw [BitVec.add_eq_or_of_and_eq_zero _ _ apart, ← parts]
    _ = (m &&& ~~~below (m.lowest + 1)) + below m.lowest := by
        rw [step, ← BitVec.add_assoc, BitVec.add_sub_cancel]
    _ = (m &&& ~~~below (m.lowest + 1)) ||| below m.lowest :=
        BitVec.add_eq_or_of_and_eq_zero _ _ lowerApart

/-- Exactly the smallest member is dropped. -/
theorem getLsbD_dropLowest {m : Mask} {v : Nat} :
    m.dropLowest.getLsbD v = true ↔ m.getLsbD v = true ∧ v ≠ m.lowest := by
  by_cases zero : m = 0#32
  · subst zero
    simp [dropLowest]
  rw [dropLowest, sub_one_eq zero, BitVec.getLsbD_and, BitVec.getLsbD_or, BitVec.getLsbD_and,
    BitVec.getLsbD_not, getLsbD_below, getLsbD_below]
  cases set : m.getLsbD v with
  | false => simp
  | true =>
    have inside := BitVec.lt_of_getLsbD set
    have start := lowest_le set
    grind

theorem mem_values {m : Mask} {v : Nat} : v ∈ m.values ↔ m.getLsbD v = true := by
  fun_induction values m with
  | case1 => simp
  | case2 m nonzero ih =>
    rw [List.mem_cons, ih, getLsbD_dropLowest]
    constructor
    · rintro (rfl | ⟨set, _⟩)
      · exact getLsbD_lowest nonzero
      · exact set
    · intro set
      by_cases first : v = m.lowest
      · exact .inl first
      · exact .inr ⟨set, first⟩

theorem values_ascending (m : Mask) : m.values.Pairwise (· < ·) := by
  fun_induction values m with
  | case1 => exact List.Pairwise.nil
  | case2 m nonzero ih =>
    refine List.pairwise_cons.mpr ⟨fun v member => ?_, ih⟩
    obtain ⟨set, other⟩ := getLsbD_dropLowest.mp (mem_values.mp member)
    have start := lowest_le set
    omega

/-- The members in ascending order are the positions of the word that pass the test. -/
theorem values_eq_filter (m : Mask) : m.values = (List.range 32).filter m.getLsbD := by
  have ascending : ((List.range 32).filter m.getLsbD).Pairwise (· < ·) :=
    List.Pairwise.filter _ List.pairwise_lt_range
  refine m.values_ascending.eq_of_mem_iff ascending fun v => ?_
  rw [mem_values, List.mem_filter, List.mem_range]
  exact ⟨fun set => ⟨BitVec.lt_of_getLsbD set, set⟩, fun found => found.2⟩

/-- Counting the set bits counts the members. -/
theorem count_eq_length (m : Mask) : m.count = m.values.length := by
  have counts : ∀ n, m.cpopNatRec n 0 = ((List.range n).filter m.getLsbD).length := by
    intro n
    induction n with
    | zero => rfl
    | succ n ih =>
      rw [BitVec.cpopNatRec_succ, BitVec.cpopNatRec_add, ih, List.range_succ, List.filter_append]
      cases set : m.getLsbD n <;> simp [set]
  rw [count, BitVec.toNat_cpop, counts, values_eq_filter]

theorem size_eq_length (m : Mask) : m.size = m.values.length := by
  rw [size_eq_count, count_eq_length]

theorem dropLowest_eq_zero_iff {m : Mask} :
    m.dropLowest = 0#32 ↔ ∀ v, m.getLsbD v = true → v = m.lowest := by
  rw [eq_zero_iff]
  refine forall_congr' fun v => ?_
  rw [← Bool.not_eq_true, getLsbD_dropLowest, not_and, ne_eq, Decidable.not_not]

/-- A mask with members has one alone exactly if nothing is left behind the lowest. -/
theorem count_eq_one_iff {m : Mask} (nonzero : m ≠ 0#32) :
    m.count = 1 ↔ m.dropLowest = 0#32 := by
  rw [count_eq_length, values_of_ne_zero nonzero, List.length_cons]
  constructor
  · intro one
    have none : m.dropLowest.values = [] := List.eq_nil_of_length_eq_zero (by omega)
    refine eq_zero_iff.mpr fun v => ?_
    cases set : m.dropLowest.getLsbD v with
    | false => rfl
    | true =>
      have member := mem_values.mpr set
      rw [none] at member
      exact absurd member List.not_mem_nil
  · intro zero
    rw [zero, values_zero, List.length_nil]

theorem sole?_eq_some_iff {m : Mask} {v : Nat} :
    m.sole? = some v ↔ ∀ w, m.getLsbD w = true ↔ w = v := by
  rw [sole?]
  constructor
  · intro found w
    split at found
    · next alone =>
      obtain rfl := Option.some.inj found
      constructor
      · exact dropLowest_eq_zero_iff.mp alone.2 w
      · rintro rfl
        exact getLsbD_lowest alone.1
    · exact absurd found (by simp)
  · intro only
    have set : m.getLsbD v = true := (only v).mpr rfl
    have nonzero := ne_zero_of_bit set
    have first : m.lowest = v := (only _).mp (getLsbD_lowest nonzero)
    have rest : m.dropLowest = 0#32 :=
      dropLowest_eq_zero_iff.mpr fun w member => ((only w).mp member).trans first.symm
    rw [if_pos ⟨nonzero, rest⟩, first]

/-- A mask with members and no sole one has two. -/
theorem exists_two_of_sole?_eq_none {m : Mask} (nonzero : m ≠ 0#32) (none : m.sole? = none) :
    ∃ v w, m.getLsbD v = true ∧ m.getLsbD w = true ∧ v ≠ w := by
  have more : m.dropLowest ≠ 0#32 := by
    intro zero
    rw [sole?, if_pos ⟨nonzero, zero⟩] at none
    exact Option.some_ne_none _ none
  obtain ⟨set, other⟩ := getLsbD_dropLowest.mp (getLsbD_lowest more)
  exact ⟨_, _, getLsbD_lowest nonzero, set, other.symm⟩

/-- A copy shifted down by `n` doubles how far each set bit reaches. -/
private theorem reach_double {m word : Mask} {n : Nat}
    (reach : ∀ v, word.getLsbD v = true ↔ ∃ up < n, m.getLsbD (v + up) = true) (v : Nat) :
    (word ||| word >>> n).getLsbD v = true ↔ ∃ up < n + n, m.getLsbD (v + up) = true := by
  rw [BitVec.getLsbD_or, BitVec.getLsbD_ushiftRight, Bool.or_eq_true, reach, reach]
  constructor
  · rintro (⟨up, near, set⟩ | ⟨up, near, set⟩)
    · exact ⟨up, by omega, set⟩
    · exact ⟨n + up, by omega, by rwa [← Nat.add_assoc, Nat.add_comm v n]⟩
  · rintro ⟨up, near, set⟩
    by_cases first : up < n
    · exact .inl ⟨up, first, set⟩
    · exact .inr ⟨up - n, by omega, by rwa [show n + v + (up - n) = v + up by omega]⟩

theorem getLsbD_smear {m : Mask} (nonzero : m ≠ 0#32) {v : Nat} :
    m.smear.getLsbD v = true ↔ v ≤ m.highest := by
  have start : ∀ v, m.getLsbD v = true ↔ ∃ up < 1, m.getLsbD (v + up) = true := fun v =>
    ⟨fun set => ⟨0, by omega, set⟩, by rintro ⟨up, near, set⟩; rwa [show up = 0 by omega] at set⟩
  have top := getLsbD_highest nonzero
  have inside := BitVec.lt_of_getLsbD top
  have spread := reach_double (reach_double (reach_double (reach_double (reach_double start)))) v
  rw [show m.smear.getLsbD v = true ↔ ∃ up < 32, m.getLsbD (v + up) = true from spread]
  constructor
  · rintro ⟨up, _, set⟩
    have bound := le_highest set
    omega
  · intro bound
    exact ⟨m.highest - v, by omega, by rwa [show v + (m.highest - v) = m.highest by omega]⟩

/-- Collecting images of members one by one collects all of them. -/
private theorem getLsbD_foldl_or (image : Nat → Mask) (vs : List Nat) (out : Mask) (w : Nat) :
    (vs.foldl (fun out v => out ||| image v) out).getLsbD w = true ↔
      out.getLsbD w = true ∨ ∃ v ∈ vs, (image v).getLsbD w = true := by
  induction vs generalizing out with
  | nil => simp
  | cons v rest ih =>
    rw [List.foldl_cons, ih, BitVec.getLsbD_or, Bool.or_eq_true, or_assoc]
    simp only [List.mem_cons, or_and_right, exists_or, exists_eq_left]

theorem getLsbD_sums {a b : Mask} {w : Nat} :
    (a.sums b).getLsbD w = true ↔
      w < 32 ∧ ∃ x y, a.getLsbD x = true ∧ b.getLsbD y = true ∧ x + y = w := by
  rw [sums, getLsbD_foldl_or]
  simp only [BitVec.getLsbD_zero, Bool.false_eq_true, false_or, mem_values,
    BitVec.getLsbD_shiftLeft, Bool.and_eq_true, Bool.not_eq_true', decide_eq_true_eq,
    decide_eq_false_iff_not]
  constructor
  · rintro ⟨x, left, ⟨inWord, enough⟩, right⟩
    exact ⟨inWord, x, w - x, left, right, by omega⟩
  · rintro ⟨inWord, x, y, left, right, rfl⟩
    exact ⟨x, left, ⟨inWord, by omega⟩, by rwa [Nat.add_sub_cancel_left]⟩

theorem getLsbD_differences {a b : Mask} {w : Nat} :
    (a.differences b).getLsbD w = true ↔
      ∃ x y, a.getLsbD x = true ∧ b.getLsbD y = true ∧ x = w + y := by
  rw [differences, getLsbD_foldl_or]
  simp only [BitVec.getLsbD_zero, Bool.false_eq_true, false_or, mem_values,
    BitVec.getLsbD_ushiftRight]
  constructor
  · rintro ⟨y, right, left⟩
    exact ⟨y + w, y, left, right, Nat.add_comm y w⟩
  · rintro ⟨x, y, left, right, rfl⟩
    exact ⟨y, right, by rwa [Nat.add_comm]⟩

/-- Shifting up by `v` moves no bit beyond `maskMax`. -/
def HasRoom (m : Mask) (v : Nat) : Prop := ∀ w, m.getLsbD w = true → v + w ≤ maskMax

theorem HasRoom.fits {m : Mask} {v : Nat} (room : m.HasRoom v) : Fits (m <<< v) := by
  intro w set
  simp only [BitVec.getLsbD_shiftLeft, Bool.and_eq_true, Bool.not_eq_true', decide_eq_true_eq,
    decide_eq_false_iff_not] at set
  have bound := room (w - v) set.2
  omega

/-- So the word loses no bit. -/
theorem HasRoom.toNat_shiftLeft {m : Mask} {v : Nat} (room : m.HasRoom v) :
    (m <<< v).toNat = m.toNat <<< v := by
  rw [BitVec.toNat_shiftLeft]
  refine Nat.mod_eq_of_lt (Nat.lt_pow_two_of_testBit _ fun i beyond => ?_)
  rw [Nat.testBit_shiftLeft, ← Bool.not_eq_true, Bool.and_eq_true, BitVec.testBit_toNat]
  rintro ⟨reached, set⟩
  have bound := room (i - v) set
  simp only [decide_eq_true_eq] at reached
  simp only [maskMax] at bound
  omega

theorem Fits.ushiftRight {m : Mask} (fits : m.Fits) (v : Nat) : Fits (m >>> v) := by
  intro w set
  rw [BitVec.getLsbD_ushiftRight] at set
  have bound := fits (v + w) set
  omega

end Mask

end IntegerDomains

import MergedWork.Target
import Mathlib.Algebra.Group.Nat.Defs
import Mathlib.Tactic.Common

/-!
# What a compact word stands for

A word denotes the number `mantissa * 256 ^ size / 256 ^ 3`, rounded down. `Compact.isOverflow`
holds exactly if that number has more than 256 bits, and otherwise `Compact.value` is that number;
so `Compact.target?` gives the number exactly if it is positive and representable
(`target?_eq_some_iff`).
-/

namespace MergedWork.Compact

variable {c : Compact} {t : Nat}

/-- The number that the digits and the size of a word denote, without bound. -/
def magnitude (c : Compact) : Nat := c.mantissa * 256 ^ c.size / 256 ^ 3

/-- The word denotes the positive number `t`, which has at most 256 bits. -/
def Denotes (c : Compact) (t : Nat) : Prop :=
  c.word.toNat.testBit 23 = false ∧ t = c.magnitude ∧ 0 < t ∧ t < 2 ^ 256

theorem mantissa_lt (c : Compact) : c.mantissa < 0x800000 := Nat.mod_lt _ (by decide)

theorem shiftLeft_bytes (n k : Nat) : n <<< (8 * k) = n * 256 ^ k := by
  rw [Nat.shiftLeft_eq, Nat.pow_mul]

theorem shiftRight_bytes (n k : Nat) : n >>> (8 * k) = n / 256 ^ k := by
  rw [Nat.shiftRight_eq_div_pow, Nat.pow_mul]

theorem le_magnitude_iff (n : Nat) : n ≤ c.magnitude ↔ n * 256 ^ 3 ≤ c.mantissa * 256 ^ c.size :=
  Nat.le_div_iff_mul_le (by decide)

theorem two_pow_mul_eq : 2 ^ 256 * 256 ^ 3 = 256 ^ 35 := by decide

/-- Beyond size 32, the bits that are left for the digits are those of `256 ^ (35 - size)`. -/
theorem two_pow_le_magnitude_iff (hs : c.size ≤ 35) :
    2 ^ 256 ≤ c.magnitude ↔ 256 ^ (35 - c.size) ≤ c.mantissa := by
  rw [le_magnitude_iff]
  have hpow : 2 ^ 256 * 256 ^ 3 = 256 ^ (35 - c.size) * 256 ^ c.size := by
    rw [two_pow_mul_eq, ← Nat.pow_add, Nat.sub_add_cancel hs]
  rw [hpow]
  exact Nat.mul_le_mul_right_iff (Nat.pow_pos (by decide))

theorem isOverflow_iff : c.isOverflow = true ↔ 2 ^ 256 ≤ c.magnitude := by
  have hm := c.mantissa_lt
  simp only [isOverflow, ne_eq, decide_not, gt_iff_lt, Bool.and_eq_true, Bool.not_eq_true',
    decide_eq_false_iff_not, Bool.or_eq_true, decide_eq_true_eq]
  rcases Nat.lt_or_ge 35 c.size with hs | hs
  · -- One byte beyond the largest size, any digit overflows.
    rw [le_magnitude_iff]
    have hpow : 2 ^ 256 * 256 ^ 3 ≤ 256 ^ c.size := by
      rw [two_pow_mul_eq]
      exact Nat.pow_le_pow_right (by decide) (Nat.le_of_lt hs)
    constructor
    · rintro ⟨hne, -⟩
      exact Nat.le_trans hpow (Nat.le_mul_of_pos_left _ (Nat.pos_of_ne_zero hne))
    · intro hle
      refine ⟨fun h => ?_, by omega⟩
      rw [h, Nat.zero_mul] at hle
      exact absurd hle (by decide)
  · rw [two_pow_le_magnitude_iff hs]
    rcases Nat.lt_or_ge 32 c.size with hlarge | hsmall
    · obtain h | h | h : c.size = 33 ∨ c.size = 34 ∨ c.size = 35 := by omega
      all_goals
        rw [h]
        omega
    · have hpow : 256 ^ 3 ≤ 256 ^ (35 - c.size) := Nat.pow_le_pow_right (by decide) (by omega)
      constructor
      · rintro ⟨-, h⟩
        omega
      · intro h
        omega

theorem value_of_not_overflow (h : ¬ c.isOverflow = true) : c.value = c.magnitude := by
  rw [value, if_neg h, magnitude]
  split_ifs with hs
  · have hpow : 256 ^ 3 = 256 ^ (3 - c.size) * 256 ^ c.size := by
      rw [← Nat.pow_add, Nat.sub_add_cancel hs]
    rw [shiftRight_bytes, hpow, Nat.mul_div_mul_right _ _ (Nat.pow_pos (by decide))]
  · have hpow : 256 ^ c.size = 256 ^ (c.size - 3) * 256 ^ 3 := by
      rw [← Nat.pow_add, Nat.sub_add_cancel (by omega)]
    rw [shiftLeft_bytes, hpow, ← Nat.mul_assoc, Nat.mul_div_cancel _ (by decide)]

theorem isNegative_eq_false_iff :
    c.isNegative = false ↔ c.mantissa = 0 ∨ c.word.toNat.testBit 23 = false := by
  rw [isNegative, Bool.and_eq_false_iff, decide_eq_false_iff_not, not_not]

/-- A word serves as a target exactly if it denotes a positive number of at most 256 bits, and it
serves as that number. -/
theorem target?_eq_some_iff : c.target? = some t ↔ c.Denotes t := by
  by_cases hover : c.isOverflow = true
  · have hlarge := isOverflow_iff.1 hover
    simp only [target?, isValid, hover, Bool.not_true, Bool.and_false, Bool.false_and]
    refine iff_of_false (by simp) ?_
    rintro ⟨-, rfl, -, hlt⟩
    omega
  · have hsmall : ¬ 2 ^ 256 ≤ c.magnitude := mt isOverflow_iff.2 hover
    have hzero : c.mantissa = 0 → c.magnitude = 0 := fun h => by
      rw [magnitude, h, Nat.zero_mul, Nat.zero_div]
    rw [target?, Option.ite_none_right_eq_some, Option.some.injEq, isValid,
      value_of_not_overflow hover]
    simp only [Bool.not_eq_true] at hover
    simp only [hover, Bool.not_false, Bool.and_true, Bool.and_eq_true, Bool.not_eq_true',
      isNegative_eq_false_iff, decide_eq_true_eq, ne_eq, Denotes]
    constructor
    · rintro ⟨⟨hsign, hpos⟩, rfl⟩
      exact ⟨hsign.resolve_left (mt hzero hpos), rfl, Nat.pos_of_ne_zero hpos, by omega⟩
    · rintro ⟨hsign, rfl, hpos, -⟩
      exact ⟨⟨Or.inr hsign, Nat.ne_of_gt hpos⟩, rfl⟩

/-- A target of 256 bits is met by one hash in `2 ^ 256` at least, so that it counts as work. -/
theorem Denotes.one_le_work (h : c.Denotes t) {weight : Nat} (hweight : 0 < weight) :
    1 ≤ c.work weight := by
  have htarget : c.target? = some t := target?_eq_some_iff.2 h
  have hlt : t / weight < 2 ^ 256 := Nat.lt_of_le_of_lt (Nat.div_le_self t weight) h.2.2.2
  have hquot : 1 ≤ (1 <<< 256) / (t / weight + 1) := by
    rw [Nat.one_shiftLeft]
    exact Nat.div_pos hlt (Nat.succ_pos _)
  rw [work, htarget]
  simp only [Nat.ne_of_gt hweight, if_false]
  exact Nat.le_min.2 ⟨by decide, hquot⟩

end MergedWork.Compact

import MergedWork.Proofs.Target
import Mathlib.Data.Rat.Floor
import Mathlib.Algebra.Order.Floor.Semifield
import Mathlib.Order.Bounds.Defs

/-!
# Rounding to a word

The word for a number has the size of twice the number, so that the sign bit stays clear, and as
many of its digits as the mantissa then holds (`ofTarget_eq_pack`). Words of this size and above denote
multiples of `grain`, and smaller ones denote less, so that no word comes closer from below. A word
is the word for its own number exactly if it is the word for some number (`ofTarget_nearest`).
-/

namespace MergedWork.Compact

variable {c : Compact} {n t size mantissa : Nat}

/-! ## Sizes -/

/-- The bytes that a number takes are its digits to the base 256. -/
theorem byteLength_le_iff : byteLength n ≤ size ↔ n < 256 ^ size := by
  rw [byteLength, show 256 ^ size = 2 ^ (8 * size) by rw [Nat.pow_mul]]
  split_ifs with hzero
  · simp [hzero]
  · rw [← Nat.log2_lt hzero]
    omega

theorem lt_byteLength_iff : size < byteLength n ↔ 256 ^ size ≤ n := by
  rw [← Nat.not_le, byteLength_le_iff, Nat.not_lt]

theorem lt_pow_byteLength (n : Nat) : n < 256 ^ byteLength n :=
  byteLength_le_iff.1 (Nat.le_refl _)

/-- The size of the word for a number. -/
def roundedSize (n : Nat) : Nat := byteLength (2 * n)

/-- The step between the numbers that words of a size denote. -/
def grain (size : Nat) : Nat := 256 ^ (size - 3)

theorem grain_pos : 0 < grain size := Nat.pow_pos (by decide)

theorem grain_mul (hsize : 3 ≤ size) : grain size * 256 ^ 3 = 256 ^ size := by
  rw [grain, ← Nat.pow_add, Nat.sub_add_cancel hsize]

theorem grain_of_le (hsize : size ≤ 3) : grain size = 1 := by
  rw [grain, Nat.sub_eq_zero_of_le hsize, Nat.pow_zero]

theorem roundedSize_le (ht : t < 2 ^ 256) : roundedSize t ≤ 33 := by
  rw [roundedSize, byteLength_le_iff]
  omega

/-! ## Packing -/

theorem toNat_word_pack (hsize : size < 256) (hmantissa : mantissa < 0x800000) :
    (pack size mantissa).word.toNat = size * 2 ^ 24 + mantissa := by
  rw [pack, Nat.shiftLeft_eq, UInt32.toNat_ofNat_of_lt']
  simp only [UInt32.size]
  omega

theorem size_pack (hsize : size < 256) (hmantissa : mantissa < 0x800000) :
    (pack size mantissa).size = size := by
  rw [Compact.size, toNat_word_pack hsize hmantissa, Nat.shiftRight_eq_div_pow]
  omega

theorem mantissa_pack (hsize : size < 256) (hmantissa : mantissa < 0x800000) :
    (pack size mantissa).mantissa = mantissa := by
  rw [Compact.mantissa, toNat_word_pack hsize hmantissa]
  omega

theorem isNegative_pack (hsize : size < 256) (hmantissa : mantissa < 0x800000) :
    (pack size mantissa).isNegative = false := by
  rw [isNegative_eq_false_iff, toNat_word_pack hsize hmantissa, Nat.testBit_eq_decide_div_mod_eq]
  right
  rw [decide_eq_false_iff_not]
  omega

/-! ## The digits of a number -/

/-- The three highest bytes of a number of the given size. -/
def digits (size n : Nat) : Nat := n * 256 ^ 3 / 256 ^ size

theorem digits_of_three_le (hsize : 3 ≤ size) (n : Nat) : digits size n = n / grain size := by
  rw [digits, ← grain_mul hsize, Nat.mul_div_mul_right _ _ (by decide)]

theorem digits_of_le_three (hsize : size ≤ 3) (n : Nat) :
    digits size n = n * 256 ^ (3 - size) := by
  have hpow : 256 ^ 3 = 256 ^ (3 - size) * 256 ^ size := by
    rw [← Nat.pow_add, Nat.sub_add_cancel hsize]
  rw [digits, hpow, ← Nat.mul_assoc, Nat.mul_div_cancel _ (Nat.pow_pos (by decide))]

theorem digits_eq (size n : Nat) :
    digits size n = if size ≤ 3 then n <<< (8 * (3 - size)) else n >>> (8 * (size - 3)) := by
  split_ifs with h
  · rw [digits_of_le_three h, shiftLeft_bytes]
  · rw [digits_of_three_le (by omega), grain, shiftRight_bytes]

/-- The mantissa holds the digits from the rounded size on. -/
theorem digits_lt_iff : digits size n < 0x800000 ↔ roundedSize n ≤ size := by
  rw [digits, Nat.div_lt_iff_lt_mul (Nat.pow_pos (by decide)), roundedSize, byteLength_le_iff]
  omega

/-- The word for a number leaves room for the sign, and has as many digits as the mantissa then
holds. -/
theorem ofTarget_eq_pack (n : Nat) :
    ofTarget n = pack (roundedSize n) (digits (roundedSize n) n) := by
  have hle : byteLength n ≤ roundedSize n := by
    have hlt : 2 * n < 256 ^ roundedSize n := lt_pow_byteLength (2 * n)
    rw [byteLength_le_iff]
    omega
  have hge : roundedSize n ≤ byteLength n + 1 := by
    have hlt := lt_pow_byteLength n
    rw [roundedSize, byteLength_le_iff, Nat.pow_succ]
    omega
  rw [ofTarget, ← digits_eq]
  split_ifs with h <;> rw [digits_lt_iff] at h
  · rw [Nat.le_antisymm h hle]
  · have hsize : roundedSize n = byteLength n + 1 := by omega
    rw [hsize, digits, digits, Nat.div_div_eq_div_mul, ← Nat.pow_succ]

/-! ## What is denoted -/

theorem magnitude_of_three_le (hsize : 3 ≤ c.size) : c.magnitude = c.mantissa * grain c.size := by
  rw [magnitude, ← grain_mul hsize, ← Nat.mul_assoc, Nat.mul_div_cancel _ (by decide)]

theorem grain_dvd_magnitude (hsize : size ≤ c.size) : grain size ∣ c.magnitude := by
  by_cases hthree : 3 ≤ c.size
  · rw [magnitude_of_three_le hthree]
    exact Nat.dvd_mul_left_of_dvd (Nat.pow_dvd_pow 256 (Nat.sub_le_sub_right hsize 3)) _
  · rw [grain_of_le (by omega)]
    exact Nat.one_dvd _

/-- The mantissa leaves out the sign bit, so that the double takes no more bytes either. -/
theorem two_mul_magnitude_lt (c : Compact) : 2 * c.magnitude < 256 ^ c.size := by
  have hmantissa := c.mantissa_lt
  have hpos : 0 < 256 ^ c.size := Nat.pow_pos (by decide)
  have hle : c.magnitude * 256 ^ 3 ≤ c.mantissa * 256 ^ c.size := Nat.div_mul_le_self _ _
  have hlt : c.mantissa * 256 ^ c.size < 0x800000 * 256 ^ c.size :=
    Nat.mul_lt_mul_of_pos_right hmantissa hpos
  omega

theorem value_eq_magnitude (hfits : c.isOverflow = false) : c.value = c.magnitude :=
  value_of_not_overflow (by simp [hfits])

/-- The number rounded down to a multiple of the grain of its word. -/
def rounded (n : Nat) : Nat := n / grain (roundedSize n) * grain (roundedSize n)

theorem rounded_le (n : Nat) : rounded n ≤ n := Nat.div_mul_le_self _ _

theorem rounded_of_le (hsize : roundedSize n ≤ 3) : rounded n = n := by
  rw [rounded, grain_of_le hsize, Nat.div_one, Nat.mul_one]

/-- Rounding keeps the size. -/
theorem pow_le_two_mul_rounded (hsize : size < roundedSize n) : 256 ^ size ≤ 2 * rounded n := by
  by_cases hthree : roundedSize n ≤ 3
  · rw [rounded_of_le hthree]
    exact lt_byteLength_iff.1 hsize
  · -- Any less than `0x8000` of the grain would have fitted into a smaller size.
    have hpow : 256 ^ (roundedSize n - 1) = 0x10000 * grain (roundedSize n) := by
      rw [grain, show 0x10000 = 256 ^ 2 by decide, ← Nat.pow_add]
      congr 1
      omega
    have hn : 256 ^ (roundedSize n - 1) ≤ 2 * n := lt_byteLength_iff.1 (by rw [← roundedSize]; omega)
    have hdigits : 0x8000 ≤ n / grain (roundedSize n) := by
      rw [Nat.le_div_iff_mul_le grain_pos]
      omega
    have hle : 0x8000 * grain (roundedSize n) ≤ rounded n := Nat.mul_le_mul_right _ hdigits
    calc 256 ^ size ≤ 256 ^ (roundedSize n - 1) := Nat.pow_le_pow_right (by decide) (by omega)
      _ ≤ 2 * rounded n := by omega

theorem roundedSize_rounded (n : Nat) : roundedSize (rounded n) = roundedSize n := by
  refine Nat.le_antisymm ?_ (Nat.le_of_not_lt fun hlt => ?_)
  · have hn : 2 * n < 256 ^ roundedSize n := lt_pow_byteLength (2 * n)
    have hle := rounded_le n
    rw [roundedSize, byteLength_le_iff]
    omega
  · have hle := pow_le_two_mul_rounded hlt
    rw [← lt_byteLength_iff] at hle
    exact absurd hle (Nat.lt_irrefl _)

/-- Rounding keeps the digits. -/
theorem digits_rounded (n : Nat) :
    digits (roundedSize n) (rounded n) = digits (roundedSize n) n := by
  by_cases hthree : roundedSize n ≤ 3
  · rw [rounded_of_le hthree]
  · rw [digits_of_three_le (by omega), digits_of_three_le (by omega), rounded,
      Nat.mul_div_cancel _ grain_pos]

theorem ofTarget_rounded (n : Nat) : ofTarget (rounded n) = ofTarget n := by
  rw [ofTarget_eq_pack, roundedSize_rounded, digits_rounded, ← ofTarget_eq_pack]

/-- A word that denotes no more than a number denotes no more than the number rounded down: the
words of the rounded size and above denote multiples of its grain, and the words below it denote
less. -/
theorem magnitude_le_rounded (h : c.magnitude ≤ n) : c.magnitude ≤ rounded n := by
  by_cases hsize : roundedSize n ≤ c.size
  · obtain ⟨k, hk⟩ := grain_dvd_magnitude hsize
    rw [rounded, hk, Nat.mul_comm]
    rw [hk] at h
    exact Nat.mul_le_mul_right _ ((Nat.le_div_iff_mul_le grain_pos).2 (by rwa [Nat.mul_comm]))
  · have hlt := c.two_mul_magnitude_lt
    have hle := pow_le_two_mul_rounded (Nat.lt_of_not_le hsize)
    omega

/-! ## The word for a number -/

section

variable (ht : t < 2 ^ 256)

include ht

theorem size_ofTarget : (ofTarget t).size = roundedSize t := by
  have hsize := roundedSize_le ht
  rw [ofTarget_eq_pack, size_pack (by omega) (digits_lt_iff.2 (Nat.le_refl _))]

theorem mantissa_ofTarget : (ofTarget t).mantissa = digits (roundedSize t) t := by
  have hsize := roundedSize_le ht
  rw [ofTarget_eq_pack, mantissa_pack (by omega) (digits_lt_iff.2 (Nat.le_refl _))]

theorem isNegative_ofTarget : (ofTarget t).isNegative = false := by
  have hsize := roundedSize_le ht
  rw [ofTarget_eq_pack]
  exact isNegative_pack (by omega) (digits_lt_iff.2 (Nat.le_refl _))

theorem magnitude_ofTarget : (ofTarget t).magnitude = rounded t := by
  have hsize := size_ofTarget ht
  have hmantissa := mantissa_ofTarget ht
  by_cases hthree : roundedSize t ≤ 3
  · rw [magnitude, hsize, hmantissa, digits_of_le_three hthree, rounded_of_le hthree, Nat.mul_assoc,
      ← Nat.pow_add, Nat.sub_add_cancel hthree, Nat.mul_div_cancel _ (by decide)]
  · rw [magnitude_of_three_le (by omega), hsize, hmantissa, digits_of_three_le (by omega), rounded]

theorem isOverflow_ofTarget : (ofTarget t).isOverflow = false := by
  rw [← Bool.not_eq_true, isOverflow_iff, magnitude_ofTarget ht, Nat.not_le]
  exact Nat.lt_of_le_of_lt (rounded_le t) ht

/-- The word for a number denotes the number rounded down. -/
theorem value_ofTarget : (ofTarget t).value = rounded t := by
  rw [value_eq_magnitude (isOverflow_ofTarget ht), magnitude_ofTarget ht]

end

theorem value_lt (c : Compact) : c.value < 2 ^ 256 := by
  cases hfits : c.isOverflow with
  | true =>
    rw [value, if_pos hfits]
    decide
  | false =>
    rw [value_eq_magnitude hfits]
    rwa [← Bool.not_eq_true, isOverflow_iff, Nat.not_le] at hfits

/-! ## The nearest word -/

/-- A number that some word stands for, which is neither negative nor too large. -/
def Representable (n : Nat) : Prop :=
  ∃ c : Compact, c.isNegative = false ∧ c.isOverflow = false ∧ c.value = n

/-- Of the numbers up to `t` that words stand for, the word for `t` stands for the greatest. -/
theorem isGreatest_value_ofTarget (ht : t < 2 ^ 256) :
    IsGreatest {n | Representable n ∧ n ≤ t} (ofTarget t).value := by
  refine ⟨⟨⟨ofTarget t, isNegative_ofTarget ht, isOverflow_ofTarget ht, rfl⟩, ?_⟩, ?_⟩
  · rw [value_ofTarget ht]
    exact rounded_le t
  · rintro n ⟨⟨c, -, hfits, rfl⟩, hle⟩
    rw [value_eq_magnitude hfits] at hle ⊢
    rw [value_ofTarget ht]
    exact magnitude_le_rounded hle

/-- A word is the word for its own number exactly if it is the word for some number. -/
theorem ofTarget_value_eq_iff : ofTarget c.value = c ↔ ∃ t < 2 ^ 256, ofTarget t = c := by
  constructor
  · intro h
    exact ⟨c.value, c.value_lt, h⟩
  · rintro ⟨t, ht, rfl⟩
    rw [value_ofTarget ht, ofTarget_rounded]

/-! ## The exact number -/

/-- The number that the digits and the size of a word denote, with its fraction. -/
def exactValue (c : Compact) : ℚ := c.mantissa * 256 ^ ((c.size : ℤ) - 3)

theorem floor_exactValue (c : Compact) : ⌊c.exactValue⌋₊ = c.magnitude := by
  have hquot : c.exactValue = ((c.mantissa * 256 ^ c.size : ℕ) : ℚ) / ((256 ^ 3 : ℕ) : ℚ) := by
    rw [exactValue, zpow_sub₀ (by norm_num), zpow_natCast]
    push_cast
    ring
  rw [hquot, Nat.floor_div_eq_div, magnitude]

theorem isOverflow_iff_exactValue : c.isOverflow = true ↔ 2 ^ 256 ≤ c.exactValue := by
  have hnonneg : 0 ≤ c.exactValue := mul_nonneg (Nat.cast_nonneg _) (zpow_nonneg (by norm_num) _)
  rw [isOverflow_iff, ← floor_exactValue, Nat.le_floor_iff hnonneg]
  norm_num

theorem value_eq_floor (hfits : c.isOverflow = false) : c.value = ⌊c.exactValue⌋₊ := by
  rw [value_eq_magnitude hfits, floor_exactValue]

/-! ## Rounding down -/

/-- The word for a number of 256 bits is neither negative nor too large, and of all such words none
denotes a greater number that is not above it. So each number that is denoted at all comes out
exactly, and order is kept. A word is the word for its own number exactly if it is the word for
some number. It overflows if its exact number has more than 256 bits, and otherwise it denotes the
whole part of that. -/
theorem ofTarget_nearest {t : Nat} (ht : t < 2 ^ 256) :
    (ofTarget t).isNegative = false ∧ (ofTarget t).isOverflow = false ∧
      IsGreatest {n | Representable n ∧ n ≤ t} (ofTarget t).value ∧
      (Representable t → (ofTarget t).value = t) ∧
      (∀ t' ≤ t, (ofTarget t').value ≤ (ofTarget t).value) ∧
      ∀ c : Compact, (ofTarget c.value = c ↔ ∃ t < 2 ^ 256, ofTarget t = c) ∧
        (c.isOverflow = true ↔ 2 ^ 256 ≤ c.exactValue) ∧
        (c.isOverflow = false → c.value = ⌊c.exactValue⌋₊) := by
  have hgreatest := isGreatest_value_ofTarget ht
  refine ⟨isNegative_ofTarget ht, isOverflow_ofTarget ht, hgreatest, fun hdenoted => ?_,
    fun t' hle => ?_, fun c => ⟨ofTarget_value_eq_iff, isOverflow_iff_exactValue, value_eq_floor⟩⟩
  · exact Nat.le_antisymm hgreatest.1.2 (hgreatest.2 ⟨hdenoted, Nat.le_refl t⟩)
  · -- What is rounded down from below is a number that is denoted.
    obtain ⟨hdenoted, hle'⟩ := (isGreatest_value_ofTarget (Nat.lt_of_le_of_lt hle ht)).1
    exact hgreatest.2 ⟨hdenoted, Nat.le_trans hle' hle⟩

/-- The highest bit of the third byte is taken for the sign, so that this byte is given up. -/
theorem ofTarget_nearest_threeBytes :
    0x8012ff < 2 ^ 256 ∧ (ofTarget 0x8012ff).word = 0x04008012 ∧
      IsGreatest {n | Representable n ∧ n ≤ 0x8012ff} 0x801200 := by
  obtain ⟨-, -, hgreatest, -⟩ := ofTarget_nearest (t := 0x8012ff) (by decide)
  have hvalue : (ofTarget 0x8012ff).value = 0x801200 := by decide +kernel
  rw [hvalue] at hgreatest
  exact ⟨by decide, by decide +kernel, hgreatest⟩

end MergedWork.Compact

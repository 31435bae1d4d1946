import MergedWork.Proofs.Bytes.Integers
import MergedWork.Transaction.Script
import Mathlib.Tactic.Common

/-!
# Integers in scripts

`toInt` reads the integers of scripts: the highest bit of the last byte is the sign, the other bits
are the magnitude. What is pushed for an integer is read as this integer (`toInt_integer`), and
every other byte string that is read as the same integer is longer (`length_integer_lt`).
-/

namespace MergedWork.Script

variable {bs : Bytes}

/-- Whether the highest bit of the last byte is set. -/
def hasSign (bs : Bytes) : Bool := bs.getLast?.any (0x80 ≤ ·)

/-- The weight of the highest bit of the last byte. -/
def signBit (bs : Bytes) : Nat := 256 ^ bs.length / 2

/-- The integer of a sign and a magnitude, least significant byte first. -/
def toInt (bs : Bytes) : Int :=
  if hasSign bs then -((Bytes.toNat bs - signBit bs : Nat) : Int) else Bytes.toNat bs

/-- The bytes of an integer of any size. -/
def ofInt (v : Int) : Bytes := withSign (v < 0) (magnitude v.natAbs)

theorem integer_eq_ofInt (v : Int64) : integer v = ofInt v.toInt := by
  simp only [integer, ofInt, Int64.lt_iff_toInt_lt, Int64.toInt_zero]

/-! ## The sign bit -/

theorem two_mul_signBit (hbs : bs ≠ []) : 2 * signBit bs = 256 ^ bs.length := by
  obtain ⟨b, rest, rfl⟩ := List.exists_cons_of_ne_nil hbs
  rw [signBit, List.length_cons, Nat.pow_succ]
  omega

theorem signBit_cons (b : UInt8) (hbs : bs ≠ []) : signBit (b :: bs) = 256 * signBit bs := by
  have hcons := two_mul_signBit (List.cons_ne_nil b bs)
  have hrest := two_mul_signBit hbs
  rw [List.length_cons, Nat.pow_succ] at hcons
  omega

theorem signBit_singleton (b : UInt8) : signBit [b] = 128 := by
  rw [signBit, List.length_singleton, Nat.pow_one]

theorem toNat_singleton (b : UInt8) : Bytes.toNat [b] = b.toNat := rfl

theorem signBit_congr {other : Bytes} (h : bs.length = other.length) :
    signBit bs = signBit other := by
  rw [signBit, signBit, h]

theorem hasSign_iff (hbs : bs ≠ []) : hasSign bs = true ↔ signBit bs ≤ Bytes.toNat bs := by
  induction bs with
  | nil => exact absurd rfl hbs
  | cons b rest ih =>
    by_cases hrest : rest = []
    · subst hrest
      rw [signBit_singleton, toNat_singleton]
      exact decide_eq_true_iff.trans UInt8.le_iff_toNat_le
    · have hb := b.toNat_lt
      have hlast : hasSign (b :: rest) = hasSign rest := by
        rw [hasSign, hasSign, List.getLast?_cons_of_ne_nil hrest]
      rw [hlast, ih hrest, signBit_cons b hrest, Bytes.toNat]
      omega

theorem toInt_eq (bs : Bytes) :
    toInt bs =
      if signBit bs ≤ Bytes.toNat bs then -((Bytes.toNat bs - signBit bs : Nat) : Int)
      else Bytes.toNat bs := by
  by_cases hbs : bs = []
  · rw [hbs]
    decide
  · rw [toInt]
    simp only [hasSign_iff hbs]

theorem toNat_lt_two_mul_signBit (hbs : bs ≠ []) : Bytes.toNat bs < 2 * signBit bs := by
  rw [two_mul_signBit hbs]
  exact Bytes.toNat_lt bs

/-! ## Magnitudes -/

theorem toNat_magnitude (n : Nat) : Bytes.toNat (magnitude n) = n := by
  induction n using magnitude.induct with
  | case1 =>
    rw [magnitude, if_pos rfl, Bytes.toNat]
  | case2 n hn ih =>
    rw [magnitude, if_neg hn, Bytes.toNat, ih, UInt8.toNat_ofNat']
    omega

theorem magnitude_eq_nil_iff {n : Nat} : magnitude n = [] ↔ n = 0 := by
  rw [magnitude]
  split_ifs with hn <;> simp [hn]

theorem length_magnitude_le {n width : Nat} (h : n < 256 ^ width) :
    (magnitude n).length ≤ width := by
  induction width generalizing n with
  | zero =>
    rw [magnitude_eq_nil_iff.2 (Nat.lt_one_iff.1 h)]
    exact Nat.le_refl 0
  | succ width ih =>
    rw [magnitude]
    split_ifs
    · exact Nat.zero_le _
    · rw [Nat.pow_succ] at h
      exact Nat.succ_le_succ (ih (Nat.div_lt_of_lt_mul (by omega)))

/-! ## Signs -/

/-- The sign is the highest bit of the bytes that are written, which is unused by the magnitude. -/
structure Signed (negative : Bool) (bs signed : Bytes) : Prop where
  length_eq : signed.length = if Bytes.toNat bs < signBit bs then bs.length else bs.length + 1
  toNat_lt : Bytes.toNat bs < signBit signed
  toNat_eq : Bytes.toNat signed = Bytes.toNat bs + if negative then signBit signed else 0

theorem withSign_cons (negative : Bool) (b : UInt8) (hbs : bs ≠ []) :
    withSign negative (b :: bs) = b :: withSign negative bs := by
  obtain ⟨c, rest, rfl⟩ := List.exists_cons_of_ne_nil hbs
  rfl

theorem toNat_or_sign {b : UInt8} (hb : b.toNat < 128) : (b ||| 0x80).toNat = b.toNat + 128 := by
  have hall : ∀ n < 128, (UInt8.ofNat n ||| 0x80).toNat = n + 128 := by decide
  have hor := hall b.toNat hb
  rwa [UInt8.ofNat_toNat] at hor

theorem signed_singleton (negative : Bool) (b : UInt8) :
    Signed negative [b] (withSign negative [b]) := by
  have hb := b.toNat_lt
  have htwo (c : UInt8) : signBit [b, c] = 256 * 128 := by
    rw [signBit_cons b (List.cons_ne_nil c []), signBit_singleton]
  have hbit : 0x80 ≤ b ↔ 128 ≤ b.toNat := UInt8.le_iff_toNat_le
  by_cases hhigh : 0x80 ≤ b
  · -- The sign stands in a byte of its own.
    rw [withSign, if_pos hhigh]
    rw [hbit] at hhigh
    refine ⟨?_, ?_, ?_⟩
    · rw [signBit_singleton, toNat_singleton, if_neg (Nat.not_lt.2 hhigh)]
      rfl
    · rw [htwo, toNat_singleton]
      omega
    · rw [htwo]
      cases negative <;> simp [Bytes.toNat]
  · rw [withSign, if_neg hhigh]
    rw [hbit, Nat.not_le] at hhigh
    refine ⟨?_, ?_, ?_⟩
    · rw [signBit_singleton, toNat_singleton, if_pos hhigh]
      rfl
    · rwa [signBit_singleton, toNat_singleton]
    · rw [signBit_singleton]
      cases negative <;> simp [Bytes.toNat, toNat_or_sign hhigh]

theorem signed_withSign (negative : Bool) (hbs : bs ≠ []) :
    Signed negative bs (withSign negative bs) := by
  induction bs with
  | nil => exact absurd rfl hbs
  | cons b rest ih =>
    by_cases hrest : rest = []
    · subst hrest
      exact signed_singleton negative b
    · have hb := b.toNat_lt
      obtain ⟨hlength, hlt, heq⟩ := ih hrest
      have hsigned : withSign negative rest ≠ [] := fun h => by
        rw [h] at hlt
        exact absurd hlt (Nat.not_lt_zero _)
      rw [withSign_cons negative b hrest]
      refine ⟨?_, ?_, ?_⟩
      · rw [List.length_cons, hlength, List.length_cons, signBit_cons b hrest, Bytes.toNat]
        split_ifs <;> omega
      · rw [signBit_cons b hsigned, Bytes.toNat]
        omega
      · rw [signBit_cons b hsigned, Bytes.toNat, Bytes.toNat, heq]
        split_ifs <;> omega

theorem toInt_of_signed {negative : Bool} {signed : Bytes} (h : Signed negative bs signed) :
    toInt signed = if negative then -(Bytes.toNat bs : Int) else Bytes.toNat bs := by
  have hlt := h.toNat_lt
  have heq := h.toNat_eq
  rw [toInt_eq]
  cases negative <;> simp only [Bool.false_eq_true, ↓reduceIte] at heq ⊢
  · rw [heq, Nat.add_zero, if_neg (Nat.not_le.2 hlt)]
  · rw [heq, if_pos (Nat.le_add_left _ _), Nat.add_sub_cancel]

/-! ## Integers -/

theorem ofInt_zero : ofInt 0 = [] := by
  simp [ofInt, magnitude, withSign]

theorem signed_ofInt {v : Int} (hv : v ≠ 0) :
    Signed (v < 0) (magnitude v.natAbs) (ofInt v) :=
  signed_withSign _ (mt magnitude_eq_nil_iff.1 (Int.natAbs_ne_zero.2 hv))

theorem toInt_ofInt (v : Int) : toInt (ofInt v) = v := by
  by_cases hv : v = 0
  · rw [hv, ofInt_zero]
    rfl
  · rw [toInt_of_signed (signed_ofInt hv), toNat_magnitude]
    simp only [decide_eq_true_eq]
    split_ifs <;> omega

/-- What is read as an integer has room for its magnitude. -/
theorem toNat_of_toInt (h : toInt bs ≠ 0) :
    (toInt bs).natAbs < signBit bs ∧
      Bytes.toNat bs = (toInt bs).natAbs + if toInt bs < 0 then signBit bs else 0 := by
  have hbs : bs ≠ [] := by
    rintro rfl
    exact h rfl
  have hlt := toNat_lt_two_mul_signBit hbs
  rw [toInt_eq] at h ⊢
  split_ifs at h ⊢ <;> omega

theorem length_ofInt_le {v : Int} {width : Nat} (hv : v ≠ 0) (h : v.natAbs < 256 ^ width / 2) :
    (ofInt v).length ≤ width := by
  rw [(signed_ofInt hv).length_eq, toNat_magnitude]
  have hle : (magnitude v.natAbs).length ≤ width := length_magnitude_le (by omega)
  split_ifs with hroom
  · exact hle
  · -- The magnitude would have room for the sign if it had as many bytes.
    refine Nat.lt_of_le_of_ne hle fun heq => hroom ?_
    rwa [signBit, heq]

theorem length_ofInt_lt {v : Int} (hbs : toInt bs = v) (hne : bs ≠ ofInt v) :
    (ofInt v).length < bs.length := by
  by_cases hv : v = 0
  · rw [hv, ofInt_zero] at hne ⊢
    exact List.length_pos_iff.2 hne
  · obtain ⟨hlt, heq⟩ := toNat_of_toInt (hbs ▸ hv)
    rw [hbs] at hlt heq
    refine Nat.lt_of_le_of_ne (length_ofInt_le hv hlt) fun hlength => hne ?_
    have hsame := (signed_ofInt hv).toNat_eq
    rw [toNat_magnitude, signBit_congr hlength] at hsame
    have hnumber : Bytes.toNat bs = Bytes.toNat (ofInt v) := by
      rw [heq, hsame]
      simp only [decide_eq_true_eq]
    rw [← Bytes.ofNat_toNat bs, hnumber, ← hlength, Bytes.ofNat_toNat]

theorem toInt_integer (v : Int64) : toInt (integer v) = v.toInt := by
  rw [integer_eq_ofInt, toInt_ofInt]

theorem integer_zero : integer 0 = [] := by
  rw [integer_eq_ofInt, Int64.toInt_zero, ofInt_zero]

/-- The form of an integer is the only shortest one. -/
theorem length_integer_lt {v : Int64} (hbs : toInt bs = v.toInt) (hne : bs ≠ integer v) :
    (integer v).length < bs.length := by
  rw [integer_eq_ofInt] at hne ⊢
  exact length_ofInt_lt hbs hne

theorem length_integer_le (v : Int64) : (integer v).length ≤ 9 := by
  by_cases hv : v.toInt = 0
  · rw [integer_eq_ofInt, hv, ofInt_zero]
    exact Nat.zero_le _
  · have hmin := v.le_toInt
    have hmax := v.toInt_lt
    rw [integer_eq_ofInt]
    exact length_ofInt_le hv (by omega)

end MergedWork.Script

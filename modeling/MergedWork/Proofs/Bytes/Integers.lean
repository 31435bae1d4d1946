import MergedWork.Bytes
import Mathlib.Algebra.Group.Nat.Defs

/-!
# Integers as bytes

`Bytes.ofNat` and `Bytes.toNat` are inverse to each other on the numbers that fit
(`toNat_ofNat`, `ofNat_toNat`).
-/

namespace MergedWork.Bytes

theorem toNat_lt (bs : Bytes) : toNat bs < 256 ^ bs.length := by
  induction bs with
  | nil => simp [toNat]
  | cons b bs ih =>
    have := b.toNat_lt
    simp only [toNat, List.length_cons, Nat.pow_succ]
    omega

theorem toNat_ofNat (width n : Nat) : toNat (ofNat width n) = n % 256 ^ width := by
  induction width generalizing n with
  | zero => simp [ofNat, toNat, Nat.mod_one]
  | succ width ih =>
    rw [ofNat, toNat, ih, UInt8.toNat_ofNat', show 256 ^ (width + 1) = 256 * 256 ^ width by
      rw [Nat.pow_succ, Nat.mul_comm], Nat.mod_mul]

theorem ofNat_toNat (bs : Bytes) : ofNat bs.length (toNat bs) = bs := by
  induction bs with
  | nil => rfl
  | cons b bs ih =>
    have hb := b.toNat_lt
    have hdiv : (b.toNat + 256 * toNat bs) / 256 = toNat bs := by omega
    have hmod : UInt8.ofNat (b.toNat + 256 * toNat bs) = b := by
      apply UInt8.toNat_inj.1
      rw [UInt8.toNat_ofNat']
      omega
    simp only [toNat, List.length_cons, ofNat, hdiv, hmod, ih]

end MergedWork.Bytes

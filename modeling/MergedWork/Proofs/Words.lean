import Mathlib.Tactic.Common

/-!
# Masks

A mask says which bits of a word belong to a field. If these bits are replaced, then what is found
under the mask is what was written there, and what is found under any mask that has no bit in common
with it is what was there before (`replace_and_mask`, `replace_and_of_and_eq_zero`).
-/

namespace MergedWork.Words

variable {mask m : UInt32}

theorem or_and_distrib (a b m : UInt32) : (a ||| b) &&& m = (a &&& m) ||| (b &&& m) := by
  rw [← UInt32.toBitVec_inj]
  ext i
  simp [Bool.and_or_distrib_right]

theorem not_and_of_and_eq_zero (h : m &&& mask = 0) : ~~~mask &&& m = m := by
  have hbits := congrArg UInt32.toBitVec h
  rw [← UInt32.toBitVec_inj]
  ext i hi
  have hbit := congrArg (fun bits : BitVec 32 => bits[i]) hbits
  simp at hbit ⊢
  exact hbit

/-- The word in which the bits of the mask are those of another word. -/
def replace (w mask bits : UInt32) : UInt32 := (w &&& ~~~mask) ||| (bits &&& mask)

theorem replace_and_mask (w mask bits : UInt32) : replace w mask bits &&& mask = bits &&& mask := by
  rw [replace, or_and_distrib, UInt32.and_assoc, UInt32.not_and_self, UInt32.and_zero,
    UInt32.zero_or, UInt32.and_assoc, UInt32.and_self]

theorem replace_and_of_and_eq_zero (h : m &&& mask = 0) (w bits : UInt32) :
    replace w mask bits &&& m = w &&& m := by
  rw [replace, or_and_distrib, UInt32.and_assoc, not_and_of_and_eq_zero h, UInt32.and_assoc,
    UInt32.and_comm mask, h, UInt32.and_zero, UInt32.or_zero]

/-- To set bits is to replace them by ones. -/
theorem or_eq_replace (w mask : UInt32) : w ||| mask = replace w mask mask := by
  rw [replace, UInt32.and_self, ← UInt32.toBitVec_inj]
  ext i
  simp only [UInt32.toBitVec_or, UInt32.toBitVec_and, UInt32.toBitVec_not, BitVec.getElem_or,
    BitVec.getElem_and, BitVec.getElem_not]
  cases w.toBitVec[i] <;> cases mask.toBitVec[i] <;> rfl

/-- To clear bits is to replace them by zeros. -/
theorem and_not_eq_replace (w mask : UInt32) : w &&& ~~~mask = replace w mask 0 := by
  rw [replace, UInt32.zero_and, UInt32.or_zero]

end MergedWork.Words

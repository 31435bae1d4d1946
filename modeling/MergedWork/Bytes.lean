/-!
# Byte strings

Byte strings are lists, so that a decoder is a recursion on its input. An integer of fixed width
is written least significant byte first, by `Bytes.ofNat`, and read back by `Bytes.toNat`.
-/

namespace MergedWork

/-- A byte string. -/
abbrev Bytes := List UInt8

namespace Bytes

/-! ## Integers -/

/-- The `width` low bytes of `n`, least significant first. -/
def ofNat : (width n : Nat) → Bytes
  | 0, _ => []
  | width + 1, n => UInt8.ofNat n :: ofNat width (n / 256)

/-- The number whose bytes, least significant first, are given. -/
def toNat : Bytes → Nat
  | [] => 0
  | b :: bs => b.toNat + 256 * toNat bs

@[simp] theorem length_ofNat (width n : Nat) : (ofNat width n).length = width := by
  induction width generalizing n with
  | zero => rfl
  | succ width ih => simp [ofNat, ih]

/-! ## Searching and cutting -/

/-- Whether `bs` holds at least `n` bytes, looking at no more than `n` of them. -/
def hasAtLeast : (bs : Bytes) → (n : Nat) → Bool
  | _, 0 => true
  | [], _ + 1 => false
  | _ :: bs, n + 1 => hasAtLeast bs n

theorem hasAtLeast_iff (bs : Bytes) (n : Nat) : hasAtLeast bs n ↔ n ≤ bs.length := by
  induction n generalizing bs with
  | zero => simp [hasAtLeast]
  | succ n ih => cases bs <;> simp [hasAtLeast, ih]

/-- The offset at which `needle` first occurs in a byte string. -/
def find? (needle : Bytes) : Bytes → Option Nat
  | [] => if needle.isEmpty then some 0 else none
  | b :: bs => if needle.isPrefixOf (b :: bs) then some 0 else (find? needle bs).map (· + 1)

/-- The first `count` pieces of `size` bytes each. -/
def pieces (size : Nat) : (count : Nat) → Bytes → List Bytes
  | 0, _ => []
  | count + 1, bs => bs.take size :: pieces size count (bs.drop size)

end Bytes

end MergedWork

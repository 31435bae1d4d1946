import MergedWork.Algorithm

/-!
# Targets and work

A header states its target as a compact word: a size byte, a sign bit and a mantissa of 23 bits,
which stand for the mantissa shifted by `size - 3` bytes. A word counts as a target if it is positive and
the number fits in 256 bits. Work is the expected number of hashes, weighted by the algorithm.
-/

namespace MergedWork

/-- The largest number of 256 bits. -/
def maxWord : Nat := (1 <<< 256) - 1

/-- The sum of two works, which stays within 256 bits. -/
def addWork (a b : Nat) : Nat := min maxWord (a + b)

/-- The compact form of a target. -/
structure Compact where
  word : UInt32
  deriving DecidableEq, Repr

instance : Inhabited Compact := ⟨⟨0⟩⟩

namespace Compact

/-! ## Reading a word -/

/-- The length in bytes of the number that the word stands for. -/
def size (c : Compact) : Nat := c.word.toNat >>> 24

/-- The digits that the word keeps of its number. -/
def mantissa (c : Compact) : Nat := c.word.toNat % 0x800000

/-- Whether the sign bit is set on a nonzero mantissa. -/
def isNegative (c : Compact) : Bool := c.mantissa ≠ 0 && c.word.toNat.testBit 23

/-- Whether the number has more than 256 bits. -/
def isOverflow (c : Compact) : Bool :=
  c.mantissa ≠ 0 &&
    (c.size > 34 || (c.mantissa > 0xff && c.size > 33) || (c.mantissa > 0xffff && c.size > 32))

/-- The number that the word stands for, without its sign; zero if it does not fit. -/
def value (c : Compact) : Nat :=
  if c.isOverflow then 0
  else if c.size ≤ 3 then c.mantissa >>> (8 * (3 - c.size))
  else c.mantissa <<< (8 * (c.size - 3))

/-- Whether the word can serve as a target: positive, and within 256 bits. -/
def isValid (c : Compact) : Bool := !c.isNegative && !c.isOverflow && c.value ≠ 0

/-- The target, if the word can serve as one. -/
def target? (c : Compact) : Option Nat := if c.isValid then some c.value else none

/-! ## Writing a word -/

/-- The number of bytes that a number takes. -/
def byteLength (n : Nat) : Nat := if n = 0 then 0 else Nat.log2 n / 8 + 1

/-- The word of the given size and mantissa. -/
def pack (size mantissa : Nat) : Compact := ⟨UInt32.ofNat (size <<< 24 + mantissa)⟩

/-- The word for a number of 256 bits, of which it keeps the three highest bytes, or two of them
where the highest bit would be taken for the sign. -/
def ofTarget (n : Nat) : Compact :=
  let size := byteLength n
  let mantissa := if size ≤ 3 then n <<< (8 * (3 - size)) else n >>> (8 * (size - 3))
  if mantissa < 0x800000 then pack size mantissa else pack (size + 1) (mantissa / 256)

/-! ## Work -/

/-- The work of a block whose hash had to meet the target, for an algorithm of the given weight.
A word that is no target gives no work. -/
def work (c : Compact) (weight : Nat) : Nat :=
  match c.target? with
  | none => 0
  | some target =>
    if weight = 0 then 0 else min maxWord ((1 <<< 256) / (target / weight + 1))

end Compact

end MergedWork

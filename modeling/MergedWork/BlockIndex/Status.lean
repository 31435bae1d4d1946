/-!
# The status of a block

How far a block is validated, whether its data are stored, and whether it or a block before it has
failed, in one word.
-/

namespace MergedWork

/-- Bits 0 to 2 hold the level of validation; each further bit is a flag. -/
structure Status where
  word : UInt32
  deriving DecidableEq, Repr

namespace Status

/-- Nothing is known of the block. -/
def unknown : Status := ⟨0⟩

/-! ## Levels -/

/-- The bits that hold the level. -/
def levelMask : UInt32 := 7

/-- The block before it is known. -/
def validTree : UInt32 := 2

/-- The transactions are known. -/
def validTransactions : UInt32 := 3

/-! ## Flags -/

/-- The block is stored. -/
def haveData : UInt32 := 8

/-- The data that undo the block are stored. -/
def haveUndo : UInt32 := 16

/-- The block itself has failed. -/
def failedValid : UInt32 := 32

/-- A block before it has failed. -/
def failedChild : UInt32 := 64

/-- Both flags of failure. -/
def failedMask : UInt32 := 96

/-! ## Operations -/

/-- The level that the block has reached. -/
def level (s : Status) : UInt32 := s.word &&& levelMask

/-- Whether any of the given bits is set. -/
def has (s : Status) (flags : UInt32) : Bool := s.word &&& flags ≠ 0

/-- Whether the block or one before it has failed. -/
def isFailed (s : Status) : Bool := s.has failedMask

/-- Whether the block has reached a level and has not failed. -/
def isValid (s : Status) (level : UInt32) : Bool := !s.isFailed && level ≤ s.level

/-- Sets the given bits. -/
def set (s : Status) (flags : UInt32) : Status := ⟨s.word ||| flags⟩

/-- Whether a block can be raised to a level: it has not failed, and its level is lower. -/
def canRaise (s : Status) (level : UInt32) : Bool := !s.isFailed && s.level < level

/-- Raises the level if that can be done. Of the new level, three bits are kept. -/
def raise (s : Status) (level : UInt32) : Status :=
  if s.canRaise level then ⟨(s.word &&& ~~~levelMask) ||| (level &&& levelMask)⟩ else s

end Status

end MergedWork

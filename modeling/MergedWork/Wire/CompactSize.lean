import MergedWork.Wire.Reader

/-!
# Compact sizes

A size below `0xfd` is one byte; a larger one is a marker byte and a number of two, four or eight
bytes, whichever is the shortest. A size in a longer form than it needs is refused, so that each
size has one form. Byte strings and lists of digests are written behind their length.
-/

namespace MergedWork

namespace Wire

def word8 (w : UInt8) : Bytes := [w]

def word32 (w : UInt32) : Bytes := Bytes.ofNat 4 w.toNat

def word64 (w : UInt64) : Bytes := Bytes.ofNat 8 w.toNat

def int32 (i : Int32) : Bytes := word32 i.toUInt32

def int64 (i : Int64) : Bytes := word64 i.toUInt64

/-- The form of a size below `2 ^ 64`. -/
def compactSize (n : Nat) : Bytes :=
  if n < 0xfd then [UInt8.ofNat n]
  else if n ≤ 0xffff then 0xfd :: Bytes.ofNat 2 n
  else if n ≤ 0xffffffff then 0xfe :: Bytes.ofNat 4 n
  else 0xff :: Bytes.ofNat 8 n

/-- A byte string behind its length. -/
def varBytes (bs : Bytes) : Bytes := compactSize bs.length ++ bs

/-- A list behind its length, each member in its own form. -/
def counted {α : Type} (form : α → Bytes) (as : List α) : Bytes :=
  compactSize as.length ++ as.flatMap form

/-- Digests behind their number. -/
def digests (ds : List Digest) : Bytes := counted Digest.bytes ds

/-- The largest length that is accepted. -/
def maxLength : Nat := 0x2000000

end Wire

namespace Reader

/-- A number of `width` bytes that needs at least the given value to be written so long. -/
def wideSize (width least : Nat) : Reader Nat := do
  let n ← number width
  if n < least then fail .nonCanonicalSize else return n

/-- A compact size. -/
def compactSize : Reader Nat := do
  let marker ← number 1
  match marker with
  | 0xfd => wideSize 2 0xfd
  | 0xfe => wideSize 4 0x10000
  | 0xff => wideSize 8 0x100000000
  | n => return n

/-- A compact size that is used as a length. -/
def length : Reader Nat := do
  let n ← compactSize
  if Wire.maxLength < n then fail (.oversizedLength n) else return n

/-- A byte string behind its length. -/
def varBytes : Reader Bytes := do bytes (← length)

/-- A list behind its length. -/
def counted {α : Type} (r : Reader α) : Reader (List α) := do times r (← length)

/-- Digests behind their number. -/
def digests : Reader (List Digest) := counted digest

end Reader

end MergedWork

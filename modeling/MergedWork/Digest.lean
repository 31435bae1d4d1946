import MergedWork.Hex

/-!
# Digests

A digest is a string of 32 bytes. Its number is read least significant byte first, while its
text shows the bytes in the opposite order, so that the text is the number in base sixteen.
-/

namespace MergedWork

/-- A string of 32 bytes, the result of a hash function. -/
structure Digest where
  bytes : Bytes
  length_bytes : bytes.length = 32
  deriving DecidableEq

namespace Digest

theorem ext {a b : Digest} (h : a.bytes = b.bytes) : a = b := by
  cases a; cases b; cases h; rfl

/-- The digest with the given bytes, if there are 32 of them. -/
def ofBytes? (bs : Bytes) : Option Digest :=
  if h : bs.length = 32 then some ⟨bs, h⟩ else none

/-- The number that the bytes stand for. -/
def toNat (d : Digest) : Nat := Bytes.toNat d.bytes

/-- The digest of a number below `2 ^ 256`; of a larger number, only the low bits count. -/
def ofNat (n : Nat) : Digest := ⟨Bytes.ofNat 32 n, Bytes.length_ofNat 32 n⟩

/-- The digest that stands for no block: all bytes are zero. -/
def zero : Digest := ⟨List.replicate 32 0, by simp⟩

instance : Inhabited Digest := ⟨zero⟩

/-- The bytes in the order in which a text shows them. -/
def displayed (d : Digest) : Bytes := d.bytes.reverse

/-- The text of a digest. -/
def toHex (d : Digest) : String := Hex.encode d.displayed

/-- Removes one leading `0x`. -/
def dropMarker : Bytes → Bytes
  | 0x30 :: 0x78 :: rest => rest
  | text => text

/-- Reads the text of a digest, which may start with `0x`. -/
def ofHex (text : String) : Except HexError Digest := do
  let bs ← Hex.decode (dropMarker (Hex.utf8 text))
  match ofBytes? bs.reverse with
  | some d => .ok d
  | none => .error .invalidLength

end Digest

end MergedWork

import MergedWork.Bytes

/-!
# Data pushes

A script is built from pushes. Up to 75 bytes stand behind one byte that gives their number; more
bytes stand behind an opcode and their number in one, two or four bytes. An integer is pushed as
sign and magnitude, least significant byte first, with the sign in the highest bit of the last
byte.
-/

namespace MergedWork.Script

/-- The opcode that checks a signature. -/
def checkSignature : UInt8 := 0xac

/-- A push of the given bytes, fewer than `2 ^ 32` of them. -/
def pushBytes (data : Bytes) : Bytes :=
  let length := data.length
  if length ≤ 75 then UInt8.ofNat length :: data
  else if length ≤ 0xff then 0x4c :: Bytes.ofNat 1 length ++ data
  else if length ≤ 0xffff then 0x4d :: Bytes.ofNat 2 length ++ data
  else 0x4e :: Bytes.ofNat 4 length ++ data

/-- The bytes of a magnitude, without zero bytes at the high end. -/
def magnitude (n : Nat) : Bytes :=
  if n = 0 then [] else UInt8.ofNat n :: magnitude (n / 256)

/-- Marks the last byte with the sign, or adds a byte for it if the highest bit is in use. -/
def withSign (negative : Bool) : Bytes → Bytes
  | [] => []
  | [last] =>
    if 0x80 ≤ last then [last, if negative then 0x80 else 0]
    else [if negative then last ||| 0x80 else last]
  | b :: rest => b :: withSign negative rest

/-- The shortest form of an integer. -/
def integer (v : Int64) : Bytes := withSign (v < 0) (magnitude v.toInt.natAbs)

/-- A push of an integer. -/
def pushInteger (v : Int64) : Bytes := pushBytes (integer v)

end MergedWork.Script

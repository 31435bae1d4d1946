import MergedWork.Bytes
import MergedWork.Text.Quoted

/-!
# Hexadecimal text

Bytes are written with two lower-case digits each and read in either case. Reading works on the
bytes of the text: the number of digits is checked first, then the digits from the left, so
that of two faults the odd length is reported.
-/

namespace MergedWork

/-- Why a text is no hexadecimal form. -/
inductive HexError
  /-- The byte of the text at offset `index` is no digit. -/
  | invalidCharacter (byte : UInt8) (index : Nat)
  /-- The number of digits is odd. -/
  | oddLength
  /-- The digits give another number of bytes than was asked for. -/
  | invalidLength
  deriving DecidableEq, Repr

namespace HexError

/-- The character that a message shows for a byte. -/
def shown (byte : UInt8) : Char := Char.ofNat byte.toNat

/-- The text of the error. -/
def message : HexError → String
  | invalidCharacter byte index =>
    "Invalid character " ++ Text.quoted (shown byte) ++ " at position " ++ toString index
  | oddLength => "Odd number of digits"
  | invalidLength => "Invalid string length"

end HexError

namespace Hex

/-- The bytes of a text in UTF-8. -/
def utf8 (text : String) : Bytes := text.toUTF8.data.toList

/-- The value of a digit, given as the byte of its character. -/
def digit? (b : UInt8) : Option Nat :=
  if 0x30 ≤ b ∧ b ≤ 0x39 then some (b.toNat - 0x30)
  else if 0x61 ≤ b ∧ b ≤ 0x66 then some (b.toNat - 0x57)
  else if 0x41 ≤ b ∧ b ≤ 0x46 then some (b.toNat - 0x37)
  else none

/-- The value of the digit at offset `index`. -/
def digit (index : Nat) (b : UInt8) : Except HexError Nat :=
  match digit? b with
  | some d => .ok d
  | none => .error (.invalidCharacter b index)

/-- Reads digits in pairs, the first of them at offset `index` of the text. -/
def decodeFrom (index : Nat) : Bytes → Except HexError Bytes
  | [] => .ok []
  | [_] => .error .oddLength
  | high :: low :: rest => do
    let h ← digit index high
    let l ← digit (index + 1) low
    let bs ← decodeFrom (index + 2) rest
    return UInt8.ofNat (16 * h + l) :: bs

/-- The bytes that a text of digits, given by its own bytes, stands for. -/
def decode (text : Bytes) : Except HexError Bytes :=
  if text.length % 2 = 1 then .error .oddLength else decodeFrom 0 text

/-- The two digits of a byte. -/
def digits (b : UInt8) : List Char :=
  [Nat.digitChar (b.toNat / 16), Nat.digitChar (b.toNat % 16)]

/-- The digits of a byte string. -/
def encode (bs : Bytes) : String := String.ofList (bs.flatMap digits)

end Hex

end MergedWork

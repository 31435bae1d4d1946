/-!
# Quoted characters

The form in which a message shows a single character: in single quotes, with the quote, the
backslash and what cannot be printed escaped. Only characters below `U+0100` arise, since a
message shows a byte.
-/

namespace MergedWork.Text

/-- Whether a character below `U+0100` leaves a visible mark, or is the plain blank. The soft
hyphen and the blank that does not break are not counted as visible. -/
def isVisible (c : Char) : Bool :=
  let n := c.toNat
  (0x20 ≤ n && n < 0x7f) || (0xa0 < n && n ≠ 0xad)

/-- A character as it stands between quotes. -/
def escape (c : Char) : String :=
  match c.toNat with
  | 0x00 => "\\0"
  | 0x09 => "\\t"
  | 0x0a => "\\n"
  | 0x0d => "\\r"
  | 0x27 => "\\'"
  | 0x5c => "\\\\"
  | n =>
    if isVisible c then c.toString
    else "\\u\x7b" ++ String.ofList (Nat.toDigits 16 n) ++ "\x7d"

/-- A character in single quotes. -/
def quoted (c : Char) : String := "'" ++ escape c ++ "'"

end MergedWork.Text

import MergedWork.Archive

/-!
# Failures

How a failed command shows its error: by the name of the cause, with what it carries.
-/

namespace MergedWork.CommandLine

/-- Fields in braces behind the name of what they belong to. -/
def withFields (name : String) (fields : List (String × String)) : String :=
  name ++ " \x7b " ++ ", ".intercalate (fields.map fun (f, v) => f ++ ": " ++ v) ++ " \x7d"

/-- A value in parentheses behind a name. -/
def withValue (name value : String) : String := name ++ "(" ++ value ++ ")"

/-- The name of a fault in hexadecimal text. -/
def hexName : HexError → String
  | .invalidCharacter .. => "InvalidHexCharacter"
  | .oddLength => "OddLength"
  | .invalidLength => "InvalidStringLength"

/-- The name of a fault in an encoding. -/
def decodeName : DecodeError → String
  | .unexpectedEnd .. => "UnexpectedEof"
  | .nonCanonicalSize => "NonCanonicalSize"
  | .oversizedLength _ => "OversizedLength"
  | .trailingBytes _ => "TrailingBytes"
  | .hex _ => "Hex"

def hexFailure (e : HexError) : String :=
  match e with
  | .invalidCharacter byte index =>
    withFields (hexName e) [("c", Text.quoted (HexError.shown byte)), ("index", toString index)]
  | _ => hexName e

def decodeFailure (e : DecodeError) : String :=
  match e with
  | .unexpectedEnd needed remaining =>
    withFields (decodeName e) [("needed", toString needed), ("remaining", toString remaining)]
  | .oversizedLength length => withValue (decodeName e) (toString length)
  | .trailingBytes count => withValue (decodeName e) (toString count)
  | .hex cause => withValue (decodeName e) (hexFailure cause)
  | .nonCanonicalSize => decodeName e

/-- The name of an error of an archive stands before its text. -/
def archiveFailure (e : ArchiveError) : String :=
  match e with
  | .notStored predecessor hash =>
    withValue "Corrupt"
      ("\"predecessor " ++ predecessor.toHex ++ " of " ++ hash.toHex ++ " not stored\"")
  | .unplaced cause => cause.message

end MergedWork.CommandLine

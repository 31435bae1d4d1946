/-!
# JSON text

Values in the order in which they are given, written over several lines with two blanks for each
level.
-/

namespace MergedWork

inductive Json
  | bool (b : Bool)
  /-- A number, by its digits. -/
  | number (digits : String)
  /-- A text without characters that need an escape. -/
  | text (s : String)
  | array (members : List Json)
  | object (members : List (String × Json))

namespace Json

/-- A whole number. -/
def nat (n : Nat) : Json := number (toString n)

/-- A whole number. -/
def int (i : Int) : Json := number (toString i)

/-- The start of a line at a level. -/
def newline (level : Nat) : String := "\n" ++ String.ofList (List.replicate (2 * level) ' ')

/-- Members, one to a line, between two brackets. -/
def bracketed (opening closing : String) (level : Nat) (members : List String) : String :=
  if members.isEmpty then opening ++ closing
  else
    opening ++ newline (level + 1) ++ (("," ++ newline (level + 1)).intercalate members) ++
      newline level ++ closing

/-- A text in quotes. -/
def quoted (s : String) : String := "\"" ++ s ++ "\""

mutual

/-- The text of a value that stands at a level. -/
def render (level : Nat) : Json → String
  | bool true => "true"
  | bool false => "false"
  | number digits => digits
  | text s => quoted s
  | array members => bracketed "[" "]" level (renderAll (level + 1) members)
  | object members => bracketed "\x7b" "\x7d" level (renderMembers (level + 1) members)

/-- The texts of the members of an array. -/
def renderAll (level : Nat) : List Json → List String
  | [] => []
  | v :: rest => render level v :: renderAll level rest

/-- The texts of the members of an object. -/
def renderMembers (level : Nat) : List (String × Json) → List String
  | [] => []
  | (key, v) :: rest => (quoted key ++ ": " ++ render level v) :: renderMembers level rest

end

end Json

end MergedWork

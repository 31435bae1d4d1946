import MergedWork.Algorithm
import MergedWork.Network

/-!
# Arguments

The command line is `[-n NETWORK] COMMAND`, where the command may have an option and a word of its
own. An option is given at most once, by its letter or its name; its value is the next argument,
or follows in the same one, behind an equals sign or, after a letter, at once. After the argument
`--`, every argument is a word.
-/

namespace MergedWork.CommandLine

inductive Command
  /-- Print a summary of the first block. -/
  | genesis
  /-- Print the parameters. -/
  | params
  /-- Print the table of checkpoints. -/
  | checkpoints
  /-- Open the archive of a directory, and print the tip. -/
  | index (directory : String)
  /-- Print what a proof of a block mined with the algorithm holds. -/
  | decodeProof (algorithm : Algorithm) (hex : String)
  deriving DecidableEq, Repr

structure Request where
  network : Network
  command : Command
  deriving DecidableEq, Repr

/-! ## Single arguments -/

/-- What an argument is by its form. -/
inductive Token
  /-- The argument `--`. -/
  | escape
  /-- An option by its name. -/
  | named (name : String) (value : Option String)
  /-- An option by its letter. -/
  | lettered (letter : Char) (value : Option String)
  | word
  deriving DecidableEq, Repr

/-- What follows the first equals sign, if there is one, and what stands before it. -/
def splitAtEquals (cs : List Char) : List Char × Option String :=
  match cs.dropWhile (· ≠ '=') with
  | [] => (cs, none)
  | _ :: value => (cs.takeWhile (· ≠ '='), some (String.ofList value))

def Token.ofString (argument : String) : Token :=
  match argument.toList with
  | ['-', '-'] => escape
  | '-' :: '-' :: rest =>
    let (name, value) := splitAtEquals rest
    named (String.ofList name) value
  | ['-', letter] => lettered letter none
  | '-' :: letter :: '=' :: value => lettered letter (some (String.ofList value))
  | '-' :: letter :: value => lettered letter (some (String.ofList value))
  | _ => word

/-- The name of an option, and its letter, which is the first of the name. -/
structure OptionName where
  letter : Char
  name : String

/-- Whether an argument is the given option, and if so, the value in it. -/
def Token.value? (token : Token) (o : OptionName) : Option (Option String) :=
  match token with
  | named name value => if name = o.name then some value else none
  | lettered letter value => if letter = o.letter then some value else none
  | _ => none

/-! ## Lists of arguments -/

/-- The values of the option up to the first word, and the arguments from that word on. If a value
is `pending`, it is the next argument, which has to be a word by its form. -/
def takeOption (o : OptionName) : (pending : Bool) → List String →
    Option (List String × List String)
  | false, [] => some ([], [])
  | true, [] => none
  | false, argument :: rest =>
    match Token.ofString argument with
    | .word => some ([], argument :: rest)
    | .escape => some ([], argument :: rest)
    | token =>
      match token.value? o with
      | none => none
      | some none => takeOption o true rest
      | some (some v) => (takeOption o false rest).map fun (values, others) => (v :: values, others)
  | true, v :: rest =>
    if Token.ofString v = .word then
      (takeOption o false rest).map fun (values, others) => (v :: values, others)
    else none

/-- The value of an option that is given at most once. -/
def atMostOne : List String → Option (Option String)
  | [] => some none
  | [v] => some (some v)
  | _ => none

/-- Whether nothing but `--` is left. -/
def isDone (arguments : List String) : Bool := arguments = [] || arguments = ["--"]

/-- The values of the option of a command without words. -/
def onlyOption (o : OptionName) (arguments : List String) : Option (List String) := do
  let (values, others) ← takeOption o false arguments
  if isDone others then return values else none

/-- The values of the option and the word of a command with one word. -/
def optionAndWord (o : OptionName) (arguments : List String) : Option (List String × String) := do
  let (values, others) ← takeOption o false arguments
  match others with
  | ["--", word] => return (values, word)
  | [] => none
  | "--" :: _ => none
  | word :: rest => return (values ++ (← onlyOption o rest), word)

/-! ## Requests -/

/-- The command of the given name, with the arguments that follow it. -/
def Command.parse (name : String) (arguments : List String) : Option Command :=
  match name with
  | "genesis" => if isDone arguments then some genesis else none
  | "params" => if isDone arguments then some params else none
  | "checkpoints" => if isDone arguments then some checkpoints else none
  | "index" => do
    let directory ← (← atMostOne (← onlyOption ⟨'d', "data-dir"⟩ arguments))
    if directory = "" then none else return index directory
  | "decode-auxpow" => do
    let (values, hex) ← optionAndWord ⟨'a', "algo"⟩ arguments
    let algorithm ← (Algorithm.ofName ((← atMostOne values).getD "sha256d")).toOption
    return decodeProof algorithm hex
  | _ => none

/-- The request that the arguments stand for. -/
def Request.parse (arguments : List String) : Option Request := do
  let (values, others) ← takeOption ⟨'n', "network"⟩ false arguments
  let network ← Network.ofName? ((← atMostOne values).getD "main")
  match others with
  | [] => none
  | name :: rest => return ⟨network, ← Command.parse name rest⟩

end MergedWork.CommandLine

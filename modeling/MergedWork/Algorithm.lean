/-!
# Proof-of-work algorithms

The chain accepts work under eight algorithms. Each has a tag of three bits, a name, and a weight
that makes the work of different algorithms comparable.
-/

namespace MergedWork

/-- The algorithms in the order of their tags. -/
inductive Algorithm
  | scrypt
  | sha256d
  | yescrypt
  | argon2
  | x17
  | lyra2rev2
  | equihash
  | cryptonight
  deriving DecidableEq, Repr

/-- No algorithm has this name. -/
structure UnknownAlgorithm where
  name : String
  deriving DecidableEq, Repr

/-- The text of the error. -/
def UnknownAlgorithm.message (e : UnknownAlgorithm) : String := "unknown algorithm: " ++ e.name

namespace Algorithm

/-- All algorithms in the order of their tags. -/
def all : List Algorithm :=
  [scrypt, sha256d, yescrypt, argon2, x17, lyra2rev2, equihash, cryptonight]

/-- The tag that stands for the algorithm in a version word. -/
def tag : Algorithm → Nat
  | scrypt => 0
  | sha256d => 1
  | yescrypt => 2
  | argon2 => 3
  | x17 => 4
  | lyra2rev2 => 5
  | equihash => 6
  | cryptonight => 7

/-- The algorithm with the given tag, of which only the three low bits count. -/
def ofTag (n : Nat) : Algorithm :=
  match n % 8 with
  | 0 => scrypt
  | 1 => sha256d
  | 2 => yescrypt
  | 3 => argon2
  | 4 => x17
  | 5 => lyra2rev2
  | 6 => equihash
  | _ => cryptonight

@[simp] theorem ofTag_tag (a : Algorithm) : ofTag a.tag = a := by cases a <;> rfl

/-- How much one hash counts, in hashes of SHA-256d. -/
def weight : Algorithm → Nat
  | sha256d => 1
  | argon2 => 4000000
  | equihash => 8000000
  | cryptonight => 8000000
  | yescrypt => 800000
  | scrypt => 8000
  | x17 => 8000
  | lyra2rev2 => 8000

/-- The name of the algorithm. -/
def name : Algorithm → String
  | scrypt => "scrypt"
  | sha256d => "sha256d"
  | yescrypt => "yescrypt"
  | argon2 => "argon2"
  | x17 => "x17"
  | lyra2rev2 => "lyra2rev2"
  | equihash => "equihash"
  | cryptonight => "cryptonight"

/-- The algorithm of the given name, in which the case of letters does not matter. -/
def ofName (text : String) : Except UnknownAlgorithm Algorithm :=
  match all.find? fun a => a.name = text.toLower with
  | some a => .ok a
  | none => .error ⟨text⟩

end Algorithm

end MergedWork

import MergedWork.Digest

/-!
# Reading from a byte string

A reader takes bytes from the front of its input and says what it found, or what is wrong. The
bytes it did not take are its result too, also after an error, so that reading can go on from
there. A read of fixed size that finds too few bytes takes none.
-/

namespace MergedWork

/-- Why bytes are no encoding. -/
inductive DecodeError
  /-- A read of `needed` bytes found fewer. -/
  | unexpectedEnd (needed remaining : Nat)
  /-- A size is written longer than it has to be. -/
  | nonCanonicalSize
  /-- A length is beyond the largest that is accepted. -/
  | oversizedLength (length : Nat)
  /-- Bytes are left over behind the object. -/
  | trailingBytes (count : Nat)
  /-- The text that was to give the bytes is no hexadecimal form. -/
  | hex (cause : HexError)
  deriving DecidableEq, Repr

/-- The text of the error. -/
def DecodeError.message : DecodeError → String
  | unexpectedEnd needed remaining =>
    "unexpected end of data: needed " ++ toString needed ++ " bytes, " ++ toString remaining ++
      " remaining"
  | nonCanonicalSize => "non-canonical compact size"
  | oversizedLength length => "length " ++ toString length ++ " exceeds maximum"
  | trailingBytes count => toString count ++ " trailing bytes after object"
  | hex cause => "invalid hex: " ++ cause.message

/-- Takes bytes from the front of the input. The second component is the rest. -/
def Reader (α : Type) : Type := Bytes → Except DecodeError α × Bytes

namespace Reader

variable {α β : Type}

/-- The result and the rest, for the given input. -/
def run (r : Reader α) (input : Bytes) : Except DecodeError α × Bytes := r input

/-- Stops with an error and takes nothing. -/
def fail (e : DecodeError) : Reader α := fun rest => (.error e, rest)

instance : Monad Reader where
  pure a := fun rest => (.ok a, rest)
  bind r f := fun rest =>
    match r rest with
    | (.ok a, rest) => f a rest
    | (.error e, rest) => (.error e, rest)

@[simp] theorem run_pure (a : α) (input : Bytes) : (pure a : Reader α).run input = (.ok a, input) :=
  rfl

@[simp] theorem run_fail (e : DecodeError) (input : Bytes) :
    (fail e : Reader α).run input = (.error e, input) :=
  rfl

theorem run_bind (r : Reader α) (f : α → Reader β) (input : Bytes) :
    (r >>= f).run input =
      match r.run input with
      | (.ok a, rest) => (f a).run rest
      | (.error e, rest) => (.error e, rest) :=
  rfl

/-- The first `n` bytes. -/
def bytes (n : Nat) : Reader Bytes := fun rest =>
  if Bytes.hasAtLeast rest n then (.ok (rest.take n), rest.drop n)
  else (.error (.unexpectedEnd n rest.length), rest)

/-- The results of `count` reads one after the other. -/
def times (r : Reader α) : (count : Nat) → Reader (List α)
  | 0 => pure []
  | count + 1 => do
    let a ← r
    let as ← times r count
    return a :: as

/-- The result of a reader that has to take the whole input. -/
def all (r : Reader α) (input : Bytes) : Except DecodeError α :=
  match r.run input with
  | (.error e, _) => .error e
  | (.ok a, []) => .ok a
  | (.ok _, rest) => .error (.trailingBytes rest.length)

/-! ## Integers and digests -/

/-- A number of `width` bytes. -/
def number (width : Nat) : Reader Nat := do
  let bs ← bytes width
  return Bytes.toNat bs

def word8 : Reader UInt8 := do return UInt8.ofNat (← number 1)

def word16 : Reader UInt16 := do return UInt16.ofNat (← number 2)

def word32 : Reader UInt32 := do return UInt32.ofNat (← number 4)

def word64 : Reader UInt64 := do return UInt64.ofNat (← number 8)

def int32 : Reader Int32 := do return (← word32).toInt32

def int64 : Reader Int64 := do return (← word64).toInt64

/-- The digest in the first 32 bytes. -/
def digest : Reader Digest := fun rest =>
  match Digest.ofBytes? (rest.take 32) with
  | some d => (.ok d, rest.drop 32)
  | none => (.error (.unexpectedEnd 32 rest.length), rest)

end Reader

end MergedWork

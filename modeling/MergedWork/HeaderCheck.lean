import MergedWork.MergeProof.Commitment
import MergedWork.Network.Params

/-!
# The proof of work of a header

Hash functions that are too costly to be part of the rules, and the verifier of Equihash
solutions, come from outside as an `Engine`. `Params.checkHeader` says whether a header carries
enough work, in its own hash or in that of the parent block in its proof, and lists what it asked
the engine.
-/

namespace MergedWork

/-- The hash functions and the verifier that the rules are given. -/
structure Engine where
  /-- The proof-of-work hash of a byte string under an algorithm. -/
  powHash : Algorithm → Bytes → Digest
  /-- Whether a solution of Equihash with parameters `n` and `k` fits an input. -/
  verify : (n k : UInt32) → (input solution : Bytes) → Bool

/-- What the engine was asked. -/
inductive Call
  | powHash (algorithm : Algorithm) (input : Bytes)
  | verify (n k : UInt32) (input solution : Bytes)
  deriving DecidableEq

/-- A computation that may ask the engine, with the calls in the order in which they were made. -/
structure Asked (α : Type) where
  calls : List Call
  value : α

namespace Asked

variable {α β : Type}

instance : Monad Asked where
  pure a := ⟨[], a⟩
  bind x f := ⟨x.calls ++ (f x.value).calls, (f x.value).value⟩

end Asked

namespace Engine

/-- Asks for a hash. -/
def askHash (e : Engine) (algorithm : Algorithm) (input : Bytes) : Asked Digest :=
  ⟨[.powHash algorithm input], e.powHash algorithm input⟩

/-- Asks whether a solution fits. -/
def askVerify (e : Engine) (n k : UInt32) (input solution : Bytes) : Asked Bool :=
  ⟨[.verify n k input solution], e.verify n k input solution⟩

/-- The hash that has to meet the target, of the bytes of a header. Under SHA-256d and Equihash it
is the hash that names the block. -/
def workHash (e : Engine) (algorithm : Algorithm) (input : Bytes) : Asked Digest :=
  match algorithm with
  | .sha256d => pure (MergedWork.sha256d input)
  | .equihash => pure (MergedWork.sha256d input)
  | _ => e.askHash algorithm input

end Engine

namespace Params

/-- The target is usable and no easier than the network allows, and the hash meets it. -/
def checkWork (p : Params) (hash : Digest) (bits : Compact) (algorithm : Algorithm) :
    Except Rejection Unit :=
  match bits.target? with
  | none => .error (.targetOutOfRange bits)
  | some target => do
    require (target ≤ p.powLimit algorithm) (.targetOutOfRange bits)
    require (hash.toNat ≤ target) (.hashExceedsTarget hash bits)

/-- The parent has an Equihash solution that the verifier accepts. -/
def checkSolution (p : Params) (e : Engine) (parent : Parent) : Asked (Except Rejection Unit) :=
  match parent with
  | .opaqueBytes _ => pure (.error .equihashSolutionInvalid)
  | .structured h =>
    match h.equihashInput?, h.nonce.solution? with
    | some input, some solution => do
      let valid ← e.askVerify p.equihashN p.equihashK input solution
      return require valid .equihashSolutionInvalid
    | _, _ => pure (.error .equihashSolutionInvalid)

/-- The work of a header without a proof is in its own hash. -/
def checkOwnWork (p : Params) (e : Engine) (h : Header) : Asked (Except Rejection Unit) := do
  let hash ← e.workHash h.algorithm h.bytes
  return p.checkWork hash h.bits h.algorithm

/-- The work of a header with a proof is in the hash of the parent, under the algorithm of the
header. -/
def checkParentWork (p : Params) (e : Engine) (h : Header) (parent : Parent) :
    Asked (Except Rejection Unit) := do
  let hash ← e.workHash h.algorithm parent.hashed
  let solution ← if h.algorithm = .equihash then p.checkSolution e parent else pure (.ok ())
  return do
    solution
    p.checkWork hash h.bits h.algorithm

/-- The version promises a proof exactly if there is one, names our chain if it has to, and the
proof commits to the header. -/
def checkProof (p : Params) (h : Header) (proof : Option MergeProof) : Except Rejection Unit := do
  let v := h.version
  require (!(3 < v.word && v.hasProof && p.strictChainId && v.chainId ≠ p.chainId))
    (.wrongChainId v.chainId p.chainId)
  match proof with
  | none => require (!v.hasProof) .missingProof
  | some proof => do
    require v.hasProof .unexpectedProof
    proof.check p.strictChainId h.hash v.chainId

/-- Checks the work of a header and the proof that comes with it. -/
def checkHeader (p : Params) (e : Engine) (h : Header) (proof : Option MergeProof) :
    Asked (Except Rejection Unit) :=
  match p.checkProof h proof with
  | .error rejection => pure (.error rejection)
  | .ok () =>
    match proof with
    | none => p.checkOwnWork e h
    | some proof => p.checkParentWork e h proof.parent

end Params

end MergedWork

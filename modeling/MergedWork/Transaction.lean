import MergedWork.Wire.CompactSize
import MergedWork.Digest.Sha256

/-!
# Transactions

What block headers and merge-mining proofs need of transactions: the byte form that is hashed,
and coinbase transactions, which spend the null outpoint.
-/

namespace MergedWork

/-- A reference to an output of an earlier transaction. -/
structure OutPoint where
  hash : Digest
  index : UInt32
  deriving DecidableEq

/-- An input: the output that it spends, and the script that permits this. -/
structure TxIn where
  previous : OutPoint
  script : Bytes
  sequence : UInt32
  deriving DecidableEq

/-- An output: an amount in base units, and the script that guards it. -/
structure TxOut where
  value : Int64
  script : Bytes
  deriving DecidableEq

structure Transaction where
  version : UInt32
  inputs : List TxIn
  outputs : List TxOut
  lockTime : UInt32
  deriving DecidableEq

/-! ## Coinbases -/

namespace OutPoint

/-- The outpoint that a coinbase spends. -/
def null : OutPoint := ⟨.zero, 0xffffffff⟩

/-- Whether this is the outpoint that a coinbase spends. -/
def isNull (o : OutPoint) : Bool := o = null

end OutPoint

namespace Transaction

/-- The coinbase with the given input script and outputs. -/
def coinbase (script : Bytes) (outputs : List TxOut) : Transaction where
  version := 1
  inputs := [⟨.null, script, 0xffffffff⟩]
  outputs := outputs
  lockTime := 0

/-- Whether the transaction has one input, which spends the null outpoint. -/
def isCoinbase (tx : Transaction) : Bool :=
  match tx.inputs with
  | [input] => input.previous.isNull
  | _ => false

/-- The sum of the amounts of all outputs. -/
def totalOutput (tx : Transaction) : Int := tx.outputs.foldl (fun total o => total + o.value.toInt) 0

end Transaction

/-! ## Byte form -/

/-- The byte form of an outpoint. -/
def OutPoint.bytes (o : OutPoint) : Bytes := o.hash.bytes ++ Wire.word32 o.index

/-- The byte form of an input. -/
def TxIn.bytes (i : TxIn) : Bytes :=
  i.previous.bytes ++ Wire.varBytes i.script ++ Wire.word32 i.sequence

/-- The byte form of an output. -/
def TxOut.bytes (o : TxOut) : Bytes := Wire.int64 o.value ++ Wire.varBytes o.script

namespace Transaction

/-- The byte form of a transaction. -/
def bytes (tx : Transaction) : Bytes :=
  Wire.word32 tx.version ++ Wire.counted TxIn.bytes tx.inputs ++
    Wire.counted TxOut.bytes tx.outputs ++ Wire.word32 tx.lockTime

/-- The hash that names the transaction. -/
def hash (tx : Transaction) : Digest := sha256d tx.bytes

end Transaction

namespace Reader

def outPoint : Reader OutPoint := do
  return { hash := ← digest, index := ← word32 }

def txIn : Reader TxIn := do
  return { previous := ← outPoint, script := ← varBytes, sequence := ← word32 }

def txOut : Reader TxOut := do
  return { value := ← int64, script := ← varBytes }

def transaction : Reader Transaction := do
  return {
    version := ← word32
    inputs := ← counted txIn
    outputs := ← counted txOut
    lockTime := ← word32 }

end Reader

end MergedWork

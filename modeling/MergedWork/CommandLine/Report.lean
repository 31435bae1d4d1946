import MergedWork.ChainState
import MergedWork.Decimal.Fixed
import MergedWork.Difficulty
import MergedWork.Json
import MergedWork.MergeProof.Layout

/-!
# Reports

The texts that the commands print. In JSON a digest is the array of its bytes, and a number of 256
bits is hexadecimal text.
-/

namespace MergedWork.CommandLine

/-! ## Parts -/

/-- A number in base sixteen, without zeros in front. -/
def hexNumber (n : Nat) : String := "0x" ++ String.ofList (Nat.toDigits 16 n)

/-- A difficulty has eight decimal places. -/
def difficultyText (bits : Compact) : String := Decimal.fixed 8 bits.difficulty

/-- A height, moved to the right in a column of eight characters. -/
def column (n : Nat) : String :=
  let digits := Nat.toDigits 10 n
  String.ofList (List.replicate (8 - digits.length) ' ' ++ digits)

/-- Lines with their ends. -/
def lines (ls : List String) : String := String.join (ls.map (· ++ "\n"))

def digestJson (d : Digest) : Json := .array (d.bytes.map fun b => .nat b.toNat)

def nonceJson : Nonce → Json
  | .compact nonce => .object [("Compact", .nat nonce.toNat)]
  | .equihash reserved nonce solution =>
    .object [("Equihash", .object [
      ("reserved", digestJson reserved),
      ("nonce", digestJson nonce),
      ("solution", .array (solution.map fun b => .nat b.toNat))])]

def headerJson (h : Header) : Json :=
  .object [
    ("version", .nat h.version.word.toNat),
    ("prev_hash", digestJson h.previous),
    ("merkle_root", digestJson h.merkleRoot),
    ("time", .nat h.time.toNat),
    ("bits", .nat h.bits.word.toNat),
    ("nonce", nonceJson h.nonce)]

/-- A table of checkpoints. The daily rate is a whole number, written with one place. -/
def checkpointsJson (t : CheckpointTable) : Json :=
  .object [
    ("checkpoints", .array (t.entries.map fun c =>
      .object [("height", .nat c.height), ("hash", digestJson c.hash)])),
    ("time_last_checkpoint", .int t.time),
    ("transactions_last_checkpoint", .nat t.transactions),
    ("transactions_per_day", .number (Decimal.fixed 1 t.perDay)),
    ("enabled", .bool t.enabled)]

def forkRuleJson (r : ForkRule) : Json :=
  .object [
    ("height", .nat r.height),
    ("min_version", .nat r.minVersion),
    ("required", .nat r.required),
    ("window", .nat r.window)]

/-! ## Reports of the commands -/

/-- The amount that the first block pays. -/
def genesisReward (n : Network) : Int :=
  n.genesis.transactions.foldl (fun total tx => total + tx.totalOutput) 0

/-- The summary of the first block. -/
def genesisReport (n : Network) : String :=
  let block := n.genesis
  let h := block.header
  let summary : Json := .object [
    ("network", .text n.name),
    ("hash", digestJson block.hash),
    ("merkle_root", digestJson h.merkleRoot),
    ("time", .nat h.time.toNat),
    ("bits", .nat h.bits.word.toNat),
    ("nonce", (h.nonce.compact?.map fun nonce => .nat nonce.toNat).getD (.number "null")),
    ("reward", .int (genesisReward n))]
  lines [summary.render 0, "difficulty: " ++ difficultyText h.bits]

/-- The parameters. -/
def paramsReport (p : Params) : String :=
  let parameters : Json := .object [
    ("network", .text p.network.name),
    ("genesis", headerJson p.genesis),
    ("genesis_hash", digestJson p.genesisHash),
    ("pow_limits", .array (Algorithm.all.map fun a => .text (hexNumber (p.powLimit a)))),
    ("strict_chain_id", .bool p.strictChainId),
    ("auxpow_chain_id", .nat p.chainId.toNat),
    ("equihash_n", .nat p.equihashN.toNat),
    ("equihash_k", .nat p.equihashK.toNat),
    ("checkpoints", checkpointsJson p.checkpoints),
    ("fork_rule", forkRuleJson p.forkRule)]
  lines [parameters.render 0]

/-- The table of checkpoints, and the height of the last. -/
def checkpointsReport (t : CheckpointTable) : String :=
  lines (t.entries.map (fun c => column c.height ++ "  " ++ c.hash.toHex) ++
    ["estimated blocks: " ++ toString t.lastHeight])

/-- The tip of a state; nothing if there is none. -/
def tipReport (s : ChainState) : String :=
  match s.tipNode? with
  | none => ""
  | some tip => lines [
      "height:     " ++ toString tip.height,
      "tip:        " ++ tip.hash.toHex,
      "chain work: " ++ hexNumber tip.chainWork,
      "algorithm:  " ++ tip.algorithm.name]

/-- What a proof holds. -/
def proofReport (p : MergeProof) : String :=
  lines ([
      "parent block:  " ++ p.parentHash.toHex,
      "parent hash:   " ++ p.parent.hash.toHex,
      "coinbase hash: " ++ p.coinbase.hash.toHex,
      "chain index:   " ++ toString p.chainIndex,
      "chain branch:  " ++ toString p.chainBranch.length ++ " levels"] ++
    match p.parent.header? with
    | none => []
    | some h => ["parent difficulty: " ++ difficultyText h.bits])

end MergedWork.CommandLine

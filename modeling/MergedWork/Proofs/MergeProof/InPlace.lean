import MergedWork.MergeProof.Layout
import MergedWork.Proofs.Wire.InPlace

/-!
# Any reads in any order

`Reader.Operation` lists what can be read: integers, sizes and lists, headers, transactions and
proofs. Each can be read in place, as it is read from the front of the input
(`Reader.Operation.tracks`). So the cursor stays within the bytes whatever is read one after the
other, also if reading goes on where an error stopped it, in the middle of an object
(`Cursor.inBounds_of_run`).
-/

namespace MergedWork

/-! ## Objects -/

namespace InPlace

def version : InPlace Version := do return ⟨← word32⟩

def compact : InPlace Compact := do return ⟨← word32⟩

/-- A header with a nonce of 32 bits. -/
def header : InPlace Header := do
  let version ← version
  let previous ← digest
  let merkleRoot ← digest
  let time ← word32
  let bits ← compact
  let nonce ← word32
  return { version, previous, merkleRoot, time, bits, nonce := .compact nonce }

/-- A header with an Equihash solution. -/
def equihashHeader : InPlace Header := do
  let version ← version
  let previous ← digest
  let merkleRoot ← digest
  let reserved ← digest
  let time ← word32
  let bits ← compact
  let nonce ← digest
  let solution ← varBytes
  return { version, previous, merkleRoot, time, bits, nonce := .equihash reserved nonce solution }

def outPoint : InPlace OutPoint := do
  return { hash := ← digest, index := ← word32 }

def txIn : InPlace TxIn := do
  return { previous := ← outPoint, script := ← varBytes, sequence := ← word32 }

def txOut : InPlace TxOut := do
  return { value := ← int64, script := ← varBytes }

def transaction : InPlace Transaction := do
  return {
    version := ← word32
    inputs := ← counted txIn
    outputs := ← counted txOut
    lockTime := ← word32 }

/-- A coinbase of the kind that the layout has. -/
def coinbase : Layout → InPlace Coinbase
  | .bitcoin => do return .structured (← transaction)
  | .equihash => do return .raw (← varBytes) .sha256d
  | .cryptonight => do return .raw (← varBytes) .cryptonight

/-- A parent of the kind that the layout has. -/
def parent : Layout → InPlace Parent
  | .bitcoin => do return .structured (← header)
  | .equihash => do return .structured (← equihashHeader)
  | .cryptonight => do return .opaqueBytes (← varBytes)

/-- The proof of a block mined with the algorithm. -/
def mergeProof (algorithm : Algorithm) : InPlace MergeProof := do
  let layout := Layout.ofAlgorithm algorithm
  return {
    coinbase := ← coinbase layout
    parentHash := ← digest
    merkleBranch := ← digests
    index := ← int32
    chainBranch := ← digests
    chainIndex := ← int32
    parent := ← parent layout }

theorem tracks_word32 : word32.Tracks Reader.word32 := takes_word32.tracks

theorem tracks_int32 : int32.Tracks Reader.int32 := takes_int32.tracks

theorem tracks_digest : digest.Tracks Reader.digest := takes_digest.tracks

theorem tracks_version : version.Tracks Reader.version := tracks_word32.map _

theorem tracks_compact : compact.Tracks Reader.compact := tracks_word32.map _

theorem tracks_header : header.Tracks Reader.header :=
  tracks_version.bind fun _ => tracks_digest.bind fun _ => tracks_digest.bind fun _ =>
    tracks_word32.bind fun _ => tracks_compact.bind fun _ => tracks_word32.map _

theorem tracks_equihashHeader : equihashHeader.Tracks Reader.equihashHeader :=
  tracks_version.bind fun _ => tracks_digest.bind fun _ => tracks_digest.bind fun _ =>
    tracks_digest.bind fun _ => tracks_word32.bind fun _ => tracks_compact.bind fun _ =>
      tracks_digest.bind fun _ => tracks_varBytes.map _

theorem tracks_txIn : txIn.Tracks Reader.txIn := by
  have houtPoint : outPoint.Tracks Reader.outPoint :=
    tracks_digest.bind fun _ => tracks_word32.map _
  exact houtPoint.bind fun _ => tracks_varBytes.bind fun _ => tracks_word32.map _

theorem tracks_txOut : txOut.Tracks Reader.txOut :=
  takes_int64.tracks.bind fun _ => tracks_varBytes.map _

theorem tracks_transaction : transaction.Tracks Reader.transaction :=
  tracks_word32.bind fun _ => tracks_txIn.counted.bind fun _ => tracks_txOut.counted.bind fun _ =>
    tracks_word32.map _

theorem tracks_coinbase (layout : Layout) : (coinbase layout).Tracks (Reader.coinbase layout) := by
  cases layout with
  | bitcoin => exact tracks_transaction.map _
  | equihash | cryptonight => exact tracks_varBytes.map _

theorem tracks_parent (layout : Layout) : (parent layout).Tracks (Reader.parent layout) := by
  cases layout with
  | bitcoin => exact tracks_header.map _
  | equihash => exact tracks_equihashHeader.map _
  | cryptonight => exact tracks_varBytes.map _

theorem tracks_mergeProof (algorithm : Algorithm) :
    (mergeProof algorithm).Tracks (Reader.mergeProof algorithm) :=
  (tracks_coinbase _).bind fun _ => tracks_digest.bind fun _ => tracks_digests.bind fun _ =>
    tracks_int32.bind fun _ => tracks_digests.bind fun _ => tracks_int32.bind fun _ =>
      (tracks_parent _).map _

end InPlace

/-! ## Operations -/

namespace Reader

/-- What can be read. -/
inductive Operation
  | bytes (n : Nat)
  | word8
  | word16
  | word32
  | word64
  | int32
  | int64
  | digest
  | compactSize
  | length
  | varBytes
  | digests
  | header
  | equihashHeader
  | transaction
  | mergeProof (algorithm : Algorithm)
  deriving DecidableEq, Repr

namespace Operation

/-- What the operation gives. -/
def Value : Operation → Type
  | bytes _ | varBytes => Bytes
  | word8 => UInt8
  | word16 => UInt16
  | word32 => UInt32
  | word64 => UInt64
  | int32 => Int32
  | int64 => Int64
  | digest => Digest
  | compactSize | length => Nat
  | digests => List Digest
  | header | equihashHeader => Header
  | transaction => Transaction
  | mergeProof _ => MergeProof

/-- The operation at the front of the input. -/
def reader : (o : Operation) → Reader o.Value
  | bytes n => Reader.bytes n
  | word8 => Reader.word8
  | word16 => Reader.word16
  | word32 => Reader.word32
  | word64 => Reader.word64
  | int32 => Reader.int32
  | int64 => Reader.int64
  | digest => Reader.digest
  | compactSize => Reader.compactSize
  | length => Reader.length
  | varBytes => Reader.varBytes
  | digests => Reader.digests
  | header => Reader.header
  | equihashHeader => Reader.equihashHeader
  | transaction => Reader.transaction
  | mergeProof algorithm => Reader.mergeProof algorithm

/-- The operation in place. -/
def inPlace : (o : Operation) → InPlace o.Value
  | bytes n => InPlace.bytes n
  | word8 => InPlace.word8
  | word16 => InPlace.word16
  | word32 => InPlace.word32
  | word64 => InPlace.word64
  | int32 => InPlace.int32
  | int64 => InPlace.int64
  | digest => InPlace.digest
  | compactSize => InPlace.compactSize
  | length => InPlace.length
  | varBytes => InPlace.varBytes
  | digests => InPlace.digests
  | header => InPlace.header
  | equihashHeader => InPlace.equihashHeader
  | transaction => InPlace.transaction
  | mergeProof algorithm => InPlace.mergeProof algorithm

/-- How many bytes the operation takes, if it takes them all at once. -/
def width? : Operation → Option Nat
  | bytes n => some n
  | word8 => some 1
  | word16 => some 2
  | word32 | int32 => some 4
  | word64 | int64 => some 8
  | digest => some 32
  | _ => none

theorem takes {o : Operation} {n : Nat} (h : o.width? = some n) :
    o.inPlace.Refines o.reader (Cursor.Takes n) := by
  cases o <;> cases h
  case bytes => exact InPlace.takes_bytes n
  case word8 => exact InPlace.takes_word8
  case word16 => exact InPlace.takes_word16
  case word32 => exact InPlace.takes_word32
  case word64 => exact InPlace.takes_word64
  case int32 => exact InPlace.takes_int32
  case int64 => exact InPlace.takes_int64
  case digest => exact InPlace.takes_digest

theorem tracks (o : Operation) : o.inPlace.Tracks o.reader := by
  cases o with
  | bytes n => exact (InPlace.takes_bytes n).tracks
  | word8 => exact InPlace.takes_word8.tracks
  | word16 => exact InPlace.takes_word16.tracks
  | word32 => exact InPlace.tracks_word32
  | word64 => exact InPlace.takes_word64.tracks
  | int32 => exact InPlace.tracks_int32
  | int64 => exact InPlace.takes_int64.tracks
  | digest => exact InPlace.tracks_digest
  | compactSize => exact InPlace.tracks_compactSize
  | length => exact InPlace.tracks_length
  | varBytes => exact InPlace.tracks_varBytes
  | digests => exact InPlace.tracks_digests
  | header => exact InPlace.tracks_header
  | equihashHeader => exact InPlace.tracks_equihashHeader
  | transaction => exact InPlace.tracks_transaction
  | mergeProof algorithm => exact InPlace.tracks_mergeProof algorithm

end Operation

/-- What is left of the input after operations in the given order, whatever each of them gives. -/
def after (input : Bytes) (ops : List Operation) : Bytes :=
  ops.foldl (fun rest o => (o.reader.run rest).2) input

end Reader

/-! ## Operations in any order -/

namespace Cursor

open Reader (Operation)

variable {c : Cursor}

/-- The cursor after operations in the given order, whatever each of them gives, if all accesses go
well. -/
def after (c : Cursor) (ops : List Operation) : Option Cursor :=
  ops.foldlM (fun c o => (o.inPlace.run c).map Prod.snd) c

/-- From within the bytes, any operations move the cursor forward to a place within the bytes, and
leave the bytes behind it that they leave of the input. -/
theorem InBounds.after (hc : c.InBounds) (ops : List Operation) :
    ∃ c', c.after ops = some c' ∧ Reader.after c.rest ops = c'.rest ∧ c'.data = c.data ∧
      c.pos ≤ c'.pos ∧ c'.InBounds := by
  induction ops generalizing c with
  | nil => exact ⟨c, rfl, rfl, rfl, Nat.le_refl _, hc⟩
  | cons o ops ih =>
    obtain ⟨result, c', hrun, hread, hmoves⟩ := o.tracks c hc
    obtain ⟨c'', hafter, hrest, hdata, hpos, hbounds⟩ := ih hmoves.inBounds
    refine ⟨c'', ?_, ?_, hdata.trans hmoves.data_eq, Nat.le_trans hmoves.pos_le hpos, hbounds⟩
    · rw [Cursor.after, List.foldlM_cons, hrun]
      exact hafter
    · rw [Reader.after, List.foldl_cons, hread]
      exact hrest

/-- After any operations on a byte string, with an error or without, the next one has a result, since
no access goes wrong, and it is the one that is found in what the operations before have left of the
input. The cursor moves forward, and not beyond the end, so that the bytes behind it can be counted. If
they end too early, the error tells how many there are, which is not enough. A read of fixed size moves
the cursor by this size, or not at all. -/
theorem inBounds_of_run (data : Bytes) (before : List Operation) (o : Operation) :
    ∃ c result c', (start data).after before = some c ∧ o.inPlace.run c = some (result, c') ∧
      Reader.after data before = c.rest ∧ o.reader.run c.rest = (result, c'.rest) ∧
      c.data = data ∧ c.Moves result c' ∧
      InPlace.remaining.run c' = some (.ok (data.length - c'.pos), c') ∧
      ∀ n ∈ o.width?, c.Takes n result c' := by
  have hstart : (start data).InBounds := Nat.zero_le _
  obtain ⟨c, hafter, hrest, rfl, -, hc⟩ := hstart.after before
  obtain ⟨result, c', hrun, hread, hmoves⟩ := o.tracks c hc
  refine ⟨c, result, c', hafter, hrun, hrest, hread, rfl, hmoves, ?_, fun n hn => ?_⟩
  · rw [InPlace.run_remaining hmoves.inBounds, hmoves.data_eq]
  · -- What is said of reads of fixed size is said of this step, since there is only one in place.
    obtain ⟨_, _, hrun', -, htakes⟩ := Operation.takes hn c hc
    rw [hrun, Option.some.injEq, Prod.mk.injEq] at hrun'
    obtain ⟨rfl, rfl⟩ := hrun'
    exact htakes

/-- A transaction that breaks off in the hash of its only input. -/
def brokenOff : Bytes := [1, 0, 0, 0, 1, 7, 7]

/-- The transaction is read up to the hash, and neither the hash nor a number of four bytes behind it
moves the cursor. A number of two bytes does. -/
theorem inBounds_of_run_brokenOff :
    (start brokenOff).after [.transaction, .word32] = some ⟨brokenOff, 5⟩ ∧
      Takes 4 ⟨brokenOff, 5⟩ (.error (.unexpectedEnd 4 2) : Except DecodeError UInt32)
        ⟨brokenOff, 5⟩ ∧
      Takes 2 ⟨brokenOff, 5⟩ (.ok (0x707 : UInt16)) ⟨brokenOff, 7⟩ := by
  refine ⟨rfl, ?_, ?_⟩
  · obtain ⟨c, result, c', hafter, hrun, -, -, -, -, -, htakes⟩ :=
      inBounds_of_run brokenOff [.transaction] .word32
    cases hafter
    cases hrun
    exact htakes 4 rfl
  · obtain ⟨c, result, c', hafter, hrun, -, -, -, -, -, htakes⟩ :=
      inBounds_of_run brokenOff [.transaction, .word32] .word16
    cases hafter
    cases hrun
    exact htakes 2 rfl

end Cursor

end MergedWork

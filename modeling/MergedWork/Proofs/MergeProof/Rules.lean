import MergedWork.MergeProof.Commitment
import MergedWork.Proofs.Bytes.Search
import MergedWork.Proofs.Rejection

/-!
# The rules of a commitment

`MergeProof.rules` states the rules that a proof has to meet, in order and without the search that
checks them: where the root and the marker stand in the script is said by `OccursAt`. The result
of `MergeProof.check` is the outcome of these rules. `checkRanged` is the same check with every
access to the script as one that can be out of range; it always has a result, and the same.
-/

namespace MergedWork

namespace MergeProof

open Bytes

/-! ## The rules -/

/-- The branch of the coinbase leads to the root of the parent's transactions, which an opaque
parent holds somewhere in its bytes. -/
def Included (p : MergeProof) : Prop :=
  match p.parent with
  | .structured header =>
    Merkle.foldBranch .sha256d p.coinbase.hash p.merkleBranch 0 = header.merkleRoot
  | .opaqueBytes bytes =>
    ∃ i, OccursAt (Merkle.foldBranch .keccak p.coinbase.hash p.merkleBranch 0).bytes bytes i

/-- The bytes of an opaque parent; none for another parent. -/
def opaqueParent (p : MergeProof) : Bytes := p.parent.opaqueBytes?.getD []

/-- The rules for the coinbase's place in the parent block. -/
def inclusionRules (p : MergeProof) : List Rule :=
  [⟨p.opaqueParent.length ≤ 1000, .parentHeaderTooLarge p.opaqueParent.length⟩,
   ⟨p.Included, .merkleRootMismatch⟩]

/-- The rules for a script in which the root first stands at the given offset. -/
def markerRules (script : Bytes) (offset : Nat) : List Rule :=
  [⟨∀ i j, OccursAt marker script i → OccursAt marker script j → i = j, .duplicateMarker⟩,
   ⟨∀ i, OccursAt marker script i → i + 4 = offset, .markerNotAdjacent⟩,
   ⟨(∀ i, ¬ OccursAt marker script i) → offset ≤ 20, .rootNotEarlyEnough offset⟩]

/-- The number of slots of the chain tree, as a script states it behind the root. -/
def statedSize (tail : Bytes) : Int32 := Int32.ofNat (Bytes.toNat (tail.take 4))

/-- The nonce for the slot, as a script states it behind the size. -/
def statedNonce (tail : Bytes) : UInt32 := UInt32.ofNat (Bytes.toNat ((tail.drop 4).take 4))

/-- The rules for what stands behind the root in the script. -/
def slotRules (p : MergeProof) (chainId : UInt32) (tail : Bytes) : List Rule :=
  let levels := p.chainBranch.length
  let slot := Slot.expected (statedNonce tail) chainId levels
  [⟨8 ≤ tail.length, .missingSizeAndNonce⟩,
   ⟨(statedSize tail).toInt = 2 ^ levels, .sizeMismatch (statedSize tail) (2 ^ levels)⟩,
   ⟨p.chainIndex.toInt = slot.toNat, .wrongSlotIndex p.chainIndex slot⟩]

/-- All rules for a proof, in the order in which they are tried. -/
noncomputable def rules (p : MergeProof) (strict : Bool) (block : Digest) (chainId : UInt32) :
    List Rule :=
  let script := p.coinbase.script
  let root := (p.chainRoot block).displayed
  let offset := firstOffset root script
  [⟨p.index = 0, .invalidProofIndex p.index⟩,
   ⟨¬ (strict = true ∧ p.parent.chainId? = some chainId), .chainIdCollision chainId⟩,
   ⟨p.chainBranch.length ≤ 30, .branchTooLong p.chainBranch.length⟩] ++
  p.inclusionRules ++
  [⟨p.coinbase.isRaw = true → script.length ≤ 1000, .scriptTooLarge script.length⟩,
   ⟨∃ i, OccursAt root script i, .rootNotInCoinbase⟩] ++
  markerRules script offset ++
  p.slotRules chainId (script.drop (offset + 32))

/-! ## The outcome of each part -/

theorem length_displayed (d : Digest) : d.displayed.length = 32 := by
  rw [Digest.displayed, List.length_reverse, d.length_bytes]

theorem checkInclusion_outcome (p : MergeProof) (hindex : p.index = 0) :
    Rule.Outcome p.inclusionRules p.checkInclusion := by
  have hzero : p.index.toInt = 0 := by rw [hindex]; rfl
  unfold checkInclusion inclusionRules opaqueParent Included
  rw [hzero]
  cases p.parent with
  | structured header =>
    refine .pass (Nat.zero_le _) (Rule.outcome_require ?_)
    exact decide_eq_true_iff
  | opaqueBytes bytes =>
    refine Rule.Outcome.require_bind decide_eq_true_iff fun _ => Rule.outcome_require ?_
    exact find?_isSome_iff

theorem checkMarker_outcome (script : Bytes) (offset : Nat) :
    Rule.Outcome (markerRules script offset) (checkMarker script offset) := by
  unfold checkMarker markerRules
  cases hfind : find? marker script with
  | none =>
    have hno := find?_eq_none_iff.1 hfind
    refine .pass (fun i _ hi _ => absurd hi (hno i)) (.pass (fun i hi => absurd hi (hno i)) ?_)
    refine Rule.outcome_require ?_
    rw [decide_eq_true_iff, forall_prop_of_true hno]
    exact Iff.rfl
  | some start =>
    have hfirst := find?_eq_some_iff.1 hfind
    have hle : start + 1 ≤ script.length := by
      have := hfirst.1.add_length_le
      have : marker.length = 4 := rfl
      omega
    refine Rule.Outcome.require_bind ?_ fun hunique => ?_
    · -- A second marker would have to start behind the first.
      rw [Option.isNone_iff_eq_none, find?_eq_none_iff]
      constructor
      · intro hnone
        have heq : ∀ i, OccursAt marker script i → i = start := by
          intro i hi
          by_contra hne
          have hlt : start < i := Nat.lt_of_le_of_ne
            (Nat.le_of_not_lt fun h => hfirst.2 i h hi) (Ne.symm hne)
          refine hnone (i - (start + 1)) ((occursAt_drop hle).2 ?_)
          rwa [Nat.add_sub_cancel' hlt]
        exact fun i j hi hj => (heq i hi).trans (heq j hj).symm
      · intro hunique i hi
        have := hunique _ _ hfirst.1 ((occursAt_drop hle).1 hi)
        omega
    · change Rule.Outcome ([_] ++ [_]) _
      refine (Rule.outcome_require ?_).append_pass ?_
      · rw [decide_eq_true_iff]
        exact ⟨fun h i hi => hunique i start hi hfirst.1 ▸ h, fun h => h start hfirst.1⟩
      · exact List.forall_mem_singleton.2 fun hno => absurd hfirst.1 (hno start)

theorem checkSlot_outcome (p : MergeProof) (chainId : UInt32) (tail : Bytes) :
    Rule.Outcome (p.slotRules chainId tail) (p.checkSlot chainId tail) := by
  unfold slotRules checkSlot
  simp only [Nat.one_shiftLeft, Int.natCast_pow]
  refine Rule.Outcome.require_bind decide_eq_true_iff fun _ => ?_
  refine Rule.Outcome.require_bind decide_eq_true_iff fun _ => ?_
  exact Rule.outcome_require decide_eq_true_iff

theorem check_outcome (p : MergeProof) (strict : Bool) (block : Digest) (chainId : UInt32) :
    Rule.Outcome (p.rules strict block chainId) (p.check strict block chainId) := by
  unfold rules check
  simp only [List.append_assoc]
  refine Rule.Outcome.require_bind decide_eq_true_iff fun hindex => ?_
  refine Rule.Outcome.require_bind ?_ fun _ => ?_
  · rw [Bool.not_eq_true', Bool.and_eq_false_iff, not_and_or, Bool.not_eq_true, beq_eq_false_iff_ne]
  refine Rule.Outcome.require_bind decide_eq_true_iff fun _ => ?_
  refine (p.checkInclusion_outcome hindex).bind fun _ => ?_
  refine Rule.Outcome.require_bind ?_ fun _ => ?_
  · rw [Bool.not_eq_true', Bool.and_eq_false_iff, decide_eq_false_iff_not, Nat.not_lt,
      imp_iff_not_or, Bool.not_eq_true]
    exact Iff.rfl
  cases hfind : find? (p.chainRoot block).displayed p.coinbase.script with
  | none => exact .reject fun ⟨i, hi⟩ => find?_eq_none_iff.1 hfind i hi
  | some offset =>
    have hfirst := find?_eq_some_iff.1 hfind
    obtain rfl : firstOffset _ _ = offset := (firstAt_firstOffset hfirst.1).unique hfirst
    exact .pass ⟨_, hfirst.1⟩
      ((checkMarker_outcome _ _).bind fun _ => p.checkSlot_outcome chainId _)

/-! ## Accesses out of range -/

/-- A check that has no result if it reads a byte string out of its range. -/
abbrev Ranged := ExceptT Rejection Option

/-- The bytes from an offset on, which may be at most the length. -/
def dropRanged (bs : Bytes) (offset : Nat) : Ranged Bytes :=
  ExceptT.lift (if offset ≤ bs.length then some (bs.drop offset) else none)

/-- The number in the four bytes from an offset on, each of which has to be there. -/
def wordRanged (bs : Bytes) (offset : Nat) : Ranged UInt32 := do
  let b₀ ← ExceptT.lift bs[offset]?
  let b₁ ← ExceptT.lift bs[offset + 1]?
  let b₂ ← ExceptT.lift bs[offset + 2]?
  let b₃ ← ExceptT.lift bs[offset + 3]?
  return UInt32.ofNat (Bytes.toNat [b₀, b₁, b₂, b₃])

/-- `checkMarker`, reading in range. -/
def checkMarkerRanged (script : Bytes) (offset : Nat) : Ranged Unit :=
  match find? marker script with
  | some start => do
    let behind ← dropRanged script (start + 1)
    require (find? marker behind).isNone .duplicateMarker
    require (start + marker.length = offset) .markerNotAdjacent
  | none => require (offset ≤ maxUnmarkedOffset) (.rootNotEarlyEnough offset)

/-- `checkSlot`, reading in range. -/
def checkSlotRanged (p : MergeProof) (chainId : UInt32) (tail : Bytes) : Ranged Unit := do
  let levels := p.chainBranch.length
  require (8 ≤ tail.length) .missingSizeAndNonce
  let size := (← wordRanged tail 0).toInt32
  let slots := 1 <<< levels
  require (size.toInt = slots) (.sizeMismatch size slots)
  let nonce ← wordRanged tail 4
  let slot := Slot.expected nonce chainId levels
  require (p.chainIndex.toInt = slot.toNat) (.wrongSlotIndex p.chainIndex slot)

/-- `check`, reading in range. -/
def checkRanged (p : MergeProof) (strict : Bool) (block : Digest) (chainId : UInt32) :
    Ranged Unit := do
  require (p.index = 0) (.invalidProofIndex p.index)
  require (!(strict && p.parent.chainId? == some chainId)) (.chainIdCollision chainId)
  require (p.chainBranch.length ≤ maxLevels) (.branchTooLong p.chainBranch.length)
  p.checkInclusion
  let script := p.coinbase.script
  require (!(p.coinbase.isRaw && maxOpaque < script.length)) (.scriptTooLarge script.length)
  match find? (p.chainRoot block).displayed script with
  | none => throw .rootNotInCoinbase
  | some offset =>
    checkMarkerRanged script offset
    let tail ← dropRanged script (offset + 32)
    p.checkSlotRanged chainId tail

/-- A check that reads in range is the given one. -/
theorem liftM_bind_eq {α : Type} {x : Except Rejection α} {k : α → Ranged Unit}
    {k' : α → Except Rejection Unit} (h : ∀ a, x = .ok a → k a = liftM (k' a)) :
    (liftM x >>= k : Ranged Unit) = liftM (x >>= k') := by
  cases x with
  | error e => rfl
  | ok a => exact h a rfl

theorem dropRanged_of_le {bs : Bytes} {offset : Nat} (h : offset ≤ bs.length) :
    dropRanged bs offset = pure (bs.drop offset) := by
  rw [dropRanged, if_pos h]
  rfl

theorem wordRanged_of_le {bs : Bytes} {offset : Nat} (h : offset + 4 ≤ bs.length) :
    wordRanged bs offset = pure (UInt32.ofNat (Bytes.toNat ((bs.drop offset).take 4))) := by
  have htake : (bs.drop offset).take 4 =
      [bs[offset], bs[offset + 1], bs[offset + 2], bs[offset + 3]] := by
    rw [List.drop_eq_getElem_cons (by omega), List.drop_eq_getElem_cons (by omega),
      List.drop_eq_getElem_cons (by omega), List.drop_eq_getElem_cons (by omega)]
    rfl
  rw [htake, wordRanged, List.getElem?_eq_getElem (by omega), List.getElem?_eq_getElem (by omega),
    List.getElem?_eq_getElem (by omega), List.getElem?_eq_getElem (by omega)]
  rfl

theorem checkMarkerRanged_eq (script : Bytes) (offset : Nat) :
    checkMarkerRanged script offset = liftM (checkMarker script offset) := by
  unfold checkMarkerRanged checkMarker
  cases hfind : find? marker script with
  | none => rfl
  | some start =>
    have hle := (find?_eq_some_iff.1 hfind).1.add_length_le
    have : marker.length = 4 := rfl
    simp only
    rw [dropRanged_of_le (by omega), pure_bind]
    exact liftM_bind_eq fun _ _ => rfl

theorem checkSlotRanged_eq (p : MergeProof) (chainId : UInt32) (tail : Bytes) :
    p.checkSlotRanged chainId tail = liftM (p.checkSlot chainId tail) := by
  refine liftM_bind_eq fun _ hlen => ?_
  have hlen : 8 ≤ tail.length := by simpa using hlen
  rw [wordRanged_of_le (by omega), pure_bind, List.drop_zero]
  refine liftM_bind_eq fun _ _ => ?_
  rw [wordRanged_of_le (by omega), pure_bind]

theorem checkRanged_eq (p : MergeProof) (strict : Bool) (block : Digest) (chainId : UInt32) :
    p.checkRanged strict block chainId = liftM (p.check strict block chainId) := by
  refine liftM_bind_eq fun _ _ => liftM_bind_eq fun _ _ => liftM_bind_eq fun _ _ =>
    liftM_bind_eq fun _ _ => liftM_bind_eq fun _ _ => ?_
  cases hfind : find? (p.chainRoot block).displayed p.coinbase.script with
  | none => rfl
  | some offset =>
    have hle := (find?_eq_some_iff.1 hfind).1.add_length_le
    rw [length_displayed] at hle
    simp only
    rw [checkMarkerRanged_eq]
    refine liftM_bind_eq fun _ _ => ?_
    rw [dropRanged_of_le hle, pure_bind, checkSlotRanged_eq]

/-! ## The whole check -/

/-- No access of the check is out of range, and its result is the outcome of the rules. -/
theorem check_exact (p : MergeProof) (strict : Bool) (block : Digest) (chainId : UInt32) :
    (p.checkRanged strict block chainId).run = some (p.check strict block chainId) ∧
      (p.check strict block chainId = .ok () ↔ ∀ r ∈ p.rules strict block chainId, r.Holds) ∧
      Rule.Outcome (p.rules strict block chainId) (p.check strict block chainId) := by
  have houtcome := p.check_outcome strict block chainId
  refine ⟨?_, houtcome.eq_ok_iff, houtcome⟩
  rw [checkRanged_eq]
  rfl

/-- A script with the root over two nodes of which the block is the second, the size of this tree
and the nonce zero. -/
def pairScript (block : Digest) : Bytes :=
  marker ++ (hashPair (.ofNat 7) block).displayed ++ Wire.word32 2 ++ Wire.word32 0

/-- A proof from a coinbase with such a script, in a parent block without further transactions. -/
def pairProof (coinbase : Coinbase) : MergeProof where
  coinbase := coinbase
  parentHash := .zero
  merkleBranch := []
  index := 0
  chainBranch := [.ofNat 7]
  chainIndex := 1
  parent := .structured
    { version := ⟨1⟩, merkleRoot := coinbase.hash, time := 0, bits := ⟨0⟩, nonce := .compact 0,
      previous := .zero }

/-- A proof of block 1 from a transaction with the script in the first of its two inputs. -/
def firstInputProof : MergeProof :=
  pairProof (.structured
    { version := 1
      inputs := [⟨.null, pairScript (.ofNat 1), 0xffffffff⟩, ⟨.null, [], 0xffffffff⟩]
      outputs := []
      lockTime := 0 })

/-- This proof meets all rules for block 1, and for block 2 the first rule it fails is that the
root stands in the script. -/
theorem check_exact_pair :
    (firstInputProof.checkRanged true (.ofNat 1) 0x5b).run = some (.ok ()) ∧
      (∀ r ∈ firstInputProof.rules true (.ofNat 1) 0x5b, r.Holds) ∧
      (firstInputProof.checkRanged true (.ofNat 2) 0x5b).run =
        some (.error .rootNotInCoinbase) ∧
      Rule.Outcome (firstInputProof.rules true (.ofNat 2) 0x5b) (.error .rootNotInCoinbase) := by
  have hok : firstInputProof.check true (.ofNat 1) 0x5b = .ok () := by decide +kernel
  have herror : firstInputProof.check true (.ofNat 2) 0x5b = .error .rootNotInCoinbase := by
    decide +kernel
  obtain ⟨hrun, hiff, -⟩ := check_exact firstInputProof true (.ofNat 1) 0x5b
  obtain ⟨hrun', -, houtcome⟩ := check_exact firstInputProof true (.ofNat 2) 0x5b
  rw [hok] at hrun
  rw [herror] at hrun' houtcome
  exact ⟨hrun, hiff.1 hok, hrun', houtcome⟩

end MergeProof

end MergedWork

import MergedWork.Proofs.Merkle.Climb
import MergedWork.Proofs.MergeProof.Rules

/-!
# One block for each chain

The script of a coinbase that holds the marker fixes the root of the chain tree, its size and the
nonce, and so the branch's length and the slot of each chain. Two proofs with this script and for
one chain then commit to the same block, or their two branches collide (`chain_block_unique`).
-/

namespace MergedWork

namespace MergeProof

open Bytes

variable {p q : MergeProof} {strict : Bool} {a b : Digest} {chainId : UInt32} {i : Nat}

/-- The pairs that are hashed on the way from a block to the root of the chain tree. -/
def chainSteps (p : MergeProof) (block : Digest) : List (Digest × Digest) :=
  Merkle.steps .sha256d p.chainBranch p.chainIndex.toInt block

/-- What the marker at an offset of the script says of an accepted proof: the root stands behind
it, and behind the root the size of a tree with the branch's levels, and the nonce that gives the
block's slot. -/
theorem marked_of_check (h : p.check strict a chainId = .ok ())
    (hi : OccursAt marker p.coinbase.script i) :
    OccursAt (p.chainRoot a).displayed p.coinbase.script (i + 4) ∧
      (statedSize (p.coinbase.script.drop (i + 4 + 32))).toInt = 2 ^ p.chainBranch.length ∧
      p.chainIndex.toInt = (Slot.expected (statedNonce (p.coinbase.script.drop (i + 4 + 32)))
        chainId p.chainBranch.length).toNat := by
  have hall := (p.check_outcome strict a chainId).eq_ok_iff.1 h
  simp only [rules, markerRules, slotRules, List.forall_mem_append, List.forall_mem_cons] at hall
  obtain ⟨⟨⟨-, -, ⟨j, hroot⟩, -⟩, -, hadjacent, -⟩, -, hsize, hslot, -⟩ := hall
  rw [hadjacent i hi]
  exact ⟨(firstAt_firstOffset hroot).1, hsize, hslot⟩

theorem displayed_injective {a b : Digest} (h : a.displayed = b.displayed) : a = b :=
  Digest.ext (List.reverse_injective h)

/-- Two accepted proofs whose coinbases have the same script with the marker in it give the chain
the same slot of a tree of the same height, and they commit to the same block along the same
branch, unless two different pairs on the two ways to the root have the same hash. -/
theorem chain_block_unique (hscript : p.coinbase.script = q.coinbase.script)
    (hmarker : ∃ i, OccursAt marker p.coinbase.script i)
    (hp : p.check strict a chainId = .ok ()) (hq : q.check strict b chainId = .ok ()) :
    p.chainBranch.length = q.chainBranch.length ∧ p.chainIndex = q.chainIndex ∧
      (a = b ∧ p.chainBranch = q.chainBranch ∨
        ∃ x ∈ p.chainSteps a, ∃ y ∈ q.chainSteps b, x ≠ y ∧
          hashPair x.1 x.2 = hashPair y.1 y.2) := by
  obtain ⟨i, hi⟩ := hmarker
  obtain ⟨hroot, hsize, hslot⟩ := marked_of_check hp hi
  obtain ⟨hroot', hsize', hslot'⟩ := marked_of_check hq (hscript ▸ hi)
  rw [← hscript] at hroot' hsize' hslot'
  have hlen : p.chainBranch.length = q.chainBranch.length := by
    have hpow : (2 : Int) ^ p.chainBranch.length = 2 ^ q.chainBranch.length := hsize ▸ hsize'
    exact Nat.pow_right_injective (le_refl 2) (by exact_mod_cast hpow)
  have hindex : p.chainIndex = q.chainIndex := by
    rw [← hlen] at hslot'
    exact Int32.toInt_inj.1 (hslot.trans hslot'.symm)
  have hdefined : p.chainIndex.toInt ≠ -1 := by
    rw [hslot]
    omega
  have hclimb : Merkle.climb .sha256d p.chainBranch p.chainIndex.toInt a =
      Merkle.climb .sha256d q.chainBranch p.chainIndex.toInt b := by
    have heq : p.chainRoot a = q.chainRoot b := by
      refine displayed_injective (hroot.needle_unique hroot' ?_)
      rw [length_displayed, length_displayed]
    rw [chainRoot, chainRoot, ← hindex] at heq
    rwa [Merkle.foldBranch_eq_climb hdefined, Merkle.foldBranch_eq_climb hdefined] at heq
  refine ⟨hlen, hindex, ?_⟩
  rw [chainSteps, chainSteps, ← hindex]
  exact Merkle.climb_eq_cases hlen hclimb

/-- A proof of block 1 from a transaction. -/
def transactionProof : MergeProof := pairProof (.structured (.coinbase (pairScript (.ofNat 1)) []))

/-- A proof of block 1 from the same script as bytes. -/
def rawProof : MergeProof := pairProof (.raw (pairScript (.ofNat 1)) .sha256d)

theorem chain_block_unique_pair :
    transactionProof.coinbase.script = rawProof.coinbase.script ∧
      OccursAt marker transactionProof.coinbase.script 0 ∧
      transactionProof.check true (.ofNat 1) 0x5b = .ok () ∧
      rawProof.check true (.ofNat 1) 0x5b = .ok () ∧
      transactionProof.chainBranch.length = rawProof.chainBranch.length ∧
      transactionProof.chainIndex = rawProof.chainIndex := by
  have hscript : transactionProof.coinbase.script = rawProof.coinbase.script := rfl
  have hmarker : OccursAt marker transactionProof.coinbase.script 0 :=
    occursAt_zero.2 (List.isPrefixOf_iff_prefix.1 (by decide +kernel))
  have hp : transactionProof.check true (.ofNat 1) 0x5b = .ok () := by decide +kernel
  have hq : rawProof.check true (.ofNat 1) 0x5b = .ok () := by decide +kernel
  obtain ⟨hlen, hindex, -⟩ := chain_block_unique hscript ⟨0, hmarker⟩ hp hq
  exact ⟨hscript, hmarker, hp, hq, hlen, hindex⟩

end MergeProof

end MergedWork

import MergedWork.Proofs.HeaderCheck

/-!
# Equihash solutions

A merge-mined Equihash block is accepted only if the verifier was asked about the solution of its
parent, whose hash carries the work, and accepted it (`equihash_work_solved`). The rule is one for
parents: a block without a proof is judged by its own hash alone, which under Equihash is that of
SHA-256d, and the verifier is not asked (`equihash_own_work_unsolved`).
-/

namespace MergedWork

namespace Params

variable {p : Params} {e : Engine} {h : Header} {parent : Parent} {proof : Option MergeProof}

/-- The only call asked whether the solution of the header fits its input of 140 bytes, under the
parameters of the network, and the answer was yes. -/
def VerifiedBy (p : Params) (e : Engine) (calls : List Call) (h : Header) : Prop :=
  ∃ input solution, h.equihashInput? = some input ∧ h.nonce.solution? = some solution ∧
    input.length = 140 ∧ calls = [.verify p.equihashN p.equihashK input solution] ∧
    e.verify p.equihashN p.equihashK input solution = true

/-! ## What is asked -/

/-- A parent that is solved has been looked at by the verifier, and by nothing else. -/
theorem Solved.verifiedBy (hsolved : p.Solved e parent) :
    ∃ h, parent = .structured h ∧ p.VerifiedBy e (p.checkSolution e parent).calls h := by
  obtain ⟨h, reserved, nonce, solution, rfl, hnonce, hlen, hverify⟩ := hsolved
  refine ⟨h, rfl, h.start reserved.bytes ++ nonce.bytes, solution, ?_, ?_, hlen, ?_, hverify⟩
  · rw [Header.equihashInput?, hnonce]
  · rw [hnonce, Nonce.solution?]
  · simp [checkSolution, Header.equihashInput?, hnonce, Nonce.solution?, Engine.askVerify]

theorem calls_checkOwnWork_of_equihash (halg : h.algorithm = .equihash) :
    (p.checkOwnWork e h).calls = [] := by
  rw [checkOwnWork, halg]
  rfl

theorem calls_checkParentWork_of_equihash (halg : h.algorithm = .equihash) :
    (p.checkParentWork e h parent).calls = (p.checkSolution e parent).calls := by
  simp [checkParentWork, halg, Engine.workHash]

/-! ## Accepted blocks -/

/-- An Equihash block that is accepted with a proof has a parent whose solution was verified and
whose hash meets the target. One that is accepted without a proof has a hash of its own that meets
the target, and nothing was verified. -/
theorem equihash_work_solved (halg : h.algorithm = .equihash)
    (hok : (p.checkHeader e h proof).value = .ok ()) :
    match proof with
    | some proof => ∃ parent, proof.parent = .structured parent ∧
        p.VerifiedBy e (p.checkHeader e h (some proof)).calls parent ∧
        p.Meets parent.hash h.bits .equihash
    | none => (p.checkHeader e h none).calls = [] ∧ p.Meets h.hash h.bits .equihash := by
  cases proof with
  | none =>
    obtain ⟨hflag, hmeets⟩ := checkHeader_eq_ok_iff.1 hok
    rw [halg] at hmeets
    exact ⟨by rw [checkHeader_none hflag, calls_checkOwnWork_of_equihash halg], hmeets⟩
  | some proof =>
    obtain ⟨hflag, hid, hcheck, hsolved, hmeets⟩ := checkHeader_eq_ok_iff.1 hok
    obtain ⟨parent, hparent, hverified⟩ := (hsolved halg).verifiedBy
    rw [halg, hparent] at hmeets
    refine ⟨parent, hparent, ?_, hmeets⟩
    rwa [checkHeader_some ⟨hflag, hid, hcheck⟩, calls_checkParentWork_of_equihash halg]

/-- An engine whose verifier gives the same answer to all questions. -/
def fixedVerifier (answer : Bool) : Engine where
  powHash _ _ := .zero
  verify _ _ _ _ := answer

/-- An Equihash block of the test network that is to be merge-mined. -/
def mergedChild : Header where
  version := ⟨0x5b0d04⟩
  previous := .zero
  merkleRoot := .zero
  time := 1
  bits := ⟨0x207fffff⟩
  nonce := .compact 0

/-- The coinbase of its parent, which names it as the only block of the chain tree. -/
def mergedCoinbase : Coinbase :=
  .raw (MergeProof.marker ++ mergedChild.hash.displayed ++ Wire.word32 1 ++ Wire.word32 0) .sha256d

/-- A proof with a parent that has a short solution. -/
def mergedProof : MergeProof where
  coinbase := mergedCoinbase
  parentHash := .zero
  merkleBranch := []
  index := 0
  chainBranch := []
  chainIndex := 0
  parent := .structured
    { version := ⟨4⟩, merkleRoot := mergedCoinbase.hash, time := 1, bits := ⟨0⟩, previous := .zero,
      nonce := .equihash .zero (.ofNat 1) [1] }

theorem equihash_work_solved_merged :
    mergedChild.algorithm = .equihash ∧
      (Network.regtest.params.checkHeader (fixedVerifier true) mergedChild mergedProof).value =
        .ok () ∧
      ∃ parent, mergedProof.parent = .structured parent ∧
        Network.regtest.params.VerifiedBy (fixedVerifier true)
          (Network.regtest.params.checkHeader (fixedVerifier true) mergedChild mergedProof).calls
          parent ∧
        Network.regtest.params.Meets parent.hash mergedChild.bits .equihash := by
  have halg : mergedChild.algorithm = .equihash := by decide
  have hok : (Network.regtest.params.checkHeader (fixedVerifier true) mergedChild
      mergedProof).value = .ok () := by
    decide +kernel
  exact ⟨halg, hok, equihash_work_solved halg hok⟩

/-- An Equihash header of the test network with a nonce of 32 bits, and so without a solution. -/
def unsolvedHeader : Header where
  version := ⟨0xc04⟩
  previous := .zero
  merkleRoot := .zero
  time := 1
  bits := ⟨0x207fffff⟩
  nonce := .compact 3

/-- Without a proof, an Equihash header is accepted that has no solution, under a verifier that
accepts none and is not asked. -/
theorem equihash_own_work_unsolved :
    unsolvedHeader.algorithm = .equihash ∧
      (Network.regtest.params.checkHeader (fixedVerifier false) unsolvedHeader none).value =
        .ok () ∧
      ∀ n k input solution, Call.verify n k input solution ∉
        (Network.regtest.params.checkHeader (fixedVerifier false) unsolvedHeader none).calls := by
  have hok : (Network.regtest.params.checkHeader (fixedVerifier false) unsolvedHeader none).value =
      .ok () := by
    decide +kernel
  have hcalls : (Network.regtest.params.checkHeader (fixedVerifier false) unsolvedHeader
      none).calls = [] := by
    decide +kernel
  refine ⟨by decide, hok, fun n k input solution hmem => ?_⟩
  rw [hcalls] at hmem
  cases hmem

end Params

end MergedWork

import MergedWork.HeaderCheck
import MergedWork.Proofs.Rejection
import MergedWork.Proofs.Target

/-!
# When a header is accepted

`Params.Accepts` says without computation which headers carry enough work, on their own or with a
proof. `Params.checkHeader` accepts exactly these; where the version, the chain id or the proof is
wrong, it asks the engine nothing, and it never asks for more than one hash (`checkHeader_exact`).
-/

namespace MergedWork

@[simp] theorem Asked.value_pure {α : Type} (a : α) : (pure a : Asked α).value = a := rfl

@[simp] theorem Asked.value_bind {α β : Type} (x : Asked α) (f : α → Asked β) :
    (x >>= f).value = (f x.value).value := rfl

@[simp] theorem Asked.calls_pure {α : Type} (a : α) : (pure a : Asked α).calls = [] := rfl

@[simp] theorem Asked.calls_bind {α β : Type} (x : Asked α) (f : α → Asked β) :
    (x >>= f).calls = x.calls ++ (f x.value).calls := rfl

theorem Version.three_lt_word {v : Version} (h : v.hasProof = true) : 3 < v.word := by
  by_contra hle
  have hle : v.word.toNat ≤ 3 := UInt32.not_lt.1 hle
  have hlow : ∀ n ≤ 3, n &&& 256 = 0 := by decide
  refine of_decide_eq_true h (UInt32.toNat_inj.1 ?_)
  rw [UInt32.toNat_and]
  exact hlow _ hle

/-- Whether the call asks for a hash. -/
def Call.isPowHash : Call → Bool
  | .powHash .. => true
  | .verify .. => false

namespace Params

variable {p : Params} {e : Engine} {h : Header} {proof : Option MergeProof} {hash : Digest}
  {bits : Compact} {algorithm : Algorithm} {parent : Parent}

/-! ## Acceptance -/

/-- The hash is at most the target of the word, which is at most the limit of the algorithm. -/
def Meets (p : Params) (hash : Digest) (bits : Compact) (algorithm : Algorithm) : Prop :=
  ∃ target, bits.Denotes target ∧ target ≤ p.powLimit algorithm ∧ hash.toNat ≤ target

/-- The parent is an Equihash header, whose input of 140 bytes the solution solves under the
parameters of the network. -/
def Solved (p : Params) (e : Engine) (parent : Parent) : Prop :=
  ∃ h reserved nonce solution, parent = .structured h ∧ h.nonce = .equihash reserved nonce solution ∧
    (h.start reserved.bytes ++ nonce.bytes).length = 140 ∧
    e.verify p.equihashN p.equihashK (h.start reserved.bytes ++ nonce.bytes) solution = true

/-- The version says whether there is a proof, and a proof commits to the header for its chain,
which under the strict rule is ours. -/
def Committed (p : Params) (h : Header) : Option MergeProof → Prop
  | none => h.version.hasProof = false
  | some proof =>
    h.version.hasProof = true ∧ (p.strictChainId = true → h.version.chainId = p.chainId) ∧
      proof.check p.strictChainId h.hash h.version.chainId = .ok ()

/-- The header carries enough work: without a proof in its own hash, with a proof in that of the
parent, which for Equihash is solved. -/
def Accepts (p : Params) (e : Engine) (h : Header) : Option MergeProof → Prop
  | none =>
    h.version.hasProof = false ∧
      p.Meets (e.workHash h.algorithm h.bytes).value h.bits h.algorithm
  | some proof =>
    h.version.hasProof = true ∧ (p.strictChainId = true → h.version.chainId = p.chainId) ∧
      proof.check p.strictChainId h.hash h.version.chainId = .ok () ∧
      (h.algorithm = .equihash → p.Solved e proof.parent) ∧
      p.Meets (e.workHash h.algorithm proof.parent.hashed).value h.bits h.algorithm

/-! ## The parts of the check -/

theorem checkWork_eq_ok_iff : p.checkWork hash bits algorithm = .ok () ↔ p.Meets hash bits algorithm := by
  unfold checkWork Meets
  simp only [← Compact.target?_eq_some_iff]
  cases bits.target? with
  | none => exact iff_of_false nofun nofun
  | some target =>
    simp only [require_bind_eq_ok_iff, require_eq_ok_iff, decide_eq_true_eq, Option.some.injEq,
      exists_eq_left']

theorem length_equihashInput (h : Header) (reserved nonce : Digest) :
    (h.start reserved.bytes ++ nonce.bytes).length = 140 := by
  simp only [Header.start, Wire.word32, List.length_append, Bytes.length_ofNat,
    Digest.length_bytes]

theorem checkSolution_eq_ok_iff : (p.checkSolution e parent).value = .ok () ↔ p.Solved e parent := by
  cases parent with
  | opaqueBytes bytes => exact iff_of_false nofun fun ⟨_, _, _, _, hparent, _⟩ => nomatch hparent
  | structured h =>
    cases hnonce : h.nonce with
    | compact nonce =>
      simp [checkSolution, Solved, Header.equihashInput?, hnonce]
    | equihash reserved nonce solution =>
      simp only [checkSolution, Header.equihashInput?, hnonce, Nonce.solution?, Engine.askVerify,
        Asked.value_bind, Asked.value_pure, require_eq_ok_iff]
      constructor
      · intro hverify
        exact ⟨h, reserved, nonce, solution, rfl, hnonce, length_equihashInput h reserved nonce,
          hverify⟩
      · rintro ⟨_, _, _, _, hparent, hnonce', -, hverify⟩
        cases hparent
        cases hnonce.symm.trans hnonce'
        exact hverify

theorem checkProof_eq_ok_iff : p.checkProof h proof = .ok () ↔ p.Committed h proof := by
  cases proof with
  | none =>
    simp only [checkProof, Committed, require_bind_eq_ok_iff, require_eq_ok_iff]
    cases h.version.hasProof <;> simp
  | some proof =>
    simp only [checkProof, Committed, require_bind_eq_ok_iff]
    cases hflag : h.version.hasProof with
    | false => simp
    | true => cases p.strictChainId <;> simp [Version.three_lt_word hflag]

theorem checkOwnWork_eq_ok_iff :
    (p.checkOwnWork e h).value = .ok () ↔
      p.Meets (e.workHash h.algorithm h.bytes).value h.bits h.algorithm :=
  checkWork_eq_ok_iff

theorem checkParentWork_eq_ok_iff :
    (p.checkParentWork e h parent).value = .ok () ↔
      (h.algorithm = .equihash → p.Solved e parent) ∧
        p.Meets (e.workHash h.algorithm parent.hashed).value h.bits h.algorithm := by
  rw [← checkWork_eq_ok_iff, ← checkSolution_eq_ok_iff]
  unfold checkParentWork
  by_cases halg : h.algorithm = .equihash
  · simp only [halg, if_true, Asked.value_bind, Asked.value_pure, forall_const]
    cases (p.checkSolution e parent).value with
    | error rejection => exact iff_of_false nofun fun hall => nomatch hall.1
    | ok _ => exact (and_iff_right rfl).symm
  · simp only [halg, if_false, Asked.value_bind, Asked.value_pure, false_imp_iff, true_and]
    exact Iff.rfl

theorem checkHeader_of_not_committed (hno : ¬ p.Committed h proof) :
    ∃ rejection, p.checkHeader e h proof = pure (.error rejection) := by
  unfold checkHeader
  cases hproof : p.checkProof h proof with
  | error rejection => exact ⟨rejection, rfl⟩
  | ok _ => exact absurd (checkProof_eq_ok_iff.1 hproof) hno

theorem checkHeader_none (hcommitted : p.Committed h none) :
    p.checkHeader e h none = p.checkOwnWork e h := by
  rw [checkHeader, checkProof_eq_ok_iff.2 hcommitted]

theorem checkHeader_some {proof : MergeProof} (hcommitted : p.Committed h (some proof)) :
    p.checkHeader e h (some proof) = p.checkParentWork e h proof.parent := by
  rw [checkHeader, checkProof_eq_ok_iff.2 hcommitted]

theorem checkHeader_eq_ok_iff : (p.checkHeader e h proof).value = .ok () ↔ p.Accepts e h proof := by
  by_cases hcommitted : p.Committed h proof
  · cases proof with
    | none =>
      rw [checkHeader_none hcommitted, checkOwnWork_eq_ok_iff]
      exact (and_iff_right hcommitted).symm
    | some proof =>
      rw [checkHeader_some hcommitted, checkParentWork_eq_ok_iff]
      obtain ⟨hflag, hid, hcheck⟩ := hcommitted
      exact ⟨fun ⟨hsolved, hmeets⟩ => ⟨hflag, hid, hcheck, hsolved, hmeets⟩,
        fun ⟨_, _, _, hsolved, hmeets⟩ => ⟨hsolved, hmeets⟩⟩
  · obtain ⟨rejection, heq⟩ := checkHeader_of_not_committed (e := e) hcommitted
    rw [heq]
    refine iff_of_false nofun fun haccepts => hcommitted ?_
    cases proof with
    | none => exact haccepts.1
    | some proof => exact ⟨haccepts.1, haccepts.2.1, haccepts.2.2.1⟩

/-! ## Calls -/

theorem countP_calls_workHash_le (e : Engine) (algorithm : Algorithm) (input : Bytes) :
    (e.workHash algorithm input).calls.countP Call.isPowHash ≤ 1 := by
  cases algorithm with
  | sha256d | equihash => exact Nat.zero_le 1
  | _ => exact Nat.le_refl 1

theorem countP_calls_checkSolution (p : Params) (e : Engine) (parent : Parent) :
    (p.checkSolution e parent).calls.countP Call.isPowHash = 0 := by
  cases parent with
  | opaqueBytes bytes => rfl
  | structured h =>
    cases hnonce : h.nonce with
    | compact nonce => simp [checkSolution, Header.equihashInput?, hnonce]
    | equihash reserved nonce solution =>
      simp [checkSolution, Header.equihashInput?, hnonce, Nonce.solution?, Engine.askVerify,
        Call.isPowHash]

theorem countP_calls_checkParentWork_le (p : Params) (e : Engine) (h : Header) (parent : Parent) :
    (p.checkParentWork e h parent).calls.countP Call.isPowHash ≤ 1 := by
  have hhash := countP_calls_workHash_le e h.algorithm parent.hashed
  rw [checkParentWork, Asked.calls_bind, List.countP_append]
  split_ifs
  · rwa [Asked.calls_bind, List.countP_append, countP_calls_checkSolution]
  · exact hhash

theorem countP_calls_checkHeader_le (p : Params) (e : Engine) (h : Header)
    (proof : Option MergeProof) :
    (p.checkHeader e h proof).calls.countP Call.isPowHash ≤ 1 := by
  by_cases hcommitted : p.Committed h proof
  · cases proof with
    | none =>
      rw [checkHeader_none hcommitted, checkOwnWork, Asked.calls_bind, Asked.calls_pure,
        List.append_nil]
      exact countP_calls_workHash_le e h.algorithm h.bytes
    | some proof =>
      rw [checkHeader_some hcommitted]
      exact countP_calls_checkParentWork_le p e h proof.parent
  · obtain ⟨rejection, heq⟩ := checkHeader_of_not_committed (e := e) hcommitted
    rw [heq]
    exact Nat.zero_le 1

/-! ## The whole check -/

/-- A header is accepted exactly if it carries enough work. The engine is asked nothing about a
header whose version, chain id or proof is wrong, and never for more than one hash. -/
theorem checkHeader_exact (p : Params) (e : Engine) (h : Header) (proof : Option MergeProof) :
    ((p.checkHeader e h proof).value = .ok () ↔ p.Accepts e h proof) ∧
      (¬ p.Committed h proof → (p.checkHeader e h proof).calls = []) ∧
      (p.checkHeader e h proof).calls.countP Call.isPowHash ≤ 1 := by
  refine ⟨checkHeader_eq_ok_iff, fun hno => ?_, countP_calls_checkHeader_le p e h proof⟩
  obtain ⟨rejection, heq⟩ := checkHeader_of_not_committed (e := e) hno
  rw [heq]
  rfl

end Params

end MergedWork

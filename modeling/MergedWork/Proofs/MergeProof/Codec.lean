import MergedWork.MergeProof.Layout
import MergedWork.Proofs.Wire.Reads

/-!
# The form of a proof

The reader of a proof takes exactly the proofs that conform to the layout of the algorithm, each in
one form (`MergeProof.bytes_codec`): their coinbase and parent are of the kinds of the layout, and no list
or byte string in them is too long. A header is read together with a proof exactly if its version
says that one follows, and the layout of that proof is the one of the header's own algorithm
(`Header.decodeWithProof_eq_ok_iff`).
-/

namespace MergedWork

open Reader

/-! ## Transactions -/

/-- The script is not too long. -/
def TxIn.Fits (i : TxIn) : Prop := i.script.length ≤ Wire.maxLength

/-- The script is not too long. -/
def TxOut.Fits (o : TxOut) : Prop := o.script.length ≤ Wire.maxLength

/-- No list and no script of the transaction is too long. -/
structure Transaction.Fits (tx : Transaction) : Prop where
  inputs : ListFits TxIn.Fits tx.inputs
  outputs : ListFits TxOut.Fits tx.outputs

namespace Reader

theorem reads_outPoint : outPoint.Reads (fun _ => True) OutPoint.bytes := by
  rintro input ⟨hash, index⟩ rest
  simp [outPoint, OutPoint.bytes, run_bind_eq_ok_iff, reads_digest.run_iff, reads_word32.run_iff]

theorem reads_txIn : txIn.Reads TxIn.Fits TxIn.bytes := by
  rintro input ⟨previous, script, sequence⟩ rest
  simp [txIn, TxIn.bytes, TxIn.Fits, run_bind_eq_ok_iff, reads_outPoint.run_iff,
    reads_varBytes.run_iff, reads_word32.run_iff, and_comm]

theorem reads_txOut : txOut.Reads TxOut.Fits TxOut.bytes := by
  rintro input ⟨value, script⟩ rest
  simp [txOut, TxOut.bytes, TxOut.Fits, run_bind_eq_ok_iff, reads_int64.run_iff,
    reads_varBytes.run_iff, and_comm]

theorem reads_transaction : transaction.Reads Transaction.Fits Transaction.bytes := by
  intro input tx rest
  simp only [transaction, run_bind_eq_ok_iff, reads_word32.run_iff, reads_txIn.counted.run_iff,
    reads_txOut.counted.run_iff, run_pure_eq_ok_iff, true_and]
  constructor
  · rintro ⟨version, _, rfl, inputs, _, ⟨hinputs, rfl⟩, outputs, _, ⟨houtputs, rfl⟩, lockTime, _,
      rfl, rfl, rfl⟩
    exact ⟨⟨hinputs, houtputs⟩, by simp [Transaction.bytes]⟩
  · rintro ⟨⟨hinputs, houtputs⟩, rfl⟩
    exact ⟨tx.version, _, by simp [Transaction.bytes], tx.inputs, _, ⟨hinputs, rfl⟩, tx.outputs, _,
      ⟨houtputs, rfl⟩, tx.lockTime, _, rfl, rfl, rfl⟩

/-! ## Headers -/

theorem reads_version : version.Reads (fun _ => True) fun v => Wire.word32 v.word :=
  reads_word32.map Version.mk (fun v => iff_of_true trivial ⟨v.word, trivial, rfl⟩) fun _ _ => rfl

theorem reads_compact : compact.Reads (fun _ => True) fun c => Wire.word32 c.word :=
  reads_word32.map Compact.mk (fun c => iff_of_true trivial ⟨c.word, trivial, rfl⟩) fun _ _ => rfl

/-- A header with a nonce of 32 bits. -/
theorem reads_header : header.Reads (·.nonce.compact?.isSome) Header.wire := by
  rintro input ⟨⟨version, merkleRoot, time, bits, nonce⟩, previous⟩ rest
  simp only [header, run_bind_eq_ok_iff, reads_version.run_iff, reads_digest.run_iff,
    reads_word32.run_iff, reads_compact.run_iff, run_pure_eq_ok_iff, true_and]
  cases nonce with
  | compact nonce => simp [Header.wire, Header.start, Nonce.compact?]
  | equihash reserved nonce solution => simp [Nonce.compact?]

/-- A header with an Equihash solution. -/
theorem reads_equihashHeader :
    equihashHeader.Reads (·.nonce.solution?.any (·.length ≤ Wire.maxLength)) Header.wire := by
  rintro input ⟨⟨version, merkleRoot, time, bits, nonce⟩, previous⟩ rest
  simp only [equihashHeader, run_bind_eq_ok_iff, reads_version.run_iff, reads_digest.run_iff,
    reads_word32.run_iff, reads_compact.run_iff, reads_varBytes.run_iff, run_pure_eq_ok_iff,
    true_and]
  cases nonce with
  | compact nonce => simp [Nonce.solution?]
  | equihash reserved nonce solution =>
    simp [Header.wire, Header.start, Nonce.solution?, and_comm]

end Reader

/-! ## Kinds of coinbase and parent -/

namespace Layout

/-- The coinbase is of the kind of the layout, and nothing in it is too long. -/
def CoinbaseFits : Layout → Coinbase → Prop
  | .bitcoin, .structured tx => tx.Fits
  | .equihash, .raw bytes .sha256d => bytes.length ≤ Wire.maxLength
  | .cryptonight, .raw bytes .cryptonight => bytes.length ≤ Wire.maxLength
  | _, _ => False

/-- The parent is of the kind of the layout, and nothing in it is too long. -/
def ParentFits : Layout → Parent → Prop
  | .bitcoin, .structured h => h.nonce.compact?.isSome
  | .equihash, .structured h => h.nonce.solution?.any (·.length ≤ Wire.maxLength)
  | .cryptonight, .opaqueBytes bytes => bytes.length ≤ Wire.maxLength
  | _, _ => False

end Layout

/-- The coinbase and the parent are of the kinds of the layout, and nothing in the proof is too
long. -/
structure MergeProof.Conforms (layout : Layout) (p : MergeProof) : Prop where
  coinbase : layout.CoinbaseFits p.coinbase
  merkleBranch : p.merkleBranch.length ≤ Wire.maxLength
  chainBranch : p.chainBranch.length ≤ Wire.maxLength
  parent : layout.ParentFits p.parent

namespace Reader

theorem reads_digests : digests.Reads (·.length ≤ Wire.maxLength) Wire.digests := by
  intro input ds rest
  rw [digests, reads_digest.counted.run_iff, Wire.digests, ListFits]
  simp

theorem reads_coinbase (layout : Layout) :
    (coinbase layout).Reads layout.CoinbaseFits Coinbase.bytes := by
  cases layout with
  | bitcoin =>
    refine reads_transaction.map Coinbase.structured (fun c => ?_) fun _ _ => rfl
    cases c <;> simp [Layout.CoinbaseFits]
  | equihash =>
    refine reads_varBytes.map (Coinbase.raw · .sha256d) (fun c => ?_) fun _ _ => rfl
    rcases c with _ | ⟨_, _ | _⟩ <;> simp [Layout.CoinbaseFits]
  | cryptonight =>
    refine reads_varBytes.map (Coinbase.raw · .cryptonight) (fun c => ?_) fun _ _ => rfl
    rcases c with _ | ⟨_, _ | _⟩ <;> simp [Layout.CoinbaseFits]

theorem reads_parent (layout : Layout) :
    (parent layout).Reads layout.ParentFits Parent.bytes := by
  cases layout with
  | bitcoin =>
    refine reads_header.map Parent.structured (fun p => ?_) fun _ _ => rfl
    cases p <;> simp [Layout.ParentFits]
  | equihash =>
    refine reads_equihashHeader.map Parent.structured (fun p => ?_) fun _ _ => rfl
    cases p <;> simp [Layout.ParentFits]
  | cryptonight =>
    refine reads_varBytes.map Parent.opaqueBytes (fun p => ?_) fun _ _ => rfl
    cases p <;> simp [Layout.ParentFits]

/-! ## Proofs -/

theorem reads_mergeProof (algorithm : Algorithm) :
    (mergeProof algorithm).Reads (MergeProof.Conforms (.ofAlgorithm algorithm))
      MergeProof.bytes := by
  intro input p rest
  simp only [mergeProof, run_bind_eq_ok_iff, (reads_coinbase _).run_iff, reads_digest.run_iff,
    reads_digests.run_iff, reads_int32.run_iff, (reads_parent _).run_iff, run_pure_eq_ok_iff,
    true_and]
  constructor
  · rintro ⟨coinbase, _, ⟨hcoinbase, rfl⟩, parentHash, _, rfl, merkleBranch, _, ⟨hmerkle, rfl⟩,
      index, _, rfl, chainBranch, _, ⟨hchain, rfl⟩, chainIndex, _, rfl, parent, _,
      ⟨hparent, rfl⟩, rfl, rfl⟩
    exact ⟨⟨hcoinbase, hmerkle, hchain, hparent⟩, by simp [MergeProof.bytes]⟩
  · rintro ⟨hp, rfl⟩
    exact ⟨p.coinbase, _, ⟨hp.coinbase, by simp [MergeProof.bytes]⟩, p.parentHash, _, rfl,
      p.merkleBranch, _, ⟨hp.merkleBranch, rfl⟩, p.index, _, rfl, p.chainBranch, _,
      ⟨hp.chainBranch, rfl⟩, p.chainIndex, _, rfl, p.parent, _, ⟨hp.parent, rfl⟩, rfl, rfl⟩

end Reader

namespace MergeProof

/-- A proof that conforms is read back from its form, and what stands behind it is left. Whatever is
read conforms, and the bytes that were taken are its form. -/
theorem bytes_codec (algorithm : Algorithm) :
    (∀ (p : MergeProof) (rest : Bytes), p.Conforms (.ofAlgorithm algorithm) →
      (Reader.mergeProof algorithm).run (p.bytes ++ rest) = (.ok p, rest)) ∧
    ∀ (input : Bytes) (p : MergeProof) (rest : Bytes),
      (Reader.mergeProof algorithm).run input = (.ok p, rest) →
        p.Conforms (.ofAlgorithm algorithm) ∧ input = p.bytes ++ rest := by
  have hreads := reads_mergeProof algorithm
  refine ⟨fun p rest hp => ?_, fun input p rest hrun => ?_⟩
  · exact hreads.run_iff.2 ⟨hp, rfl⟩
  · exact hreads.run_iff.1 hrun

/-- A proof from an Equihash parent whose solution is too short to be hashed. -/
def shortSolutionProof : MergeProof where
  coinbase := .raw [1, 2, 3] .sha256d
  parentHash := .zero
  merkleBranch := [.ofNat 7]
  index := 0
  chainBranch := []
  chainIndex := -1
  parent := .structured
    { version := ⟨4⟩, merkleRoot := .zero, time := 1, bits := ⟨0⟩, previous := .zero,
      nonce := .equihash .zero (.ofNat 1) [4, 5] }

/-- The form keeps the solution, and does not run into the byte behind it. -/
theorem bytes_codec_shortSolution :
    shortSolutionProof.Conforms .equihash ∧
      (Reader.mergeProof .equihash).run (shortSolutionProof.bytes ++ [6]) =
        (.ok shortSolutionProof, [6]) := by
  have hconforms : shortSolutionProof.Conforms .equihash := by
    constructor <;> simp [shortSolutionProof, Layout.CoinbaseFits, Layout.ParentFits,
      Nonce.solution?, Wire.maxLength]
  exact ⟨hconforms, (bytes_codec .equihash).1 shortSolutionProof [6] hconforms⟩

end MergeProof

namespace Header

/-- A header is read together with a proof, or without one, exactly from their common form. The
header has a nonce of 32 bits and says whether there is a proof, and its algorithm says to what the
proof conforms. -/
theorem decodeWithProof_eq_ok_iff {input : Bytes} {h : Header} {proof : Option MergeProof} :
    decodeWithProof input = .ok (h, proof) ↔
      h.nonce.compact?.isSome = true ∧ proof.isSome = h.version.hasProof ∧
        (∀ p ∈ proof, p.Conforms (.ofAlgorithm h.algorithm)) ∧ input = h.wireWithProof proof := by
  rw [decodeWithProof, all_eq_ok_iff, headerAndProof]
  simp only [run_bind_eq_ok_iff, reads_header.run_iff]
  constructor
  · rintro ⟨h', _, ⟨hnonce, rfl⟩, hrun⟩
    split_ifs at hrun with hflag
    · obtain ⟨p, _, hread, hrun⟩ := run_bind_eq_ok_iff.1 hrun
      obtain ⟨heq, rfl⟩ := run_pure_eq_ok_iff.1 hrun
      cases heq
      obtain ⟨hp, rfl⟩ := (reads_mergeProof _).run_iff.1 hread
      refine ⟨hnonce, hflag.symm, fun q hq => ?_, by rw [List.append_nil]; rfl⟩
      cases hq
      exact hp
    · obtain ⟨heq, rfl⟩ := run_pure_eq_ok_iff.1 hrun
      cases heq
      exact ⟨hnonce, (Bool.eq_false_iff.2 hflag).symm, nofun, List.append_nil _⟩
  · rintro ⟨hnonce, hflag, hproof, rfl⟩
    cases proof with
    | none =>
      refine ⟨h, [], ⟨hnonce, (List.append_nil _).symm⟩, ?_⟩
      rw [if_neg (by rw [← hflag]; exact Bool.false_ne_true)]
      rfl
    | some p =>
      have hpresent : h.version.hasProof = true := hflag.symm
      refine ⟨h, p.bytes, ⟨hnonce, rfl⟩, ?_⟩
      rw [if_pos hpresent, run_bind_eq_ok_iff]
      exact ⟨p, [], (reads_mergeProof _).run_iff.2 ⟨hproof p rfl, (List.append_nil _).symm⟩, rfl⟩

end Header

end MergedWork

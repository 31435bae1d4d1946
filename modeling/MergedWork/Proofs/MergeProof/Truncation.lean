import MergedWork.Proofs.Hex
import MergedWork.Proofs.MergeProof.Codec
import MergedWork.Proofs.Wire.Steady

/-!
# Proofs that are cut off, or followed by more

The readers of proofs and headers are steady, whatever the layout. Since they take what was written
back as a whole, a form that is cut off anywhere is found to end too early, and bytes behind it are
counted (`cut_or_padded`).
-/

namespace MergedWork

namespace Reader

/-! ## Steady readers -/

theorem steady_txIn : txIn.Steady := by
  have houtPoint : outPoint.Steady := steady_digest.bind fun _ => steady_word32.map _
  exact houtPoint.bind fun _ => steady_varBytes.bind fun _ => steady_word32.map _

theorem steady_txOut : txOut.Steady := steady_int64.bind fun _ => steady_varBytes.map _

theorem steady_transaction : transaction.Steady :=
  steady_word32.bind fun _ => steady_txIn.counted.bind fun _ => steady_txOut.counted.bind fun _ =>
    steady_word32.map _

theorem steady_version : version.Steady := steady_word32.map _

theorem steady_compact : compact.Steady := steady_word32.map _

theorem steady_header : header.Steady :=
  steady_version.bind fun _ => steady_digest.bind fun _ => steady_digest.bind fun _ =>
    steady_word32.bind fun _ => steady_compact.bind fun _ => steady_word32.map _

theorem steady_equihashHeader : equihashHeader.Steady :=
  steady_version.bind fun _ => steady_digest.bind fun _ => steady_digest.bind fun _ =>
    steady_digest.bind fun _ => steady_word32.bind fun _ => steady_compact.bind fun _ =>
      steady_digest.bind fun _ => steady_varBytes.map _

theorem steady_coinbase (layout : Layout) : (coinbase layout).Steady := by
  cases layout with
  | bitcoin => exact steady_transaction.map _
  | equihash | cryptonight => exact steady_varBytes.map _

theorem steady_parent (layout : Layout) : (parent layout).Steady := by
  cases layout with
  | bitcoin => exact steady_header.map _
  | equihash => exact steady_equihashHeader.map _
  | cryptonight => exact steady_varBytes.map _

theorem steady_mergeProof (algorithm : Algorithm) : (mergeProof algorithm).Steady :=
  (steady_coinbase _).bind fun _ => steady_digest.bind fun _ => steady_digest.counted.bind fun _ =>
    steady_int32.bind fun _ => steady_digest.counted.bind fun _ => steady_int32.bind fun _ =>
      (steady_parent _).map _

theorem steady_headerAndProof : headerAndProof.Steady := by
  refine steady_header.bind fun h => ?_
  split_ifs
  · exact (steady_mergeProof h.algorithm).map _
  · exact steady_pure _

end Reader

/-! ## Cut and padded forms -/

namespace MergeProof

variable {p : MergeProof} {algorithm : Algorithm} {bytes : Bytes}

theorem run_bytes (hp : p.Conforms (.ofAlgorithm algorithm)) :
    (Reader.mergeProof algorithm).run p.bytes = (.ok p, []) :=
  (Reader.reads_mergeProof algorithm).run_iff.2 ⟨hp, (List.append_nil _).symm⟩

/-- A proof is read from the text that spells it, with blanks around. -/
theorem ofHex_of_spells {before text after : List Char}
    (hbefore : ∀ c ∈ before, Text.isBlank c = true) (htext : Hex.Spells text bytes)
    (hafter : ∀ c ∈ after, Text.isBlank c = true) (algorithm : Algorithm) :
    ofHex (String.ofList (before ++ text ++ after)) algorithm =
      (Reader.mergeProof algorithm).all bytes := by
  have hplain : ∀ c ∈ text, Text.isBlank c = false := fun c hc => (htext.forall_mem c hc).2
  rw [ofHex, String.toList_ofList, Text.trim_append hbefore hplain hafter, Hex.decode_of_spells htext]

end MergeProof

namespace Header

variable {h : Header} {proof : Option MergeProof}

theorem run_wireWithProof (hnonce : h.nonce.compact?.isSome = true)
    (hflag : proof.isSome = h.version.hasProof)
    (hproof : ∀ p ∈ proof, p.Conforms (.ofAlgorithm h.algorithm)) :
    Reader.headerAndProof.run (h.wireWithProof proof) = (.ok (h, proof), []) :=
  Reader.all_eq_ok_iff.1 (decodeWithProof_eq_ok_iff.2 ⟨hnonce, hflag, hproof, rfl⟩)

end Header

namespace Reader

/-- Of the form of a conforming proof, every strict prefix is found to end too early, and in the text
of a form with bytes behind it, with letters in either case and blanks around, these bytes are
counted. The same holds of the common form of a header and its proof, if it has one. -/
theorem cut_or_padded :
    (∀ (algorithm : Algorithm) (p : MergeProof), p.Conforms (.ofAlgorithm algorithm) →
      (∀ front, front <+: p.bytes → front ≠ p.bytes →
        EndsEarly ((mergeProof algorithm).run front).1) ∧
      ∀ extra, extra ≠ [] → ∀ before text after : List Char,
        (∀ c ∈ before, Text.isBlank c = true) → Hex.Spells text (p.bytes ++ extra) →
        (∀ c ∈ after, Text.isBlank c = true) →
          MergeProof.ofHex (String.ofList (before ++ text ++ after)) algorithm =
            .error (.trailingBytes extra.length)) ∧
    ∀ (h : Header) (proof : Option MergeProof), h.nonce.compact?.isSome = true →
      proof.isSome = h.version.hasProof →
      (∀ p ∈ proof, p.Conforms (.ofAlgorithm h.algorithm)) →
        (∀ front, front <+: h.wireWithProof proof → front ≠ h.wireWithProof proof →
          EndsEarly (Header.decodeWithProof front)) ∧
        ∀ extra, extra ≠ [] → Header.decodeWithProof (h.wireWithProof proof ++ extra) =
          .error (.trailingBytes extra.length) := by
  refine ⟨fun algorithm p hp => ⟨?_, ?_⟩, fun h proof hnonce hflag hproof => ⟨?_, ?_⟩⟩
  · exact fun front => (steady_mergeProof algorithm).endsEarly_of_cut (MergeProof.run_bytes hp)
  · intro extra hextra before text after hbefore htext hafter
    rw [MergeProof.ofHex_of_spells hbefore htext hafter]
    exact (steady_mergeProof algorithm).all_append (MergeProof.run_bytes hp) hextra
  · intro front hfront hcut
    exact (steady_headerAndProof.endsEarly_of_cut
      (Header.run_wireWithProof hnonce hflag hproof) hfront hcut).all
  · exact fun extra =>
      steady_headerAndProof.all_append (Header.run_wireWithProof hnonce hflag hproof)

/-- A header of a CryptoNight block that was mined as part of another. -/
def sealedHeader : Header where
  version := ⟨0xf04⟩
  previous := .zero
  merkleRoot := .zero
  time := 1
  bits := ⟨0x207fffff⟩
  nonce := .compact 0

/-- The proof of such a block. -/
def rawProof : MergeProof where
  coinbase := .raw [1, 2, 3] .cryptonight
  parentHash := .zero
  merkleBranch := [.ofNat 7]
  index := 0
  chainBranch := []
  chainIndex := -1
  parent := .opaqueBytes [4, 5]

/-- The header without the proof that it announces, and both with two bytes behind them. -/
theorem cut_or_padded_raw :
    rawProof.Conforms (.ofAlgorithm sealedHeader.algorithm) ∧
      sealedHeader.version.hasProof = true ∧
      EndsEarly (Header.decodeWithProof sealedHeader.wire) ∧
      Header.decodeWithProof (sealedHeader.wireWithProof (some rawProof) ++ [6, 7]) =
        .error (.trailingBytes 2) ∧
      MergeProof.ofHex (Hex.encode (rawProof.bytes ++ [6, 7])) .cryptonight =
        .error (.trailingBytes 2) := by
  have hconforms : rawProof.Conforms .cryptonight := by
    constructor <;> simp [rawProof, Layout.CoinbaseFits, Layout.ParentFits, Wire.maxLength]
  obtain ⟨hproofs, hheaders⟩ := cut_or_padded
  have hheader := hheaders sealedHeader (some rawProof) rfl rfl fun p hp => by cases hp; exact hconforms
  have hnone : ∀ c ∈ ([] : List Char), Text.isBlank c = true := fun c hc => by cases hc
  have htext := (hproofs .cryptonight rawProof hconforms).2 [6, 7] (by decide) []
    (Hex.encode (rawProof.bytes ++ [6, 7])).toList [] hnone (Hex.spells_encode _) hnone
  refine ⟨hconforms, rfl, hheader.1 _ ⟨rawProof.bytes, rfl⟩ (by decide), ?_, ?_⟩
  · exact hheader.2 [6, 7] (by decide)
  · rwa [List.nil_append, List.append_nil, String.ofList_toList] at htext

end Reader

end MergedWork

import MergedWork.Proofs.Wire.Reads
import MergedWork.Proofs.Wire.Steady

/-!
# One form for each size

A size could be written in up to four ways: as one byte, or behind one of three markers (`Spelling`).
Only the shortest is accepted. Any other is refused, and then the reader has taken just the bytes of
this spelling (`run_compactSize_of_spelling`). An input that does not start with a spelling ends too
early, so that nothing else can become of an input.
-/

namespace MergedWork.Reader

variable {marker : UInt8} {n width least : Nat} {s bs input : Bytes}

/-- The markers, and how many bytes of a number stand behind each. -/
def markers : List (UInt8 × Nat) := [(0xfd, 2), (0xfe, 4), (0xff, 8)]

/-- The ways to write a size: as one byte below `0xfd`, or as a marker and a number of so many bytes
as it announces. -/
inductive Spelling : (n : Nat) → (s : Bytes) → Prop
  | short {b : UInt8} (hb : b.toNat < 0xfd) : Spelling b.toNat [b]
  | wide {marker : UInt8} {bs : Bytes} (hmarker : (marker, bs.length) ∈ markers) :
      Spelling (Bytes.toNat bs) (marker :: bs)

/-- The form that is written is one of the ways. -/
theorem spelling_compactSize (hn : n < 2 ^ 64) : Spelling n (Wire.compactSize n) := by
  have hwide : ∀ {marker width}, (marker, width) ∈ markers → n < 256 ^ width →
      Spelling n (marker :: Bytes.ofNat width n) := by
    intro marker width hmarker hlt
    have h : Spelling _ (marker :: Bytes.ofNat width n) := .wide (by rwa [Bytes.length_ofNat])
    rwa [Bytes.toNat_ofNat, Nat.mod_eq_of_lt hlt] at h
  unfold Wire.compactSize
  split_ifs with hone htwo hfour
  · have hbyte : (UInt8.ofNat n).toNat = n := UInt8.toNat_ofNat_of_lt' (Nat.lt_trans hone (by decide))
    have h : Spelling _ [UInt8.ofNat n] := .short (by rwa [hbyte])
    rwa [hbyte] at h
  · exact hwide (by decide) (by omega)
  · exact hwide (by decide) (by omega)
  · exact hwide (by decide) (by omega)

/-! ## Reading a spelling -/

theorem run_number (hlength : bs.length = width) (rest : Bytes) :
    (number width).run (bs ++ rest) = (.ok (Bytes.toNat bs), rest) := by
  have hfits : Bytes.toNat bs < 256 ^ width := hlength ▸ Bytes.toNat_lt bs
  refine (reads_number width).run_iff.2 ⟨hfits, ?_⟩
  rw [← hlength, Bytes.ofNat_toNat]

theorem run_number_of_short (hlength : bs.length < width) :
    (number width).run bs = (.error (.unexpectedEnd width bs.length), bs) := by
  have hshort : ¬ bs.hasAtLeast width = true :=
    mt (Bytes.hasAtLeast_iff bs width).1 (Nat.not_le_of_lt hlength)
  rw [number, run_bind, run, bytes, if_neg hshort]

theorem run_wideSize (hlength : bs.length = width) (rest : Bytes) :
    (wideSize width least).run (bs ++ rest) =
      (if Bytes.toNat bs < least then .error .nonCanonicalSize else .ok (Bytes.toNat bs), rest) := by
  rw [wideSize, run_bind, run_number hlength]
  dsimp only
  split_ifs <;> rfl

theorem run_compactSize_cons (h : (marker, width) ∈ markers) :
    ∃ least, ∀ rest, compactSize.run (marker :: rest) = (wideSize width least).run rest := by
  have hone : [marker].length = 1 := rfl
  have hfirst : ∀ rest, (number 1).run (marker :: rest) = (.ok marker.toNat, rest) :=
    run_number hone
  simp only [markers, List.mem_cons, Prod.mk.injEq, List.not_mem_nil, or_false] at h
  rcases h with ⟨rfl, rfl⟩ | ⟨rfl, rfl⟩ | ⟨rfl, rfl⟩
  · exact ⟨0xfd, fun rest => by rw [compactSize, run_bind, hfirst]; rfl⟩
  · exact ⟨0x10000, fun rest => by rw [compactSize, run_bind, hfirst]; rfl⟩
  · exact ⟨0x100000000, fun rest => by rw [compactSize, run_bind, hfirst]; rfl⟩

/-- The reader takes a whole spelling, whether it accepts it or not. -/
theorem run_compactSize_of_spelling (h : Spelling n s) (rest : Bytes) :
    compactSize.run (s ++ rest) = (.ok n, rest) ∨
      compactSize.run (s ++ rest) = (.error .nonCanonicalSize, rest) := by
  cases h with
  | @short b hb =>
    refine Or.inl (reads_compactSize.run_iff.2 ⟨by omega, ?_⟩)
    rw [Wire.compactSize, if_pos hb, UInt8.ofNat_toNat]
  | @wide marker bs hmarker =>
    obtain ⟨least, hwide⟩ := run_compactSize_cons hmarker
    rw [List.cons_append, hwide, run_wideSize rfl]
    split_ifs
    · exact Or.inr rfl
    · exact Or.inl rfl

/-- An input that does not start with a spelling is too short for what its first byte announces. -/
theorem exists_spelling_or_endsEarly (input : Bytes) :
    (∃ n s rest, Spelling n s ∧ input = s ++ rest) ∨ EndsEarly (compactSize.run input).1 := by
  cases input with
  | nil => exact Or.inr ⟨1, 0, rfl⟩
  | cons b rest =>
    by_cases hb : b.toNat < 0xfd
    · exact Or.inl ⟨b.toNat, [b], rest, .short hb, rfl⟩
    · obtain ⟨width, hmarker⟩ : ∃ width, (b, width) ∈ markers := by
        have hlt := b.toNat_lt
        have hb' : b.toNat = 0xfd ∨ b.toNat = 0xfe ∨ b.toNat = 0xff := by omega
        rcases hb' with hb | hb | hb
        · exact ⟨2, by rw [← UInt8.ofNat_toNat (x := b), hb]; decide⟩
        · exact ⟨4, by rw [← UInt8.ofNat_toNat (x := b), hb]; decide⟩
        · exact ⟨8, by rw [← UInt8.ofNat_toNat (x := b), hb]; decide⟩
      by_cases hlength : width ≤ rest.length
      · have htake : (rest.take width).length = width := List.length_take_of_le hlength
        refine Or.inl ⟨_, b :: rest.take width, rest.drop width, .wide (by rwa [htake]), ?_⟩
        rw [List.cons_append, List.take_append_drop]
      · obtain ⟨least, hwide⟩ := run_compactSize_cons hmarker
        refine Or.inr ⟨width, rest.length, ?_⟩
        rw [hwide, wideSize, run_bind, run_number_of_short (Nat.lt_of_not_le hlength)]

/-- Each size below `2 ^ 64` is read from the form in which it is written, whatever stands behind it,
and it is read from nothing else: any other spelling of it is refused as not the shortest. Of every
input, either the front is a spelling or it ends too early. -/
theorem compactSize_canonical :
    (∀ n < 2 ^ 64, Spelling n (Wire.compactSize n) ∧
      ∀ rest, compactSize.run (Wire.compactSize n ++ rest) = (.ok n, rest)) ∧
    (∀ input n rest, compactSize.run input = (.ok n, rest) →
      n < 2 ^ 64 ∧ input = Wire.compactSize n ++ rest) ∧
    (∀ n s, Spelling n s → s ≠ Wire.compactSize n →
      ∀ rest, compactSize.run (s ++ rest) = (.error .nonCanonicalSize, rest)) ∧
    ∀ input, (∃ n s rest, Spelling n s ∧ input = s ++ rest) ∨
      EndsEarly (compactSize.run input).1 := by
  refine ⟨fun n hn => ⟨spelling_compactSize hn, fun rest => ?_⟩, fun input n rest hrun => ?_,
    fun n s hspelling hlonger rest => ?_, exists_spelling_or_endsEarly⟩
  · exact reads_compactSize.run_iff.2 ⟨hn, rfl⟩
  · exact reads_compactSize.run_iff.1 hrun
  · refine (run_compactSize_of_spelling hspelling rest).resolve_left fun hok => hlonger ?_
    exact List.append_cancel_right (reads_compactSize.run_iff.1 hok).2

/-- The sizes on both sides of the first limit, and the smaller of them in the form of the larger. -/
theorem compactSize_canonical_limit :
    (0xfc < 2 ^ 64 ∧ compactSize.run (Wire.compactSize 0xfc ++ [7]) = (.ok 0xfc, [7])) ∧
      (0xfd < 2 ^ 64 ∧ compactSize.run (Wire.compactSize 0xfd ++ [7]) = (.ok 0xfd, [7])) ∧
      (Spelling 0xfc [0xfd, 0xfc, 0] ∧ [0xfd, 0xfc, 0] ≠ Wire.compactSize 0xfc ∧
        compactSize.run ([0xfd, 0xfc, 0] ++ [7]) = (.error .nonCanonicalSize, [7])) := by
  obtain ⟨hwritten, -, hlonger, -⟩ := compactSize_canonical
  have hmarker : (0xfd, ([0xfc, 0] : Bytes).length) ∈ markers := by decide
  have hspelling : Spelling 0xfc [0xfd, 0xfc, 0] := .wide hmarker
  have hne : [0xfd, 0xfc, 0] ≠ Wire.compactSize 0xfc := by decide
  exact ⟨⟨by decide, (hwritten _ (by decide)).2 [7]⟩, ⟨by decide, (hwritten _ (by decide)).2 [7]⟩,
    hspelling, hne, hlonger _ _ hspelling hne [7]⟩

end MergedWork.Reader

import MergedWork.Proofs.MergeProof.Codec

/-!
# Which headers share an identity

The hash of a header is taken over `Header.bytes`, which drops a solution of unusual length. What
the hash sees is then the sent form of the header without that solution (`bytes_eq_wire_visible`),
and the sent form can be read back. So two headers share their hashed bytes only if they differ in
nothing but solutions that were dropped (`bytes_eq_bytes_iff`).
-/

namespace MergedWork

/-- The same nonce with its solution, if there is one, replaced. -/
def Nonce.mapSolution (f : Bytes → Bytes) : Nonce → Nonce
  | compact nonce => compact nonce
  | equihash reserved nonce solution => equihash reserved nonce (f solution)

namespace Header

variable {a b h : Header}

/-! ## The sent form -/

/-- A header that can be read back: its solution, if there is one, is not too long. -/
def Fits (h : Header) : Prop := ∀ s ∈ h.nonce.solution?, s.length ≤ Wire.maxLength

theorem length_start (h : Header) (reserved : Bytes) :
    (h.start reserved).length = 76 + reserved.length := by
  simp only [start, Wire.word32, List.length_append, Bytes.length_ofNat, Digest.length_bytes]
  omega

theorem length_wire_of_compact {nonce : UInt32} (hnonce : h.nonce = .compact nonce) :
    h.wire.length = 80 := by
  simp [wire, hnonce, length_start, Wire.word32]

theorem length_wire_of_equihash {reserved nonce : Digest} {solution : Bytes}
    (hnonce : h.nonce = .equihash reserved nonce solution) : 140 ≤ h.wire.length := by
  simp only [wire, hnonce, List.length_append, length_start, Digest.length_bytes]
  omega

/-- The layouts do not overlap: headers with the same sent form are of the same kind. -/
theorem isSome_compact?_eq (heq : a.wire = b.wire) :
    a.nonce.compact?.isSome = b.nonce.compact?.isSome := by
  have hlength := congrArg List.length heq
  cases ha : a.nonce <;> cases hb : b.nonce
  case compact.equihash =>
    have := length_wire_of_equihash hb
    rw [length_wire_of_compact ha] at hlength
    omega
  case equihash.compact =>
    have := length_wire_of_equihash ha
    rw [length_wire_of_compact hb] at hlength
    omega
  all_goals rfl

/-- Headers that can be read back are told apart by their sent forms. -/
theorem eq_of_wire_eq (ha : a.Fits) (hb : b.Fits) (heq : a.wire = b.wire) : a = b := by
  have hkind := isSome_compact?_eq heq
  cases hnonce : a.nonce.compact?.isSome with
  | true => exact Reader.reads_header.eq_of_form_eq hnonce (hkind.symm.trans hnonce) heq
  | false =>
    have hfits : ∀ h : Header, h.Fits → h.nonce.compact?.isSome = false →
        h.nonce.solution?.any (·.length ≤ Wire.maxLength) = true := by
      intro h hfits hno
      cases hn : h.nonce with
      | compact nonce => simp [hn, Nonce.compact?] at hno
      | equihash reserved nonce solution =>
        exact decide_eq_true (hfits solution (by rw [hn]; rfl))
    exact Reader.reads_equihashHeader.eq_of_form_eq (hfits a ha hnonce)
      (hfits b hb (hkind.symm.trans hnonce)) heq

/-! ## What the hash sees -/

/-- A solution as the hash sees it: one of unusual length is dropped. -/
def visibleSolution (solution : Bytes) : Bytes :=
  if solution.length = solutionLength then solution else []

/-- The header that the hash sees. -/
def visible (h : Header) : Header := { h with nonce := h.nonce.mapSolution visibleSolution }

theorem bytes_eq_wire_visible (h : Header) : h.bytes = h.visible.wire := by
  cases hnonce : h.nonce with
  | compact nonce => simp [bytes, wire, visible, hnonce, Nonce.mapSolution, start]
  | equihash reserved nonce solution =>
    by_cases hlength : solution.length = solutionLength
    · simp [bytes, wire, visible, hnonce, Nonce.mapSolution, visibleSolution, start, hlength]
    · have hempty : Wire.varBytes [] = [0] := rfl
      simp [bytes, wire, visible, hnonce, Nonce.mapSolution, visibleSolution, start, hlength,
        hempty]

theorem fits_visible (h : Header) : h.visible.Fits := by
  intro s hs
  cases hnonce : h.nonce with
  | compact nonce => simp [visible, hnonce, Nonce.mapSolution, Nonce.solution?] at hs
  | equihash reserved nonce solution =>
    simp only [visible, hnonce, Nonce.mapSolution, Nonce.solution?, Option.mem_some_iff] at hs
    subst hs
    unfold visibleSolution
    split_ifs with hlength
    · rw [hlength]
      decide
    · exact Nat.zero_le _

theorem visibleSolution_eq_iff {s t : Bytes} :
    visibleSolution s = visibleSolution t ↔
      s = t ∨ s.length ≠ solutionLength ∧ t.length ≠ solutionLength := by
  have hempty : ∀ s : Bytes, s.length = solutionLength → s ≠ [] := by
    rintro _ hlength rfl
    cases hlength
  unfold visibleSolution
  split_ifs with hs ht ht
  · simp [hs]
  · simp only [hs, ne_eq, not_true_eq_false, false_and, or_false]
    exact iff_of_false (hempty s hs) fun heq => ht (heq ▸ hs)
  · simp only [ht, ne_eq, not_true_eq_false, and_false, or_false]
    exact iff_of_false (Ne.symm (hempty t ht)) fun heq => hs (heq ▸ ht)
  · simp [hs, ht]

/-- Both headers have an Equihash nonce and a solution of unusual length, and differ in nothing but
this solution. -/
structure AlikeButSolution (a b : Header) : Prop where
  version : a.version = b.version
  previous : a.previous = b.previous
  merkleRoot : a.merkleRoot = b.merkleRoot
  time : a.time = b.time
  bits : a.bits = b.bits
  nonce : ∃ reserved nonce s t, a.nonce = .equihash reserved nonce s ∧
    b.nonce = .equihash reserved nonce t ∧ s.length ≠ solutionLength ∧ t.length ≠ solutionLength

theorem visible_eq_visible_iff : a.visible = b.visible ↔ a = b ∨ AlikeButSolution a b := by
  obtain ⟨⟨va, ra, ta, ba, na⟩, pa⟩ := a
  obtain ⟨⟨vb, rb, tb, bb, nb⟩, pb⟩ := b
  constructor
  · intro heq
    simp only [visible, Header.mk.injEq, HeaderFields.mk.injEq] at heq
    obtain ⟨⟨rfl, rfl, rfl, rfl, hnonce⟩, rfl⟩ := heq
    cases na <;> cases nb
    case compact.compact => exact Or.inl (by cases hnonce; rfl)
    case equihash.equihash reserved nonce s reserved' nonce' t =>
      simp only [Nonce.mapSolution, Nonce.equihash.injEq] at hnonce
      obtain ⟨rfl, rfl, hsolution⟩ := hnonce
      rcases visibleSolution_eq_iff.1 hsolution with rfl | ⟨hs, ht⟩
      · exact Or.inl rfl
      · exact Or.inr ⟨rfl, rfl, rfl, rfl, rfl, reserved, nonce, s, t, rfl, rfl, hs, ht⟩
    all_goals cases hnonce
  · rintro (heq | halike)
    · rw [heq]
    · obtain ⟨rfl, rfl, rfl, rfl, rfl, reserved, nonce, s, t, rfl, rfl, hs, ht⟩ := halike
      simp [visible, Nonce.mapSolution, visibleSolution_eq_iff.2 (Or.inr ⟨hs, ht⟩)]

theorem bytes_eq_bytes_iff : a.bytes = b.bytes ↔ a = b ∨ AlikeButSolution a b := by
  rw [bytes_eq_wire_visible, bytes_eq_wire_visible, ← visible_eq_visible_iff]
  exact ⟨eq_of_wire_eq (fits_visible a) (fits_visible b), congrArg wire⟩

/-! ## Both forms -/

theorem wire_eq_bytes_of_equihash_iff {reserved nonce : Digest} {solution : Bytes}
    (hnonce : h.nonce = .equihash reserved nonce solution) :
    h.wire = h.bytes ↔ solution.length = 0 ∨ solution.length = solutionLength := by
  simp only [wire, bytes, hnonce, List.append_right_inj]
  split_ifs with hlength
  · simp [hlength]
  · -- The size stands in front of the solution, so that only an empty one is sent as one byte.
    simp only [hlength, or_false, List.length_eq_zero_iff]
    constructor
    · intro heq
      have hpos := Reader.length_compactSize_pos solution.length
      have hsize := congrArg List.length heq
      simp only [Wire.varBytes, List.length_append, List.length_singleton] at hsize
      exact List.length_eq_zero_iff.1 (by omega)
    · rintro rfl
      rfl

/-- Two headers are hashed from the same bytes exactly if they are equal, or differ only in
solutions of unusual length. The bytes that are sent are those that are hashed exactly if the header
has a short nonce, or a solution that is empty or of the usual length. -/
theorem identity_of_bytes :
    (∀ a b : Header, a.bytes = b.bytes ↔ a = b ∨ AlikeButSolution a b) ∧
      ∀ h : Header, h.wire = h.bytes ↔ h.nonce.compact?.isSome = true ∨
        ∃ s, h.nonce.solution? = some s ∧ (s.length = 0 ∨ s.length = solutionLength) := by
  refine ⟨fun a b => bytes_eq_bytes_iff, fun h => ?_⟩
  cases hnonce : h.nonce with
  | compact nonce =>
    simp only [Nonce.compact?, Option.isSome_some, true_or, iff_true]
    simp [wire, bytes, hnonce]
  | equihash reserved nonce solution =>
    simp [wire_eq_bytes_of_equihash_iff hnonce, Nonce.compact?, Nonce.solution?]

end Header

end MergedWork

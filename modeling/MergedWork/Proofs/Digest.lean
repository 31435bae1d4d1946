import MergedWork.Digest
import MergedWork.Proofs.Bytes.Integers
import MergedWork.Proofs.Hex
import Mathlib.Data.Nat.Digits.Defs

/-!
# The three forms of a digest

A digest has bytes, a number and a text. The bytes are those of the number, least significant first,
and the digits of the text are those of the number, most significant first (`ofDigits_toHex`). Each
form gives back the others. A text of digits in either case may be read as well, behind a marker or
without one; of any other text, the fault that is reported is determined by its bytes (`Fault`).
-/

namespace MergedWork.Digest

variable {text : String} {chars : List Char} {d : Digest} {bs : Bytes} {e : HexError}

/-! ## Numbers -/

theorem ofNat_toNat (d : Digest) : ofNat d.toNat = d := by
  refine ext ?_
  have h := Bytes.ofNat_toNat d.bytes
  rwa [d.length_bytes] at h

theorem toNat_ofNat (n : Nat) : (ofNat n).toNat = n % 2 ^ 256 := Bytes.toNat_ofNat 32 n

theorem toNat_lt (d : Digest) : d.toNat < 2 ^ 256 := by
  have h := Bytes.toNat_lt d.bytes
  rwa [d.length_bytes] at h

/-! ## Digits -/

/-- The value of a digit, a letter being in lower case. -/
def digitValue (c : Char) : Nat :=
  ['0', '1', '2', '3', '4', '5', '6', '7', '8', '9', 'a', 'b', 'c', 'd', 'e', 'f'].idxOf c

theorem digitValue_digitChar {v : Nat} (hv : v < 16) : digitValue (Nat.digitChar v) = v := by
  have hall : ∀ v < 16, digitValue (Nat.digitChar v) = v := by decide
  exact hall v hv

theorem map_digitValue_encode (bs : Bytes) :
    (Hex.encode bs).toList.map digitValue = bs.flatMap fun b => [b.toNat / 16, b.toNat % 16] := by
  rw [Hex.encode, String.toList_ofList, List.map_flatMap]
  refine List.flatMap_congr fun b _ => ?_
  have hb := b.toNat_lt
  rw [Hex.digits, List.map_cons, List.map_singleton, digitValue_digitChar (by omega),
    digitValue_digitChar (by omega)]

/-- Two digits for each byte, the lower one first, are the digits of the number. -/
theorem ofDigits_flatMap (bs : Bytes) :
    Nat.ofDigits 16 (bs.flatMap fun b => [b.toNat % 16, b.toNat / 16]) = Bytes.toNat bs := by
  induction bs with
  | nil => rfl
  | cons b bs ih =>
    rw [List.flatMap_cons, List.cons_append, List.singleton_append, Nat.ofDigits_cons,
      Nat.ofDigits_cons, ih, Bytes.toNat]
    omega

theorem ofDigits_toHex (d : Digest) :
    Nat.ofDigits 16 (d.toHex.toList.map digitValue).reverse = d.toNat := by
  rw [toHex, map_digitValue_encode, displayed, List.reverse_flatMap, List.reverse_reverse]
  exact ofDigits_flatMap d.bytes

/-! ## The text behind the marker -/

/-- The text without one marker in front. -/
def unmarked : List Char → List Char
  | '0' :: 'x' :: rest => rest
  | chars => chars

theorem dropMarker_utf8 (chars : List Char) :
    dropMarker (Hex.utf8 (String.ofList chars)) = Hex.utf8 (String.ofList (unmarked chars)) := by
  unfold unmarked
  split
  · next rest => rw [Hex.utf8_eq_flatMap, Hex.utf8_eq_flatMap]; rfl
  · next hplain =>
    unfold dropMarker
    split
    · next bytes heq =>
      obtain ⟨rest, rfl, hrest⟩ := Hex.exists_of_utf8_eq_cons (by decide) heq
      obtain ⟨rest, rfl, -⟩ := Hex.exists_of_utf8_eq_cons (by decide) hrest
      exact absurd rfl (hplain rest)
    · rfl

/-- The bytes of a text behind its marker. -/
def digitBytes (text : String) : Bytes := Hex.utf8 (String.ofList (unmarked text.toList))

theorem ofBytes?_eq_some_iff : ofBytes? bs = some d ↔ d.bytes = bs := by
  unfold ofBytes?
  split_ifs with hlength
  · rw [Option.some_inj]
    exact ⟨fun h => h ▸ rfl, fun h => ext h.symm⟩
  · exact iff_of_false nofun fun h => hlength (h ▸ d.length_bytes)

theorem ofHex_of_decode (h : Hex.decode (digitBytes text) = .ok bs) :
    ofHex text =
      match ofBytes? bs.reverse with
      | some d => .ok d
      | none => .error .invalidLength := by
  rw [digitBytes, ← dropMarker_utf8, String.ofList_toList] at h
  rw [ofHex, h]
  rfl

theorem ofHex_of_decode_eq_error (h : Hex.decode (digitBytes text) = .error e) :
    ofHex text = .error e := by
  rw [digitBytes, ← dropMarker_utf8, String.ofList_toList] at h
  rw [ofHex, h]
  rfl

/-- A text is read as a digest exactly if it spells the bytes in the order in which they are shown. -/
theorem ofHex_eq_ok_iff_spells :
    ofHex text = .ok d ↔ Hex.Spells (unmarked text.toList) d.displayed := by
  constructor
  · intro h
    cases hdecode : Hex.decode (digitBytes text) with
    | error e => cases (ofHex_of_decode_eq_error hdecode).symm.trans h
    | ok bs =>
      rw [ofHex_of_decode hdecode] at h
      cases hbytes : ofBytes? bs.reverse with
      | none => rw [hbytes] at h; cases h
      | some d' =>
        rw [hbytes] at h
        cases h
        rw [displayed, ofBytes?_eq_some_iff.1 hbytes, List.reverse_reverse]
        exact Hex.spells_of_decode hdecode
  · intro h
    have hbytes : ofBytes? d.displayed.reverse = some d :=
      ofBytes?_eq_some_iff.2 (List.reverse_reverse _).symm
    rw [ofHex_of_decode (Hex.decode_of_spells h), hbytes]

/-! ## Faults -/

/-- What is reported of a text with the given bytes behind its marker: first that their number is
odd, then the first that is no digit, and last that there are not two for each byte of a digest. -/
inductive Fault (text : Bytes) : HexError → Prop
  | oddLength (hodd : text.length % 2 = 1) : Fault text .oddLength
  | invalidCharacter {b : UInt8} {k : Nat} (heven : text.length % 2 = 0)
      (hfirst : Hex.FirstOther text k b) : Fault text (.invalidCharacter b k)
  | invalidLength (heven : text.length % 2 = 0)
      (hdigits : ∀ b ∈ text, Hex.IsDigit (HexError.shown b)) (hlength : text.length ≠ 64) :
      Fault text .invalidLength

theorem ofHex_of_fault (h : Fault (digitBytes text) e) : ofHex text = .error e := by
  cases h with
  | oddLength hodd =>
    refine ofHex_of_decode_eq_error ?_
    rw [Hex.decode, if_pos hodd]
  | @invalidCharacter b k heven hfirst =>
    refine ofHex_of_decode_eq_error ?_
    rw [Hex.decode, if_neg (by omega), Hex.decodeFrom_of_firstOther heven hfirst, Nat.zero_add]
  | invalidLength heven hdigits hlength =>
    obtain ⟨bs, hdecode, hbs⟩ := Hex.exists_decodeFrom heven hdigits 0
    have hnone : ofBytes? bs.reverse = none :=
      dif_neg (by rw [List.length_reverse]; omega)
    rw [ofHex_of_decode (by rw [Hex.decode, if_neg (by omega), hdecode]), hnone]

/-- A text has a fault, or it is read. -/
theorem exists_fault_or_ok (text : String) :
    (∃ e, Fault (digitBytes text) e) ∨ ∃ d, ofHex text = .ok d := by
  by_cases heven : (digitBytes text).length % 2 = 0
  · by_cases hdigits : ∀ b ∈ digitBytes text, Hex.IsDigit (HexError.shown b)
    · by_cases hlength : (digitBytes text).length = 64
      · obtain ⟨bs, hdecode, hbs⟩ := Hex.exists_decodeFrom heven hdigits 0
        have hsome : ofBytes? bs.reverse = some ⟨bs.reverse, by rw [List.length_reverse]; omega⟩ :=
          ofBytes?_eq_some_iff.2 rfl
        exact Or.inr ⟨_, by
          rw [ofHex_of_decode (by rw [Hex.decode, if_neg (by omega), hdecode]), hsome]⟩
      · exact Or.inl ⟨_, .invalidLength heven hdigits hlength⟩
    · obtain ⟨k, b, hfirst⟩ := Hex.exists_firstOther hdigits
      exact Or.inl ⟨_, .invalidCharacter heven hfirst⟩
  · exact Or.inl ⟨_, .oddLength (by omega)⟩

theorem ofHex_eq_error_iff : ofHex text = .error e ↔ Fault (digitBytes text) e := by
  refine ⟨fun h => ?_, ofHex_of_fault⟩
  rcases exists_fault_or_ok text with ⟨e', hfault⟩ | ⟨d, hok⟩
  · cases (ofHex_of_fault hfault).symm.trans h
    exact hfault
  · cases hok.symm.trans h

/-! ## All forms -/

theorem unmarked_of_isDigit (h : ∀ c ∈ chars, Hex.IsDigit c) : unmarked chars = chars := by
  unfold unmarked
  split
  · exact absurd (h 'x' (by simp)) (by decide)
  · rfl

theorem ofHex_toHex (d : Digest) : ofHex d.toHex = .ok d := by
  have h := Hex.spells_encode d.displayed
  rw [ofHex_eq_ok_iff_spells, toHex, unmarked_of_isDigit h.isDigit]
  exact h

/-- A text is read as a digest exactly if, behind at most one marker, it has 64 digits, and with
letters in lower case these are the text of the digest, which is itself read back. The digits of this
text, the first of them being the highest, give the number of the digest. Digests and numbers below
`2 ^ 256` give each other back. Of a text that is not read, its first fault is reported. -/
theorem forms_agree :
    (∀ text d, ofHex text = .ok d ↔ (unmarked text.toList).length = 64 ∧
      (∀ c ∈ unmarked text.toList, Hex.IsDigit c) ∧
      (unmarked text.toList).map Char.toLower = d.toHex.toList) ∧
    (∀ d, ofHex d.toHex = .ok d) ∧
    (∀ d : Digest, Nat.ofDigits 16 (d.toHex.toList.map digitValue).reverse = d.toNat) ∧
    (∀ d : Digest, d.toNat < 2 ^ 256 ∧ ofNat d.toNat = d) ∧
    (∀ n, (ofNat n).toNat = n % 2 ^ 256) ∧
    ∀ text e, ofHex text = .error e ↔ Fault (digitBytes text) e := by
  refine ⟨fun text d => ?_, ofHex_toHex, ofDigits_toHex, fun d => ⟨toNat_lt d, ofNat_toNat d⟩,
    toNat_ofNat, fun text e => ofHex_eq_error_iff⟩
  rw [ofHex_eq_ok_iff_spells]
  constructor
  · intro h
    have hlength := Hex.length_of_spells h
    rw [displayed, List.length_reverse, d.length_bytes] at hlength
    exact ⟨hlength, h.isDigit, h⟩
  · rintro ⟨-, -, h⟩
    exact h

end MergedWork.Digest

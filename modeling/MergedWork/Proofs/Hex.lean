import MergedWork.Hex
import MergedWork.Text.Blank
import Mathlib.Data.List.Basic
import Mathlib.Data.List.Induction

/-!
# Reading hexadecimal text

A text spells a byte string if it consists of its digits, with letters in either case (`Spells`).
Such a text is read as the bytes that it spells (`decode_of_spells`), also after blanks at its ends
have been trimmed, and nothing else is read as these bytes (`spells_of_decode`). Of a text with a byte
that is no digit, the first such byte is reported (`decodeFrom_of_firstOther`).
-/

namespace MergedWork.Text

theorem dropWhile_isBlank_eq_self {text : List Char} (htext : ∀ c ∈ text, isBlank c = false) :
    text.dropWhile isBlank = text := by
  cases text with
  | nil => rfl
  | cons c text =>
    rw [List.dropWhile_cons_of_neg]
    simp [htext c List.mem_cons_self]

/-- Only the blanks at the ends of a text are trimmed. -/
theorem trim_append {before text after : List Char} (hbefore : ∀ c ∈ before, isBlank c = true)
    (htext : ∀ c ∈ text, isBlank c = false) (hafter : ∀ c ∈ after, isBlank c = true) :
    trim (before ++ text ++ after) = text := by
  rw [trim, List.append_assoc, List.dropWhile_append_of_pos hbefore]
  cases text with
  | nil =>
    have hnone : (after ++ []).dropWhile isBlank = [] := List.dropWhile_append_of_pos hafter
    rw [List.append_nil] at hnone
    rw [List.nil_append, hnone]
    rfl
  | cons c text =>
    have hstart : (c :: text ++ after).dropWhile isBlank = c :: text ++ after := by
      rw [List.cons_append, List.dropWhile_cons_of_neg]
      simp [htext c List.mem_cons_self]
    rw [hstart, List.reverse_append,
      List.dropWhile_append_of_pos fun c hc => hafter c (List.mem_reverse.1 hc),
      dropWhile_isBlank_eq_self fun c hc => htext c (List.mem_reverse.1 hc), List.reverse_reverse]

end MergedWork.Text

namespace MergedWork.Hex

variable {c : Char} {v : Nat} {text : List Char} {bs : Bytes}

/-- The text consists of the digits of the bytes, with letters in either case. -/
def Spells (text : List Char) (bs : Bytes) : Prop := text.map Char.toLower = (encode bs).toList

/-! ## Digits -/

theorem toNat_lt_of_toLower (hv : v < 16) (h : c.toLower = Nat.digitChar v) : c.toNat < 128 := by
  have hdigit : ∀ v < 16, (Nat.digitChar v).toNat < 128 := by decide
  have hlt := hdigit v hv
  rw [← h] at hlt
  unfold Char.toLower at hlt
  split at hlt
  · -- A letter that is changed is one of the capitals.
    next hcapital =>
      have hle : c.toNat ≤ 90 := UInt32.le_iff_toNat_le.1 hcapital.2
      omega
  · exact hlt

theorem digit?_of_toLower (hv : v < 16) (h : c.toLower = Nat.digitChar v) :
    digit? (UInt8.ofNat c.toNat) = some v ∧ Text.isBlank c = false := by
  have hall : ∀ n < 128, ∀ v < 16, (Char.ofNat n).toLower = Nat.digitChar v →
      digit? (UInt8.ofNat n) = some v ∧ Text.isBlank (Char.ofNat n) = false := by
    decide +kernel
  have hc := hall c.toNat (toNat_lt_of_toLower hv h) v hv
  rw [Char.ofNat_toNat] at hc
  exact hc h

/-! ## Texts -/

theorem spells_nil_iff : Spells text [] ↔ text = [] := by
  simp [Spells, encode]

theorem spells_cons_iff {b : UInt8} :
    Spells text (b :: bs) ↔ ∃ high low rest, text = high :: low :: rest ∧
      high.toLower = Nat.digitChar (b.toNat / 16) ∧ low.toLower = Nat.digitChar (b.toNat % 16) ∧
        Spells rest bs := by
  simp [Spells, encode, digits, List.map_eq_cons_iff]

theorem spells_encode (bs : Bytes) : Spells (encode bs).toList bs := by
  have hlower : ∀ v < 16, (Nat.digitChar v).toLower = Nat.digitChar v := by decide
  rw [Spells, encode, String.toList_ofList, List.map_flatMap]
  refine List.flatMap_congr fun b _ => ?_
  have hb := b.toNat_lt
  rw [digits, List.map_cons, List.map_singleton, hlower _ (by omega), hlower _ (by omega)]

theorem Spells.exists_toLower_eq (h : Spells text bs) (hc : c ∈ text) :
    ∃ v < 16, c.toLower = Nat.digitChar v := by
  have hmem : c.toLower ∈ (encode bs).toList := by
    rw [← h]
    exact List.mem_map_of_mem hc
  rw [encode, String.toList_ofList, List.mem_flatMap] at hmem
  obtain ⟨b, -, hmem⟩ := hmem
  have hb := b.toNat_lt
  rw [digits, List.mem_pair] at hmem
  rcases hmem with hhigh | hlow
  · exact ⟨b.toNat / 16, by omega, hhigh⟩
  · exact ⟨b.toNat % 16, by omega, hlow⟩

/-- A text that spells bytes has plain characters only, and no blanks. -/
theorem Spells.forall_mem (h : Spells text bs) :
    ∀ c ∈ text, c.toNat < 128 ∧ Text.isBlank c = false := by
  intro c hc
  obtain ⟨v, hv, hlower⟩ := h.exists_toLower_eq hc
  exact ⟨toNat_lt_of_toLower hv hlower, (digit?_of_toLower hv hlower).2⟩

theorem utf8_eq_flatMap (text : List Char) :
    utf8 (String.ofList text) = text.flatMap String.utf8EncodeChar := by
  rw [utf8, String.toUTF8_eq_toByteArray, String.toByteArray_ofList, List.utf8Encode,
    List.data_toByteArray]

theorem utf8EncodeChar_of_lt (hc : c.toNat < 128) :
    String.utf8EncodeChar c = [UInt8.ofNat c.toNat] :=
  if_pos (Nat.le_of_lt_succ hc)

/-- A text of plain characters has one byte for each of them. -/
theorem utf8_ofList (htext : ∀ c ∈ text, c.toNat < 128) :
    utf8 (String.ofList text) = text.map fun c => UInt8.ofNat c.toNat := by
  rw [utf8_eq_flatMap, List.flatMap_congr fun c hc => utf8EncodeChar_of_lt (htext c hc),
    ← List.map_eq_flatMap]

theorem decodeFrom_of_spells (h : Spells text bs) (index : Nat) :
    decodeFrom index (text.map fun c => UInt8.ofNat c.toNat) = .ok bs := by
  induction bs generalizing text index with
  | nil =>
    rw [spells_nil_iff.1 h]
    rfl
  | cons b bs ih =>
    obtain ⟨high, low, rest, rfl, hhigh, hlow, hrest⟩ := spells_cons_iff.1 h
    have hb := b.toNat_lt
    have hdiv : b.toNat / 16 < 16 := by omega
    have hmod : b.toNat % 16 < 16 := by omega
    have hbyte : UInt8.ofNat (16 * (b.toNat / 16) + b.toNat % 16) = b := by
      rw [Nat.div_add_mod, UInt8.ofNat_toNat]
    rw [List.map_cons, List.map_cons, decodeFrom, digit, digit, (digit?_of_toLower hdiv hhigh).1,
      (digit?_of_toLower hmod hlow).1, ih hrest]
    change Except.ok (UInt8.ofNat (16 * (b.toNat / 16) + b.toNat % 16) :: bs) = _
    rw [hbyte]

theorem length_of_spells (h : Spells text bs) : text.length = 2 * bs.length := by
  induction bs generalizing text with
  | nil =>
    rw [spells_nil_iff.1 h]
    rfl
  | cons b bs ih =>
    obtain ⟨high, low, rest, rfl, -, -, hrest⟩ := spells_cons_iff.1 h
    simp only [List.length_cons, ih hrest]
    omega

theorem decode_of_spells (h : Spells text bs) : decode (utf8 (String.ofList text)) = .ok bs := by
  have hbytes := utf8_ofList fun c hc => (h.forall_mem c hc).1
  have hlength := length_of_spells h
  rw [decode, hbytes, if_neg (by rw [List.length_map]; omega)]
  exact decodeFrom_of_spells h 0

/-! ## Bytes that are no digits -/

/-- A digit, with a letter in either case. -/
def IsDigit (c : Char) : Prop := '0' ≤ c ∧ c ≤ '9' ∨ 'a' ≤ c ∧ c ≤ 'f' ∨ 'A' ≤ c ∧ c ≤ 'F'
  deriving Decidable

theorem isSome_digit?_iff (b : UInt8) : (digit? b).isSome = true ↔ IsDigit (HexError.shown b) := by
  have hall : ∀ n < 256, (digit? (UInt8.ofNat n)).isSome = true ↔ IsDigit (Char.ofNat n) := by
    decide +kernel
  have hb := hall b.toNat b.toNat_lt
  rwa [UInt8.ofNat_toNat] at hb

/-- A text that spells bytes consists of digits. -/
theorem Spells.isDigit (h : Spells text bs) : ∀ c ∈ text, IsDigit c := by
  intro c hc
  obtain ⟨v, hv, hlower⟩ := h.exists_toLower_eq hc
  have hplain := toNat_lt_of_toLower hv hlower
  have hsome : (digit? (UInt8.ofNat c.toNat)).isSome = true := by
    rw [(digit?_of_toLower hv hlower).1]
    rfl
  have hdigit := (isSome_digit?_iff _).1 hsome
  rwa [HexError.shown, UInt8.toNat_ofNat', Nat.mod_eq_of_lt (by omega), Char.ofNat_toNat] at hdigit

/-- The first byte that is no digit stands at offset `k`. -/
structure FirstOther (text : Bytes) (k : Nat) (b : UInt8) : Prop where
  getElem?_eq : text[k]? = some b
  not_isDigit : ¬ IsDigit (HexError.shown b)
  before : ∀ c ∈ text.take k, IsDigit (HexError.shown c)

theorem firstOther_cons_zero_iff {b c : UInt8} {text : Bytes} :
    FirstOther (c :: text) 0 b ↔ c = b ∧ ¬ IsDigit (HexError.shown b) := by
  constructor
  · intro h
    exact ⟨Option.some.inj h.getElem?_eq, h.not_isDigit⟩
  · rintro ⟨rfl, hc⟩
    exact ⟨rfl, hc, fun _ hmem => by cases hmem⟩

theorem firstOther_cons_succ_iff {b c : UInt8} {text : Bytes} {k : Nat} :
    FirstOther (c :: text) (k + 1) b ↔ IsDigit (HexError.shown c) ∧ FirstOther text k b := by
  constructor
  · rintro ⟨hb, hother, hbefore⟩
    rw [List.take_succ_cons, List.forall_mem_cons] at hbefore
    exact ⟨hbefore.1, hb, hother, hbefore.2⟩
  · rintro ⟨hc, hb, hother, hbefore⟩
    exact ⟨hb, hother, by rw [List.take_succ_cons, List.forall_mem_cons]; exact ⟨hc, hbefore⟩⟩

theorem exists_firstOther {text : Bytes} (h : ¬ ∀ b ∈ text, IsDigit (HexError.shown b)) :
    ∃ k b, FirstOther text k b := by
  induction text with
  | nil => exact absurd (fun _ hmem => by cases hmem) h
  | cons c text ih =>
    by_cases hc : IsDigit (HexError.shown c)
    · rw [List.forall_mem_cons, not_and] at h
      obtain ⟨k, b, hfirst⟩ := ih (h hc)
      exact ⟨k + 1, b, firstOther_cons_succ_iff.2 ⟨hc, hfirst⟩⟩
    · exact ⟨0, c, firstOther_cons_zero_iff.2 ⟨rfl, hc⟩⟩

theorem digit_of_isDigit {b : UInt8} (hb : IsDigit (HexError.shown b)) (index : Nat) :
    ∃ v, digit index b = .ok v := by
  obtain ⟨v, hv⟩ := Option.isSome_iff_exists.1 ((isSome_digit?_iff b).2 hb)
  exact ⟨v, by rw [digit, hv]⟩

theorem digit_of_not_isDigit {b : UInt8} (hb : ¬ IsDigit (HexError.shown b)) (index : Nat) :
    digit index b = .error (.invalidCharacter b index) := by
  have hnone : digit? b = none := by simpa using mt (isSome_digit?_iff b).1 hb
  rw [digit, hnone]

/-- Behind two digits, reading goes on with what follows them. -/
theorem decodeFrom_cons_cons {high low : UInt8} (hhigh : IsDigit (HexError.shown high))
    (hlow : IsDigit (HexError.shown low)) (rest : Bytes) (index : Nat) :
    ∃ b, decodeFrom index (high :: low :: rest) =
      (decodeFrom (index + 2) rest).map (b :: ·) := by
  obtain ⟨h, hh⟩ := digit_of_isDigit hhigh index
  obtain ⟨l, hl⟩ := digit_of_isDigit hlow (index + 1)
  refine ⟨UInt8.ofNat (16 * h + l), ?_⟩
  rw [decodeFrom, hh, hl]
  rfl

theorem exists_decodeFrom {text : Bytes} (heven : text.length % 2 = 0)
    (hdigits : ∀ b ∈ text, IsDigit (HexError.shown b)) (index : Nat) :
    ∃ bs, decodeFrom index text = .ok bs ∧ 2 * bs.length = text.length := by
  induction text using List.twoStepInduction generalizing index with
  | nil => exact ⟨[], rfl, rfl⟩
  | singleton b => cases heven
  | cons_cons high low rest ih _ =>
    simp only [List.forall_mem_cons] at hdigits
    obtain ⟨hhigh, hlow, hrest⟩ := hdigits
    obtain ⟨b, heq⟩ := decodeFrom_cons_cons hhigh hlow rest index
    rw [List.length_cons, List.length_cons] at heven
    obtain ⟨bs, hbs, hlength⟩ := ih (by omega) hrest (index + 2)
    refine ⟨b :: bs, by rw [heq, hbs]; rfl, ?_⟩
    simp only [List.length_cons]
    omega

/-- Of an even number of bytes, the first that is no digit is reported, with its offset. -/
theorem decodeFrom_of_firstOther {text : Bytes} {k : Nat} {b : UInt8}
    (heven : text.length % 2 = 0) (hfirst : FirstOther text k b) (index : Nat) :
    decodeFrom index text = .error (.invalidCharacter b (index + k)) := by
  induction text using List.twoStepInduction generalizing index k with
  | nil => cases hfirst.getElem?_eq
  | singleton b => cases heven
  | cons_cons high low rest ih _ =>
    match k with
    | 0 =>
      obtain ⟨rfl, hhigh⟩ := firstOther_cons_zero_iff.1 hfirst
      rw [decodeFrom, digit_of_not_isDigit hhigh]
      rfl
    | 1 =>
      obtain ⟨hhigh, hfirst⟩ := firstOther_cons_succ_iff.1 hfirst
      obtain ⟨rfl, hlow⟩ := firstOther_cons_zero_iff.1 hfirst
      obtain ⟨h, hh⟩ := digit_of_isDigit hhigh index
      rw [decodeFrom, hh, digit_of_not_isDigit hlow]
      rfl
    | k + 2 =>
      obtain ⟨hhigh, hfirst⟩ := firstOther_cons_succ_iff.1 hfirst
      obtain ⟨hlow, hfirst⟩ := firstOther_cons_succ_iff.1 hfirst
      obtain ⟨c, heq⟩ := decodeFrom_cons_cons hhigh hlow rest index
      rw [List.length_cons, List.length_cons] at heven
      rw [heq, ih (by omega) hfirst (index + 2), Nat.add_assoc, Nat.add_comm 2]
      rfl

/-! ## Which texts are read as given bytes -/

/-- A character that is not plain has a first byte that no plain character has. -/
theorem exists_first_byte (hc : 128 ≤ c.toNat) :
    ∃ b bs, String.utf8EncodeChar c = b :: bs ∧ 128 ≤ b.toNat := by
  have hval : c.val.toNat = c.toNat := rfl
  simp only [String.utf8EncodeChar, hval]
  split_ifs with hone
  · omega
  all_goals
    refine ⟨_, _, rfl, ?_⟩
    rw [UInt8.toNat_ofNat']
    omega

theorem lt_of_forall_utf8 (h : ∀ b ∈ utf8 (String.ofList text), b.toNat < 128) :
    ∀ c ∈ text, c.toNat < 128 := by
  intro c hc
  by_contra hlarge
  obtain ⟨b, bs, hbytes, hb⟩ := exists_first_byte (Nat.le_of_not_lt hlarge)
  have hmem : b ∈ utf8 (String.ofList text) := by
    rw [utf8_eq_flatMap, List.mem_flatMap]
    exact ⟨c, hc, by rw [hbytes]; exact List.mem_cons_self⟩
  exact Nat.not_lt_of_le hb (h b hmem)

/-- A text whose bytes start with a plain one starts with that character. -/
theorem exists_of_utf8_eq_cons {b : UInt8} (hb : b.toNat < 128)
    (h : utf8 (String.ofList text) = b :: bs) :
    ∃ rest, text = Char.ofNat b.toNat :: rest ∧ utf8 (String.ofList rest) = bs := by
  rw [utf8_eq_flatMap] at h
  cases text with
  | nil => cases h
  | cons c rest =>
    rw [List.flatMap_cons] at h
    by_cases hc : c.toNat < 128
    · rw [utf8EncodeChar_of_lt hc, List.singleton_append, List.cons.injEq] at h
      obtain ⟨rfl, hrest⟩ := h
      rw [UInt8.toNat_ofNat', Nat.mod_eq_of_lt (by omega), Char.ofNat_toNat]
      exact ⟨rest, rfl, by rw [utf8_eq_flatMap, hrest]⟩
    · obtain ⟨b', bs', hbytes, hlarge⟩ := exists_first_byte (Nat.le_of_not_lt hc)
      rw [hbytes, List.cons_append, List.cons.injEq] at h
      rw [h.1] at hlarge
      exact absurd hb (Nat.not_lt_of_le hlarge)

theorem toLower_of_digit? (hc : c.toNat < 128) (h : digit? (UInt8.ofNat c.toNat) = some v) :
    v < 16 ∧ c.toLower = Nat.digitChar v := by
  have hall : ∀ n < 128, ∀ v ∈ digit? (UInt8.ofNat n),
      v < 16 ∧ (Char.ofNat n).toLower = Nat.digitChar v := by
    decide +kernel
  have hc' := hall c.toNat hc v h
  rwa [Char.ofNat_toNat] at hc'

/-- What is read from two digits and more is a byte and what is read behind them. -/
theorem exists_of_decodeFrom_cons_cons {high low : UInt8} {rest : Bytes} {index : Nat}
    (h : decodeFrom index (high :: low :: rest) = .ok bs) :
    ∃ u v cs, digit? high = some u ∧ digit? low = some v ∧
      decodeFrom (index + 2) rest = .ok cs ∧ bs = UInt8.ofNat (16 * u + v) :: cs := by
  rw [decodeFrom, digit, digit] at h
  cases hu : digit? high with
  | none => rw [hu] at h; cases h
  | some u =>
    cases hv : digit? low with
    | none => rw [hu, hv] at h; cases h
    | some v =>
      cases hrest : decodeFrom (index + 2) rest with
      | error e => rw [hu, hv, hrest] at h; cases h
      | ok cs =>
        rw [hu, hv, hrest] at h
        cases h
        exact ⟨u, v, cs, rfl, rfl, rfl, rfl⟩

theorem spells_of_decodeFrom (hplain : ∀ c ∈ text, c.toNat < 128) {index : Nat}
    (h : decodeFrom index (text.map fun c => UInt8.ofNat c.toNat) = .ok bs) : Spells text bs := by
  induction text using List.twoStepInduction generalizing index bs with
  | nil =>
    cases h
    exact spells_nil_iff.2 rfl
  | singleton c => cases h
  | cons_cons high low rest ih _ =>
    simp only [List.forall_mem_cons] at hplain
    obtain ⟨hhigh, hlow, hrest⟩ := hplain
    obtain ⟨u, v, cs, hu, hv, hread, rfl⟩ := exists_of_decodeFrom_cons_cons h
    obtain ⟨hu', hhigh'⟩ := toLower_of_digit? hhigh hu
    obtain ⟨hv', hlow'⟩ := toLower_of_digit? hlow hv
    have hbyte : (UInt8.ofNat (16 * u + v)).toNat = 16 * u + v := by
      rw [UInt8.toNat_ofNat']
      omega
    refine spells_cons_iff.2 ⟨high, low, rest, rfl, ?_, ?_, ih hrest hread⟩
    · rw [hbyte, hhigh', show (16 * u + v) / 16 = u by omega]
    · rw [hbyte, hlow', show (16 * u + v) % 16 = v by omega]

theorem toNat_lt_of_isDigit {b : UInt8} (hb : IsDigit (HexError.shown b)) : b.toNat < 128 := by
  have hall : ∀ n < 256, IsDigit (Char.ofNat n) → n < 128 := by decide +kernel
  exact hall b.toNat b.toNat_lt hb

/-- A text that is read as some bytes spells them. -/
theorem spells_of_decode (h : decode (utf8 (String.ofList text)) = .ok bs) : Spells text bs := by
  rw [decode] at h
  split_ifs at h with hodd
  have hdigits : ∀ b ∈ utf8 (String.ofList text), IsDigit (HexError.shown b) := by
    by_contra hother
    obtain ⟨k, b, hfirst⟩ := exists_firstOther hother
    cases (decodeFrom_of_firstOther (by omega) hfirst 0).symm.trans h
  have hplain := lt_of_forall_utf8 fun b hb => toNat_lt_of_isDigit (hdigits b hb)
  rw [utf8_ofList hplain] at h
  exact spells_of_decodeFrom hplain h

end MergedWork.Hex

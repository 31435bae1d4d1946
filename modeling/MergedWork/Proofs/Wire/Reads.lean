import MergedWork.Wire.CompactSize
import MergedWork.Proofs.Bytes.Integers
import Mathlib.Tactic.Common

/-!
# Readers and the form that they read

`Reader.Reads r fits form` says that a reader finds a value exactly if the value fits and its form
stands in front of the input, and that it leaves what stands behind. So the reader takes back what
was written, and takes nothing that is written in another way. A sequence of readers finds its
values one after the other (`run_bind_eq_ok_iff`), so that what holds of the parts of an object
gives what holds of the object.
-/

namespace MergedWork.Reader

variable {α β : Type} {r : Reader α} {fits : α → Prop} {form : α → Bytes} {input rest : Bytes}

/-- The reader finds the values that fit, each in its form, and takes nothing but this form. -/
def Reads (r : Reader α) (fits : α → Prop) (form : α → Bytes) : Prop :=
  ∀ input a rest, r.run input = (.ok a, rest) ↔ fits a ∧ input = form a ++ rest

theorem Reads.run_iff (h : r.Reads fits form) {a : α} :
    r.run input = (.ok a, rest) ↔ fits a ∧ input = form a ++ rest :=
  h input a rest

/-- Values that fit are told apart by their forms. -/
theorem Reads.eq_of_form_eq (h : r.Reads fits form) {a b : α} (ha : fits a) (hb : fits b)
    (heq : form a = form b) : a = b := by
  have hreada : r.run (form a ++ []) = (.ok a, []) := h.run_iff.2 ⟨ha, rfl⟩
  have hreadb : r.run (form b ++ []) = (.ok b, []) := h.run_iff.2 ⟨hb, rfl⟩
  rw [heq, hreadb] at hreada
  cases hreada
  rfl

/-! ## Sequences of readers -/

theorem run_pure_eq_ok_iff {a b : α} :
    (pure a : Reader α).run input = (.ok b, rest) ↔ a = b ∧ input = rest := by
  rw [run_pure, Prod.mk.injEq, Except.ok.injEq]

theorem run_bind_eq_ok_iff {f : α → Reader β} {b : β} :
    (r >>= f).run input = (.ok b, rest) ↔
      ∃ a mid, r.run input = (.ok a, mid) ∧ (f a).run mid = (.ok b, rest) := by
  rw [run_bind]
  rcases r.run input with ⟨e | a, mid⟩ <;> simp

/-- A reader whose result is put into another type reads the same forms. -/
theorem Reads.map (h : r.Reads fits form) (g : α → β) {fits' : β → Prop} {form' : β → Bytes}
    (hfits : ∀ b, fits' b ↔ ∃ a, fits a ∧ g a = b)
    (hform : ∀ a, fits a → form' (g a) = form a) :
    Reads (do return g (← r)) fits' form' := by
  intro input b rest
  simp only [run_bind_eq_ok_iff, h.run_iff, run_pure_eq_ok_iff, hfits]
  constructor
  · rintro ⟨a, _, ⟨ha, rfl⟩, rfl, rfl⟩
    exact ⟨⟨a, ha, rfl⟩, by rw [hform a ha]⟩
  · rintro ⟨⟨a, ha, rfl⟩, rfl⟩
    exact ⟨a, rest, ⟨ha, by rw [hform a ha]⟩, rfl, rfl⟩

/-! ## Bytes and integers -/

theorem run_bytes_eq_ok_iff {n : Nat} {bs : Bytes} :
    (bytes n).run input = (.ok bs, rest) ↔ bs.length = n ∧ input = bs ++ rest := by
  simp only [run, bytes, Bytes.hasAtLeast_iff]
  split_ifs with hlength
  · rw [Prod.mk.injEq, Except.ok.injEq]
    constructor
    · rintro ⟨rfl, rfl⟩
      exact ⟨List.length_take_of_le hlength, (List.take_append_drop n input).symm⟩
    · rintro ⟨rfl, rfl⟩
      exact ⟨List.take_left, List.drop_left⟩
  · refine iff_of_false (fun h => by cases h) ?_
    rintro ⟨rfl, rfl⟩
    exact hlength (List.length_append ▸ Nat.le_add_right _ _)

theorem reads_number (width : Nat) :
    (number width).Reads (· < 256 ^ width) (Bytes.ofNat width) := by
  intro input n rest
  simp only [number, run_bind_eq_ok_iff, run_bytes_eq_ok_iff, run_pure_eq_ok_iff]
  constructor
  · rintro ⟨bs, _, ⟨rfl, rfl⟩, rfl, rfl⟩
    exact ⟨Bytes.toNat_lt bs, by rw [Bytes.ofNat_toNat]⟩
  · rintro ⟨hn, rfl⟩
    refine ⟨Bytes.ofNat width n, rest, ⟨Bytes.length_ofNat width n, rfl⟩, ?_, rfl⟩
    rw [Bytes.toNat_ofNat, Nat.mod_eq_of_lt hn]

theorem reads_word32 : word32.Reads (fun _ => True) Wire.word32 := by
  refine (reads_number 4).map UInt32.ofNat (fun w => iff_of_true trivial ?_) fun n hn => ?_
  · exact ⟨w.toNat, w.toNat_lt, UInt32.ofNat_toNat⟩
  · rw [Wire.word32, UInt32.toNat_ofNat_of_lt' hn]

theorem reads_word64 : word64.Reads (fun _ => True) Wire.word64 := by
  refine (reads_number 8).map UInt64.ofNat (fun w => iff_of_true trivial ?_) fun n hn => ?_
  · exact ⟨w.toNat, w.toNat_lt, UInt64.ofNat_toNat⟩
  · rw [Wire.word64, UInt64.toNat_ofNat_of_lt' hn]

theorem reads_int32 : int32.Reads (fun _ => True) Wire.int32 :=
  reads_word32.map UInt32.toInt32
    (fun i => iff_of_true trivial ⟨i.toUInt32, trivial, Int32.toInt32_toUInt32 i⟩) fun _ _ => rfl

theorem reads_int64 : int64.Reads (fun _ => True) Wire.int64 :=
  reads_word64.map UInt64.toInt64
    (fun i => iff_of_true trivial ⟨i.toUInt64, trivial, Int64.toInt64_toUInt64 i⟩) fun _ _ => rfl

theorem reads_digest : digest.Reads (fun _ => True) Digest.bytes := by
  intro input d rest
  simp only [run, digest, true_and]
  by_cases hlength : (input.take 32).length = 32
  · simp only [Digest.ofBytes?, dif_pos hlength, Prod.mk.injEq, Except.ok.injEq]
    constructor
    · rintro ⟨rfl, rfl⟩
      exact (List.take_append_drop 32 input).symm
    · rintro rfl
      exact ⟨Digest.ext (List.take_left' d.length_bytes), List.drop_left' d.length_bytes⟩
  · simp only [Digest.ofBytes?, dif_neg hlength]
    refine iff_of_false (fun h => by cases h) ?_
    rintro rfl
    exact hlength (by rw [List.take_left' d.length_bytes, d.length_bytes])

/-! ## Compact sizes -/

theorem length_compactSize_pos (n : Nat) : 0 < (Wire.compactSize n).length := by
  unfold Wire.compactSize
  split_ifs <;> simp

theorem reads_wideSize (width least : Nat) :
    (wideSize width least).Reads (fun n => least ≤ n ∧ n < 256 ^ width) (Bytes.ofNat width) := by
  intro input n rest
  simp only [wideSize, run_bind_eq_ok_iff, (reads_number width).run_iff]
  constructor
  · rintro ⟨m, mid, ⟨hm, rfl⟩, hrun⟩
    split_ifs at hrun with hleast
    · cases hrun
    · obtain ⟨rfl, rfl⟩ := run_pure_eq_ok_iff.1 hrun
      exact ⟨⟨Nat.le_of_not_lt hleast, hm⟩, rfl⟩
  · rintro ⟨⟨hleast, hn⟩, rfl⟩
    refine ⟨n, rest, ⟨hn, rfl⟩, ?_⟩
    rw [if_neg (Nat.not_lt_of_le hleast)]
    rfl

/-- Each size below `2 ^ 64` is read from its form, and no size is read from anything else. -/
theorem reads_compactSize : compactSize.Reads (· < 2 ^ 64) Wire.compactSize := by
  intro input n rest
  simp only [compactSize, run_bind_eq_ok_iff, (reads_number 1).run_iff]
  constructor
  · rintro ⟨marker, mid, ⟨hmarker, rfl⟩, hrun⟩
    split at hrun
    · obtain ⟨⟨hleast, hn⟩, rfl⟩ := (reads_wideSize 2 0xfd).run_iff.1 hrun
      refine ⟨by omega, ?_⟩
      rw [Wire.compactSize, if_neg (by omega), if_pos (by omega)]
      rfl
    · obtain ⟨⟨hleast, hn⟩, rfl⟩ := (reads_wideSize 4 0x10000).run_iff.1 hrun
      refine ⟨by omega, ?_⟩
      rw [Wire.compactSize, if_neg (by omega), if_neg (by omega), if_pos (by omega)]
      rfl
    · obtain ⟨⟨hleast, hn⟩, rfl⟩ := (reads_wideSize 8 0x100000000).run_iff.1 hrun
      refine ⟨by omega, ?_⟩
      rw [Wire.compactSize, if_neg (by omega), if_neg (by omega), if_neg (by omega)]
      rfl
    next hfd hfe hff =>
      obtain ⟨rfl, rfl⟩ := run_pure_eq_ok_iff.1 hrun
      rw [imp_false] at hfd hfe hff
      refine ⟨by omega, ?_⟩
      rw [Wire.compactSize, if_pos (by omega)]
      rfl
  · rintro ⟨hn, rfl⟩
    rw [Wire.compactSize]
    split_ifs with h1 h2 h3
    · refine ⟨n, rest, ⟨by omega, rfl⟩, ?_⟩
      split
      · omega
      · omega
      · omega
      · rfl
    · refine ⟨0xfd, _, ⟨by decide, rfl⟩, ?_⟩
      exact (reads_wideSize 2 0xfd).run_iff.2 ⟨⟨by omega, by omega⟩, rfl⟩
    · refine ⟨0xfe, _, ⟨by decide, rfl⟩, ?_⟩
      exact (reads_wideSize 4 0x10000).run_iff.2 ⟨⟨by omega, by omega⟩, rfl⟩
    · refine ⟨0xff, _, ⟨by decide, rfl⟩, ?_⟩
      exact (reads_wideSize 8 0x100000000).run_iff.2 ⟨⟨by omega, by omega⟩, rfl⟩

/-! ## Lengths and lists -/

theorem reads_length : length.Reads (· ≤ Wire.maxLength) Wire.compactSize := by
  intro input n rest
  simp only [length, run_bind_eq_ok_iff, reads_compactSize.run_iff]
  constructor
  · rintro ⟨m, mid, ⟨-, rfl⟩, hrun⟩
    split_ifs at hrun with hlong
    · cases hrun
    · obtain ⟨rfl, rfl⟩ := run_pure_eq_ok_iff.1 hrun
      exact ⟨Nat.le_of_not_lt hlong, rfl⟩
  · rintro ⟨hn, rfl⟩
    have hword : n < 2 ^ 64 := Nat.lt_of_le_of_lt hn (by decide)
    refine ⟨n, rest, ⟨hword, rfl⟩, ?_⟩
    rw [if_neg (Nat.not_lt_of_le hn)]
    rfl

theorem reads_varBytes : varBytes.Reads (·.length ≤ Wire.maxLength) Wire.varBytes := by
  intro input bs rest
  simp only [varBytes, run_bind_eq_ok_iff, reads_length.run_iff, run_bytes_eq_ok_iff]
  constructor
  · rintro ⟨_, _, ⟨hlength, rfl⟩, rfl, rfl⟩
    exact ⟨hlength, by rw [Wire.varBytes, List.append_assoc]⟩
  · rintro ⟨hlength, rfl⟩
    exact ⟨bs.length, bs ++ rest, ⟨hlength, by rw [Wire.varBytes, List.append_assoc]⟩, rfl, rfl⟩

theorem Reads.times (h : r.Reads fits form) (count : Nat) :
    (times r count).Reads (fun as => as.length = count ∧ ∀ a ∈ as, fits a) (List.flatMap form) := by
  induction count with
  | zero =>
    intro input as rest
    rw [Reader.times, run_pure_eq_ok_iff]
    constructor
    · rintro ⟨rfl, rfl⟩
      exact ⟨⟨rfl, nofun⟩, rfl⟩
    · rintro ⟨⟨hlength, -⟩, rfl⟩
      rw [List.eq_nil_of_length_eq_zero hlength]
      exact ⟨rfl, rfl⟩
  | succ count ih =>
    intro input as rest
    simp only [Reader.times, run_bind_eq_ok_iff, h.run_iff, ih.run_iff, run_pure_eq_ok_iff]
    constructor
    · rintro ⟨a, _, ⟨ha, rfl⟩, as, _, ⟨⟨hlength, has⟩, rfl⟩, rfl, rfl⟩
      exact ⟨⟨congrArg (· + 1) hlength, List.forall_mem_cons.2 ⟨ha, has⟩⟩,
        by rw [List.flatMap_cons, List.append_assoc]⟩
    · rintro ⟨⟨hlength, has⟩, rfl⟩
      obtain ⟨a, as, rfl⟩ := List.exists_cons_of_length_eq_add_one hlength
      obtain ⟨ha, has⟩ := List.forall_mem_cons.1 has
      exact ⟨a, as.flatMap form ++ rest, ⟨ha, by rw [List.flatMap_cons, List.append_assoc]⟩,
        as, rest, ⟨⟨Nat.succ.inj hlength, has⟩, rfl⟩, rfl, rfl⟩

/-- A list that can be read back: it is not too long, and its members fit. -/
def ListFits (fits : α → Prop) (as : List α) : Prop :=
  as.length ≤ Wire.maxLength ∧ ∀ a ∈ as, fits a

theorem Reads.counted (h : r.Reads fits form) :
    (counted r).Reads (ListFits fits) (Wire.counted form) := by
  intro input as rest
  simp only [Reader.counted, run_bind_eq_ok_iff, reads_length.run_iff, (h.times _).run_iff]
  constructor
  · rintro ⟨_, _, ⟨hlength, rfl⟩, ⟨rfl, has⟩, rfl⟩
    exact ⟨⟨hlength, has⟩, by rw [Wire.counted, List.append_assoc]⟩
  · rintro ⟨⟨hlength, has⟩, rfl⟩
    exact ⟨as.length, as.flatMap form ++ rest, ⟨hlength, by rw [Wire.counted, List.append_assoc]⟩,
      ⟨rfl, has⟩, rfl⟩

/-! ## The whole input -/

theorem all_eq_ok_iff {a : α} : r.all input = .ok a ↔ r.run input = (.ok a, []) := by
  rw [all]
  rcases r.run input with ⟨e | b, _ | ⟨c, rest⟩⟩ <;> simp

end MergedWork.Reader

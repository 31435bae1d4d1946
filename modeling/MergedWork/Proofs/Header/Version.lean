import MergedWork.Header
import MergedWork.Proofs.Words

/-!
# Fields of a version word

No two fields of a version word share a bit (`Field.mask_and_mask`), and each change to the word
replaces the bits of one field (`word_edit`). So a field is read back as it was set last, whatever
was done to the others before or after; the base version and the bits without a meaning stay as they
are (`fields_independent`).
-/

namespace MergedWork.Version

variable {α : Type}

/-! ## Fields -/

/-- The fields of a version word. -/
inductive Field
  | base
  | proof
  | algorithm
  | updatesScale
  | spare
  | chainId
  deriving DecidableEq, Repr

/-- The bits of a field. -/
def Field.mask : Field → UInt32
  | base => 0xff
  | proof => 0x100
  | algorithm => 0xe00
  | updatesScale => 0x1000
  | spare => 0xe000
  | chainId => 0xffff0000

theorem Field.mask_and_mask {f g : Field} (h : f ≠ g) : f.mask &&& g.mask = 0 := by
  cases f <;> cases g <;> simp only [ne_eq, not_true_eq_false] at h <;> decide

/-- What a field holds, at its place in the word. -/
def read (v : Version) (f : Field) : UInt32 := v.word &&& f.mask

/-- Bits 13 to 15, which have no meaning. -/
def spare (v : Version) : UInt32 := v.word &&& 0xe000

theorem hasProof_eq (v : Version) : v.hasProof = decide (v.read .proof ≠ 0) := rfl

theorem algorithm_eq (v : Version) :
    v.algorithm = .ofTag (v.read .algorithm >>> 9).toNat :=
  rfl

theorem updatesScale_eq (v : Version) : v.updatesScale = decide (v.read .updatesScale ≠ 0) := rfl

theorem chainId_eq (v : Version) : v.chainId = v.read .chainId >>> 16 := by
  have hlt : v.word.toNat >>> 16 < 2 ^ 16 := by
    rw [Nat.shiftRight_eq_div_pow]
    exact Nat.div_lt_of_lt_mul v.word.toNat_lt
  rw [chainId, read, UInt32.shiftRight_and, ← UInt32.toNat_inj, UInt32.toNat_and,
    UInt32.toNat_shiftRight]
  exact (Nat.and_two_pow_sub_one_of_lt_two_pow hlt).symm

/-! ## Changes -/

/-- A change to one field. -/
inductive Edit
  | algorithm (algorithm : Algorithm)
  | proof (present : Bool)
  | updatesScale
  | chainId (id : UInt32)
  deriving DecidableEq, Repr

namespace Edit

/-- The field that is changed. -/
def field : Edit → Field
  | algorithm _ => .algorithm
  | proof _ => .proof
  | updatesScale => .updatesScale
  | chainId _ => .chainId

/-- What the field holds afterwards, at its place in the word. -/
def bits : Edit → UInt32
  | algorithm a => UInt32.ofNat a.tag <<< 9
  | proof present => if present then 0x100 else 0
  | updatesScale => 0x1000
  | chainId id => id <<< 16

/-- The algorithm that is set. -/
def algorithm? : Edit → Option Algorithm
  | algorithm a => some a
  | _ => none

/-- Whether a proof is said to follow. -/
def proof? : Edit → Option Bool
  | proof present => some present
  | _ => none

/-- Whether the scaling factor is said to be updated. This is not taken back by any change. -/
def updatesScale? : Edit → Option Bool
  | updatesScale => some true
  | _ => none

/-- The chain id that is set: the low 16 bits of the given one. -/
def chainId? : Edit → Option UInt32
  | chainId id => some (id % 0x10000)
  | _ => none

end Edit

/-- The word after a change. -/
def edit (v : Version) : Edit → Version
  | .algorithm a => v.setAlgorithm a
  | .proof present => v.setProof present
  | .updatesScale => v.setUpdatesScale
  | .chainId id => v.setChainId id

/-- The word after changes in the given order. -/
def walk (v : Version) (edits : List Edit) : Version := edits.foldl edit v

/-! ## One change -/

/-- The bits below the chain id are what is left modulo their number. -/
theorem mod_eq_and_not (w : UInt32) : w % (0x10000 : Nat) = w &&& ~~~Field.chainId.mask := by
  have hlt : w.toNat % 2 ^ 16 < 2 ^ 32 := Nat.lt_of_le_of_lt (Nat.mod_le _ _) w.toNat_lt
  rw [← UInt32.toNat_inj, UInt32.toNat_and]
  calc (w % (0x10000 : Nat)).toNat
    _ = w.toNat % 2 ^ 16 := Nat.mod_eq_of_lt hlt
    _ = w.toNat &&& 2 ^ 16 - 1 := (Nat.and_two_pow_sub_one_eq_mod w.toNat 16).symm

theorem shiftLeft_and_mask (w : UInt32) : (w <<< 16) &&& Field.chainId.mask = w <<< 16 := by
  have hmask : Field.chainId.mask = (-1 : UInt32) <<< 16 := by decide
  rw [hmask, ← UInt32.shiftLeft_and, UInt32.and_neg_one]

theorem shiftLeft_shiftRight (w : UInt32) : w <<< 16 >>> 16 = w % 0x10000 := by
  rw [← UInt32.toNat_inj, UInt32.toNat_shiftRight, UInt32.toNat_shiftLeft, UInt32.toNat_mod,
    show (16 : UInt32).toNat % 32 = 16 from rfl, Nat.shiftLeft_eq, Nat.shiftRight_eq_div_pow]
  change w.toNat * 2 ^ 16 % 2 ^ 32 / 2 ^ 16 = w.toNat % 2 ^ 16
  omega

theorem Edit.bits_and_mask (e : Edit) : e.bits &&& e.field.mask = e.bits := by
  cases e with
  | algorithm a => cases a <;> rfl
  | proof present => cases present <;> rfl
  | updatesScale => rfl
  | chainId id => exact shiftLeft_and_mask id

/-- A change replaces the bits of its field. -/
theorem word_edit (v : Version) (e : Edit) :
    (v.edit e).word = Words.replace v.word e.field.mask e.bits := by
  cases e with
  | algorithm a => rw [Words.replace, (Edit.algorithm a).bits_and_mask]; rfl
  | proof present =>
    cases present with
    | true => exact Words.or_eq_replace v.word Field.proof.mask
    | false => exact Words.and_not_eq_replace v.word Field.proof.mask
  | updatesScale => exact Words.or_eq_replace v.word Field.updatesScale.mask
  | chainId id =>
    rw [Words.replace, (Edit.chainId id).bits_and_mask]
    exact congrArg (· ||| id <<< 16) (mod_eq_and_not v.word)

/-- What a field holds after a change. -/
theorem read_edit (v : Version) (e : Edit) (f : Field) :
    (v.edit e).read f = if f = e.field then e.bits else v.read f := by
  rw [read, word_edit]
  split_ifs with h
  · rw [h, Words.replace_and_mask, e.bits_and_mask]
  · exact Words.replace_and_of_and_eq_zero (Field.mask_and_mask h) v.word e.bits

theorem algorithm_edit (v : Version) (e : Edit) :
    (v.edit e).algorithm = e.algorithm?.getD v.algorithm := by
  rw [algorithm_eq, read_edit]
  cases e with
  | algorithm a =>
    change Algorithm.ofTag (UInt32.ofNat a.tag <<< 9 >>> 9).toNat = a
    cases a <;> rfl
  | proof | updatesScale | chainId => rfl

theorem hasProof_edit (v : Version) (e : Edit) : (v.edit e).hasProof = e.proof?.getD v.hasProof := by
  rw [hasProof_eq, read_edit]
  cases e with
  | proof present => cases present <;> rfl
  | algorithm | updatesScale | chainId => rfl

theorem updatesScale_edit (v : Version) (e : Edit) :
    (v.edit e).updatesScale = e.updatesScale?.getD v.updatesScale := by
  rw [updatesScale_eq, read_edit]
  cases e <;> rfl

theorem chainId_edit (v : Version) (e : Edit) : (v.edit e).chainId = e.chainId?.getD v.chainId := by
  rw [chainId_eq, read_edit]
  cases e with
  | chainId id => exact shiftLeft_shiftRight id
  | algorithm | proof | updatesScale => exact v.chainId_eq.symm

theorem base_edit (v : Version) (e : Edit) : (v.edit e).base = v.base := by
  have hfield : .base ≠ e.field := by cases e <;> exact Field.noConfusion
  exact (v.read_edit e .base).trans (if_neg hfield)

theorem spare_edit (v : Version) (e : Edit) : (v.edit e).spare = v.spare := by
  have hfield : .spare ≠ e.field := by cases e <;> exact Field.noConfusion
  exact (v.read_edit e .spare).trans (if_neg hfield)

/-! ## Changes in any order -/

/-- The value that a field is set to last, if it is set. -/
def lastSet (field? : Edit → Option α) (edits : List Edit) : Option α :=
  (edits.filterMap field?).getLast?

/-- What a field holds after any changes follows from what each change does to it. -/
theorem get_walk {get : Version → α} {field? : Edit → Option α}
    (hedit : ∀ v e, get (v.edit e) = (field? e).getD (get v)) (v : Version) (edits : List Edit) :
    get (v.walk edits) = (lastSet field? edits).getD (get v) := by
  induction edits generalizing v with
  | nil => rfl
  | cons e edits ih =>
    have hstep : get (v.walk (e :: edits)) = (lastSet field? edits).getD ((field? e).getD (get v)) := by
      rw [← hedit, ← ih]
      rfl
    rw [hstep, lastSet, lastSet, List.filterMap_cons]
    cases field? e with
    | none => rfl
    | some a => rw [List.getLast?_cons]; rfl

/-- What no change affects is not affected by any number of them. -/
theorem get_walk_of_edit_eq {get : Version → α} (hedit : ∀ v e, get (v.edit e) = get v) (v : Version)
    (edits : List Edit) : get (v.walk edits) = get v := by
  induction edits generalizing v with
  | nil => rfl
  | cons e edits ih => exact (ih (v.edit e)).trans (hedit v e)

/-- After any changes, each field holds what it was set to last, of a chain id the low 16 bits, or
what it held at first if it was not set. The base version and bits 13 to 15 are what they were. -/
theorem fields_independent (v : Version) (edits : List Edit) :
    (v.walk edits).algorithm = (lastSet Edit.algorithm? edits).getD v.algorithm ∧
      (v.walk edits).hasProof = (lastSet Edit.proof? edits).getD v.hasProof ∧
      (v.walk edits).updatesScale = (lastSet Edit.updatesScale? edits).getD v.updatesScale ∧
      (v.walk edits).chainId = (lastSet Edit.chainId? edits).getD v.chainId ∧
      (v.walk edits).base = v.base ∧ (v.walk edits).spare = v.spare := by
  exact ⟨get_walk algorithm_edit v edits, get_walk hasProof_edit v edits,
    get_walk updatesScale_edit v edits, get_walk chainId_edit v edits,
    get_walk_of_edit_eq base_edit v edits, get_walk_of_edit_eq spare_edit v edits⟩

example : (walk ⟨0xffffffff⟩ [.chainId 0x12345, .algorithm .x17, .proof false]).word = 0x2345f8ff := by
  decide

end MergedWork.Version

import MergedWork.Bytes
import Mathlib.Order.Lattice.Nat

/-!
# Occurrences in a byte string

`OccursAt needle bs i` says that `needle` stands in `bs` behind `i` bytes, and `FirstAt` that it
does so nowhere before. `Bytes.find?` gives exactly the first occurrence (`find?_eq_some_iff`), and
nothing exactly if there is none (`find?_eq_none_iff`). Two needles of one length that stand at one
offset are equal (`OccursAt.needle_unique`).
-/

namespace MergedWork.Bytes

variable {needle bs : Bytes} {b : UInt8} {i j : Nat}

/-- The needle stands in a byte string, behind `offset` bytes. -/
def OccursAt (needle bs : Bytes) (offset : Nat) : Prop :=
  ∃ front back, bs = front ++ needle ++ back ∧ front.length = offset

/-- The needle stands at an offset, and nowhere before it. -/
def FirstAt (needle bs : Bytes) (offset : Nat) : Prop :=
  OccursAt needle bs offset ∧ ∀ earlier < offset, ¬ OccursAt needle bs earlier

/-- The offset of the first occurrence; zero if there is none. -/
noncomputable def firstOffset (needle bs : Bytes) : Nat := sInf {i | OccursAt needle bs i}

/-! ## Offsets -/

theorem OccursAt.add_length_le (h : OccursAt needle bs i) : i + needle.length ≤ bs.length := by
  obtain ⟨front, back, rfl, rfl⟩ := h
  simp only [List.length_append]
  omega

theorem occursAt_iff_isPrefix : OccursAt needle bs i ↔ i ≤ bs.length ∧ needle <+: bs.drop i := by
  constructor
  · rintro ⟨front, back, rfl, rfl⟩
    refine ⟨by simp only [List.length_append]; omega, back, ?_⟩
    rw [List.append_assoc, List.drop_left]
  · rintro ⟨hi, back, hback⟩
    refine ⟨bs.take i, back, ?_, List.length_take_of_le hi⟩
    rw [List.append_assoc, hback, List.take_append_drop]

theorem occursAt_zero : OccursAt needle bs 0 ↔ needle <+: bs := by
  rw [occursAt_iff_isPrefix, List.drop_zero]
  exact and_iff_right (Nat.zero_le _)

theorem occursAt_cons_succ : OccursAt needle (b :: bs) (i + 1) ↔ OccursAt needle bs i := by
  rw [occursAt_iff_isPrefix, occursAt_iff_isPrefix, List.length_cons, List.drop_succ_cons,
    Nat.add_le_add_iff_right]

theorem occursAt_drop (hj : j ≤ bs.length) :
    OccursAt needle (bs.drop j) i ↔ OccursAt needle bs (j + i) := by
  rw [occursAt_iff_isPrefix, occursAt_iff_isPrefix, List.drop_drop, List.length_drop]
  exact and_congr_left fun _ => by omega

/-- Two needles of one length at one offset are the same bytes. -/
theorem OccursAt.needle_unique {other : Bytes} (h : OccursAt needle bs i)
    (h' : OccursAt other bs i) (hlen : needle.length = other.length) : needle = other := by
  obtain ⟨front, back, hbs, hfront⟩ := h
  obtain ⟨front', back', hbs', hfront'⟩ := h'
  rw [hbs, List.append_assoc, List.append_assoc] at hbs'
  have hrest := (List.append_inj hbs' (hfront.trans hfront'.symm)).2
  exact (List.append_inj hrest hlen).1

/-! ## First occurrences -/

theorem FirstAt.unique (h : FirstAt needle bs i) (h' : FirstAt needle bs j) : i = j := by
  rcases Nat.lt_trichotomy i j with hlt | rfl | hgt
  · exact absurd h.1 (h'.2 i hlt)
  · rfl
  · exact absurd h'.1 (h.2 j hgt)

theorem firstAt_firstOffset (h : OccursAt needle bs i) :
    FirstAt needle bs (firstOffset needle bs) :=
  ⟨Nat.sInf_mem (s := {i | OccursAt needle bs i}) ⟨i, h⟩,
    fun _ hlt hocc => Nat.notMem_of_lt_sInf hlt hocc⟩

theorem firstAt_cons_succ :
    FirstAt needle (b :: bs) (i + 1) ↔ ¬ needle <+: b :: bs ∧ FirstAt needle bs i := by
  constructor
  · rintro ⟨hocc, hfirst⟩
    refine ⟨fun hpre => hfirst 0 (Nat.succ_pos i) (occursAt_zero.2 hpre),
      occursAt_cons_succ.1 hocc, fun j hj hocc' => ?_⟩
    exact hfirst (j + 1) (Nat.succ_lt_succ hj) (occursAt_cons_succ.2 hocc')
  · rintro ⟨hpre, hocc, hfirst⟩
    refine ⟨occursAt_cons_succ.2 hocc, fun j hj hocc' => ?_⟩
    cases j with
    | zero => exact hpre (occursAt_zero.1 hocc')
    | succ j => exact hfirst j (Nat.lt_of_succ_lt_succ hj) (occursAt_cons_succ.1 hocc')

theorem firstAt_zero : FirstAt needle bs 0 ↔ needle <+: bs := by
  rw [FirstAt, occursAt_zero]
  exact and_iff_left fun j hj => absurd hj (Nat.not_lt_zero j)

theorem find?_eq_some_iff : find? needle bs = some i ↔ FirstAt needle bs i := by
  induction bs generalizing i with
  | nil =>
    cases i with
    | zero => simp [find?, firstAt_zero]
    | succ i =>
      have hno : ¬ FirstAt needle [] (i + 1) := fun h => by
        have := h.1.add_length_le
        simp at this
      simp [find?, hno]
  | cons b bs ih =>
    by_cases hpre : needle <+: b :: bs
    · rw [find?, if_pos (List.isPrefixOf_iff_prefix.2 hpre), Option.some.injEq]
      constructor
      · rintro rfl
        exact firstAt_zero.2 hpre
      · exact fun h => (firstAt_zero.2 hpre).unique h
    · rw [find?, if_neg (fun h => hpre (List.isPrefixOf_iff_prefix.1 h))]
      cases i with
      | zero => simp [firstAt_zero, hpre]
      | succ i => simp [firstAt_cons_succ, hpre, ← ih]

theorem find?_eq_none_iff : find? needle bs = none ↔ ∀ i, ¬ OccursAt needle bs i := by
  constructor
  · intro h i hocc
    have hsome := find?_eq_some_iff.2 (firstAt_firstOffset hocc)
    rw [h] at hsome
    cases hsome
  · intro h
    cases hfind : find? needle bs with
    | none => rfl
    | some i => exact absurd (find?_eq_some_iff.1 hfind).1 (h i)

theorem find?_isSome_iff : (find? needle bs).isSome ↔ ∃ i, OccursAt needle bs i := by
  rw [Option.isSome_iff_ne_none, ne_eq, find?_eq_none_iff, not_forall_not]

end MergedWork.Bytes

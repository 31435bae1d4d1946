import MergedWork.Wire.CompactSize
import Mathlib.Tactic.Common

/-!
# Input that ends too early

A reader looks at the front of its input only. So what it says of an input it also says of every
longer one, and leaves the additional bytes; only that the input ends too early is not said for good
(`Steady`). This holds of the smallest reads, and of all that is put together from them.

If a reader takes an input as a whole, then it finds of every strict prefix that it ends too early
(`Steady.endsEarly_of_cut`), since it could not say anything else of the whole input otherwise.
-/

namespace MergedWork.Reader

variable {α β : Type} {r : Reader α} {f : α → Reader β} {input front : Bytes} {a : α}

/-- The result says that the input ends too early. -/
def EndsEarly (result : Except DecodeError α) : Prop :=
  ∃ needed remaining, result = .error (.unexpectedEnd needed remaining)

/-- What the reader says of an input it says of every longer one, and it leaves what was added,
unless the input ends too early. -/
def Steady (r : Reader α) : Prop :=
  ∀ input more, EndsEarly (r.run input).1 ∨
    r.run (input ++ more) = ((r.run input).1, (r.run input).2 ++ more)

/-! ## Sequences of readers -/

theorem steady_pure (a : α) : (pure a : Reader α).Steady := fun _ _ => Or.inr rfl

theorem steady_fail (e : DecodeError) : (fail e : Reader α).Steady := fun _ _ => Or.inr rfl

theorem Steady.bind (h : r.Steady) (hf : ∀ a, (f a).Steady) : (r >>= f).Steady := by
  intro input more
  have hinput := h input more
  rw [run_bind, run_bind]
  rcases hrun : r.run input with ⟨e | a, rest⟩
  · rw [hrun] at hinput
    rcases hinput with ⟨needed, remaining, heq⟩ | hmore
    · cases heq
      exact Or.inl ⟨needed, remaining, rfl⟩
    · rw [hmore]
      exact Or.inr rfl
  · rw [hrun] at hinput
    rcases hinput with ⟨_, _, heq⟩ | hmore
    · cases heq
    · rw [hmore]
      exact hf a rest more

theorem Steady.map (h : r.Steady) (g : α → β) : Steady (do return g (← r)) :=
  h.bind fun _ => steady_pure _

theorem Steady.times (h : r.Steady) (count : Nat) : (times r count).Steady := by
  induction count with
  | zero => exact steady_pure []
  | succ count ih => exact h.bind fun _ => ih.map _

/-! ## Bytes and integers -/

theorem steady_bytes (n : Nat) : (bytes n).Steady := by
  intro input more
  simp only [run, bytes, Bytes.hasAtLeast_iff, List.length_append]
  by_cases hlength : n ≤ input.length
  · right
    rw [if_pos hlength, if_pos (by omega), List.take_append_of_le_length hlength,
      List.drop_append_of_le_length hlength]
  · left
    rw [if_neg hlength]
    exact ⟨n, input.length, rfl⟩

theorem steady_digest : digest.Steady := by
  intro input more
  simp only [run, digest, Digest.ofBytes?]
  by_cases hlength : 32 ≤ input.length
  · right
    have htake : (input.take 32).length = 32 := List.length_take_of_le hlength
    simp only [List.take_append_of_le_length hlength, List.drop_append_of_le_length hlength,
      dif_pos htake]
  · left
    have htake : (input.take 32).length ≠ 32 := by rw [List.length_take]; omega
    rw [dif_neg htake]
    exact ⟨32, input.length, rfl⟩

theorem steady_number (width : Nat) : (number width).Steady := (steady_bytes width).map _

theorem steady_word32 : word32.Steady := (steady_number 4).map _

theorem steady_int32 : int32.Steady := steady_word32.map _

theorem steady_int64 : int64.Steady := ((steady_number 8).map _).map _

/-! ## Sizes and lists -/

theorem steady_wideSize (width least : Nat) : (wideSize width least).Steady := by
  refine (steady_number width).bind fun n => ?_
  split_ifs
  · exact steady_fail _
  · exact steady_pure n

theorem steady_compactSize : compactSize.Steady := by
  refine (steady_number 1).bind fun marker => ?_
  split
  · exact steady_wideSize 2 0xfd
  · exact steady_wideSize 4 0x10000
  · exact steady_wideSize 8 0x100000000
  · exact steady_pure _

theorem steady_length : length.Steady := by
  refine steady_compactSize.bind fun n => ?_
  split_ifs
  · exact steady_fail _
  · exact steady_pure n

theorem steady_varBytes : varBytes.Steady := steady_length.bind steady_bytes

theorem Steady.counted (h : r.Steady) : (counted r).Steady := steady_length.bind h.times

/-! ## Too few and too many bytes -/

/-- Of an input that it takes as a whole, a reader finds every strict prefix to end too early. -/
theorem Steady.endsEarly_of_cut (h : r.Steady) (hrun : r.run input = (.ok a, []))
    (hfront : front <+: input) (hcut : front ≠ input) : EndsEarly (r.run front).1 := by
  obtain ⟨back, rfl⟩ := hfront
  refine (h front back).resolve_right fun hmore => hcut ?_
  rw [hrun, Prod.mk.injEq] at hmore
  rw [(List.append_eq_nil_iff.1 hmore.2.symm).2, List.append_nil]

theorem EndsEarly.all (h : EndsEarly (r.run input).1) : EndsEarly (r.all input) := by
  obtain ⟨needed, remaining, heq⟩ := h
  refine ⟨needed, remaining, ?_⟩
  rw [Reader.all]
  rcases hrun : r.run input with ⟨result, rest⟩
  rw [hrun] at heq
  cases heq
  rfl

/-- What stands behind an input that is taken as a whole is counted. -/
theorem Steady.all_append (h : r.Steady) (hrun : r.run input = (.ok a, [])) {extra : Bytes}
    (hextra : extra ≠ []) : r.all (input ++ extra) = .error (.trailingBytes extra.length) := by
  rcases h input extra with ⟨needed, remaining, heq⟩ | hmore
  · rw [hrun] at heq
    cases heq
  · rw [hrun] at hmore
    obtain ⟨b, extra, rfl⟩ := List.exists_cons_of_ne_nil hextra
    rw [Reader.all, hmore]
    rfl

end MergedWork.Reader

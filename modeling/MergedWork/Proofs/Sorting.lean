import Mathlib.Data.List.Basic

/-!
# Sorting by a number

A list is sorted by a number that each of its members has. The sort is stable: members with the same
number keep their order (`filter_mergeSort_key`).
-/

namespace MergedWork

variable {α : Type*} (key : α → Nat)

theorem keyLe_trans (a b c : α) (h : decide (key a ≤ key b) = true)
    (h' : decide (key b ≤ key c) = true) : decide (key a ≤ key c) = true :=
  decide_eq_true (Nat.le_trans (of_decide_eq_true h) (of_decide_eq_true h'))

theorem keyLe_total (a b : α) : (decide (key a ≤ key b) || decide (key b ≤ key a)) = true := by
  simp only [Bool.or_eq_true, decide_eq_true_eq]
  exact Nat.le_total _ _

theorem pairwise_mergeSort_key (as : List α) :
    (as.mergeSort fun a b => key a ≤ key b).Pairwise fun a b => key a ≤ key b :=
  (List.pairwise_mergeSort (keyLe_trans key) (keyLe_total key) as).imp of_decide_eq_true

/-- Members with the same number keep their order. -/
theorem filter_mergeSort_key (as : List α) (k : Nat) :
    (as.mergeSort fun a b => key a ≤ key b).filter (fun a => key a = k) =
      as.filter fun a => key a = k := by
  have hlevel : (as.filter fun a => key a = k).Pairwise fun a b =>
      decide (key a ≤ key b) = true := by
    refine List.pairwise_iff_forall_sublist.2 fun {a b} hpair => ?_
    have ha := (List.mem_filter.1 (hpair.subset List.mem_cons_self)).2
    have hb := (List.mem_filter.1 (hpair.subset (List.mem_cons_of_mem a List.mem_cons_self))).2
    simp only [decide_eq_true_eq] at ha hb ⊢
    omega
  have hsub : (as.filter fun a => key a = k).Sublist (as.mergeSort fun a b => key a ≤ key b) :=
    List.sublist_mergeSort (keyLe_trans key) (keyLe_total key) hlevel List.filter_sublist
  have hsub' := hsub.filter fun a => key a = k
  rw [List.filter_filter] at hsub'
  simp only [Bool.and_self] at hsub'
  exact (hsub'.eq_of_length ((as.mergeSort_perm _).filter _).length_eq.symm).symm

end MergedWork

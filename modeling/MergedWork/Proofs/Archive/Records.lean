import MergedWork.Archive
import MergedWork.Proofs.BlockIndex.Tree
import Mathlib.Data.List.Basic

/-!
# Saved records

The records of an archive ascend, so that a record that is put there takes the place of the one with
the same hash, if there is one (`mem_put`). An archive that has no hashes but those of an index
holds, once the index is saved, the records of its nodes and nothing else (`Fits.saveIndex`).
-/

namespace MergedWork.Archive

open BlockIndex

variable {a : Archive} {ix ix' : BlockIndex} {r q : Record} {records : List Record}
  {nodes : List Node}

/-! ## Putting a record in its place -/

/-- The records are in ascending order of the bytes of their hashes. -/
def Ascending (records : List Record) : Prop :=
  records.Pairwise fun r q => r.node.hash.bytes < q.node.hash.bytes

theorem hash_ne_of_lt (h : r.node.hash.bytes < q.node.hash.bytes) : r.node.hash ≠ q.node.hash := by
  intro heq
  rw [heq] at h
  exact List.lt_irrefl _ h

theorem lt_of_not_lt (h : r.node.hash ≠ q.node.hash)
    (hlt : ¬ q.node.hash.bytes < r.node.hash.bytes) : r.node.hash.bytes < q.node.hash.bytes :=
  Std.lt_of_le_of_ne hlt fun heq => h (Digest.ext heq)

theorem mem_put (h : Ascending records) :
    q ∈ put r records ↔ q = r ∨ q ∈ records ∧ q.node.hash ≠ r.node.hash := by
  induction records with
  | nil => simp [put]
  | cons first rest ih =>
    obtain ⟨hfirst, hrest⟩ := List.pairwise_cons.1 h
    rw [put]
    split_ifs with heq hlt
    · have hne : ∀ q ∈ rest, q.node.hash ≠ r.node.hash :=
        fun q hq => heq ▸ (hash_ne_of_lt (hfirst q hq)).symm
      rw [List.mem_cons, List.mem_cons, or_and_right]
      refine or_congr_right ⟨fun hq => Or.inr ⟨hq, hne q hq⟩, ?_⟩
      rintro (⟨rfl, hq⟩ | ⟨hq, -⟩)
      · exact absurd heq hq
      · exact hq
    · have hne : ∀ q ∈ first :: rest, q.node.hash ≠ r.node.hash := by
        intro q hq
        rcases List.mem_cons.1 hq with rfl | hq
        · exact (hash_ne_of_lt hlt).symm
        · exact (hash_ne_of_lt (List.lt_trans hlt (hfirst q hq))).symm
      rw [List.mem_cons]
      exact or_congr_right ⟨fun hq => ⟨hq, hne q hq⟩, And.left⟩
    · rw [List.mem_cons, ih hrest, List.mem_cons, or_and_right, or_left_comm]
      refine or_congr_right (or_congr_left ⟨fun hq => ⟨hq, hq ▸ heq⟩, And.left⟩)

theorem Ascending.put (h : Ascending records) (r : Record) : Ascending (put r records) := by
  induction records with
  | nil => exact List.pairwise_singleton _ r
  | cons first rest ih =>
    obtain ⟨hfirst, hrest⟩ := List.pairwise_cons.1 h
    rw [Archive.put]
    split_ifs with heq hlt
    · rw [heq] at hfirst
      exact List.pairwise_cons.2 ⟨hfirst, hrest⟩
    · refine List.pairwise_cons.2 ⟨fun q hq => ?_, h⟩
      rcases List.mem_cons.1 hq with rfl | hq
      · exact hlt
      · exact List.lt_trans hlt (hfirst q hq)
    · refine List.pairwise_cons.2 ⟨fun q hq => ?_, ih hrest⟩
      rcases (mem_put hrest).1 hq with rfl | ⟨hq, -⟩
      · exact lt_of_not_lt heq hlt
      · exact hfirst q hq

/-! ## Saving an index -/

theorem foldl_put (ix : BlockIndex) (h : Ascending records)
    (hdistinct : nodes.Pairwise fun n m => n.hash ≠ m.hash) :
    Ascending (nodes.foldl (fun rs n => put (record ix n) rs) records) ∧
      ∀ q, q ∈ nodes.foldl (fun rs n => put (record ix n) rs) records ↔
        (∃ n ∈ nodes, q = record ix n) ∨ q ∈ records ∧ ∀ n ∈ nodes, q.node.hash ≠ n.hash := by
  induction nodes generalizing records with
  | nil => exact ⟨h, by simp⟩
  | cons n nodes ih =>
    obtain ⟨hn, hdistinct⟩ := List.pairwise_cons.1 hdistinct
    obtain ⟨hascending, hmem⟩ := ih (h.put (record ix n)) hdistinct
    refine ⟨hascending, fun q => (hmem q).trans ?_⟩
    rw [mem_put h]
    constructor
    · rintro (⟨m, hm, rfl⟩ | ⟨rfl | ⟨hq, hne⟩, hnodes⟩)
      · exact Or.inl ⟨m, List.mem_cons_of_mem n hm, rfl⟩
      · exact Or.inl ⟨n, List.mem_cons_self, rfl⟩
      · exact Or.inr ⟨hq, List.forall_mem_cons.2 ⟨hne, hnodes⟩⟩
    · rintro (⟨m, hm, rfl⟩ | ⟨hq, hnodes⟩)
      · rcases List.mem_cons.1 hm with rfl | hm
        · exact Or.inr ⟨Or.inl rfl, hn⟩
        · exact Or.inl ⟨m, hm, rfl⟩
      · obtain ⟨hne, hnodes⟩ := List.forall_mem_cons.1 hnodes
        exact Or.inr ⟨Or.inr ⟨hq, hne⟩, hnodes⟩

/-- The records of an archive ascend, and have no hashes but those of an index. -/
structure Fits (a : Archive) (ix : BlockIndex) : Prop where
  ascending : Ascending a.records
  known : ∀ r ∈ a.records, ix.contains r.node.hash = true

theorem fits_empty (ix : BlockIndex) : empty.Fits ix := ⟨List.Pairwise.nil, nofun⟩

theorem Fits.mono (h : a.Fits ix)
    (hmono : ∀ hash, ix.contains hash = true → ix'.contains hash = true) : a.Fits ix' :=
  ⟨h.ascending, fun r hr => hmono _ (h.known r hr)⟩

theorem saveIndex_records (a : Archive) (ix : BlockIndex) :
    (a.saveIndex ix).records =
      ix.nodes.toList.foldl (fun rs n => Archive.put (record ix n) rs) a.records := by
  rw [saveIndex, ← Array.foldl_toList]
  generalize ix.nodes.toList = nodes
  induction nodes generalizing a with
  | nil => rfl
  | cons n nodes ih => exact ih _

theorem Fits.saveIndex (h : a.Fits ix) (wf : ix.WellFormed) :
    Ascending (a.saveIndex ix).records ∧
      ∀ r, r ∈ (a.saveIndex ix).records ↔ ∃ i n, ix.get? i = some n ∧ r = record ix n := by
  have hdistinct : ix.nodes.toList.Pairwise fun n m => n.hash ≠ m.hash := by
    rw [List.pairwise_iff_getElem]
    intro i j hi hj hlt heq
    rw [Array.length_toList] at hi hj
    have := wf.hash_inj i j _ _ (Array.getElem?_eq_getElem hi) (Array.getElem?_eq_getElem hj) heq
    omega
  obtain ⟨hascending, hmem⟩ := foldl_put ix h.ascending hdistinct
  rw [saveIndex_records]
  refine ⟨hascending, fun r => (hmem r).trans ?_⟩
  constructor
  · rintro (⟨n, hn, rfl⟩ | ⟨hr, hne⟩)
    · obtain ⟨i, hi⟩ := mem_nodes_iff.1 hn
      exact ⟨i, n, hi, rfl⟩
    · obtain ⟨i, n, hn, hhash⟩ := contains_iff.1 (h.known r hr)
      exact absurd hhash.symm (hne n (mem_nodes_iff.2 ⟨i, hn⟩))
  · rintro ⟨i, n, hn, rfl⟩
    exact Or.inl ⟨n, mem_nodes_iff.2 ⟨i, hn⟩, rfl⟩

end MergedWork.Archive

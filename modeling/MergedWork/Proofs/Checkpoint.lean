import MergedWork.Checkpoint
import MergedWork.Proofs.Sorting
import Mathlib.Data.List.Nodup

/-!
# Looking up checkpoints

A table is made from entries in any order. They are sorted by height and then entered one after the
other, each in place of the last entry if that has its height (`foldl_enter`). So the table ascends
strictly, and holds the last of the given entries of each height (`get?_ofList`), since sorting does
not change the order among these. In an ascending table, a search that halves the part in question
finds what a search from the front does (`search?_eq`).
-/

namespace MergedWork.CheckpointTable

variable {t : CheckpointTable} {entries : List Checkpoint} {c d : Checkpoint} {height k l : Nat}

/-- The heights of the entries ascend strictly. -/
def Ascending (entries : List Checkpoint) : Prop := entries.Pairwise fun c d => c.height < d.height

/-! ## Building a table -/

/-- Puts an entry behind the table, or in place of the last entry if that has the same height. -/
def enter (table : List Checkpoint) (c : Checkpoint) : List Checkpoint :=
  match table.getLast? with
  | some last => if last.height = c.height then table.dropLast ++ [c] else table ++ [c]
  | none => [c]

theorem enter_concat (table : List Checkpoint) (a c : Checkpoint) :
    enter (table ++ [a]) c = if a.height = c.height then table ++ [c] else table ++ [a] ++ [c] := by
  rw [enter, List.getLast?_concat, List.dropLast_concat]

/-- The entries that stay are those that are kept of neighbours with one height. -/
theorem foldl_enter_concat (table : List Checkpoint) (a : Checkpoint) (rest : List Checkpoint) :
    rest.foldl enter (table ++ [a]) = table ++ keepLast (a :: rest) := by
  induction rest generalizing table a with
  | nil => rfl
  | cons b rest ih =>
    rw [List.foldl_cons, enter_concat, keepLast]
    split_ifs with hsame
    · exact ih table b
    · rw [ih (table ++ [a]) b, List.append_assoc, List.singleton_append]

theorem foldl_enter (entries : List Checkpoint) : entries.foldl enter [] = keepLast entries := by
  cases entries with
  | nil => rfl
  | cons a rest => exact foldl_enter_concat [] a rest

theorem mem_heights_keepLast (entries : List Checkpoint) :
    height ∈ (keepLast entries).map Checkpoint.height ↔
      height ∈ entries.map Checkpoint.height := by
  fun_induction keepLast entries with
  | case1 a b rest hsame ih => simp [ih, hsame]
  | case2 a b rest hdiffer ih => rw [List.map_cons, List.mem_cons, ih, ← List.mem_cons]; rfl
  | case3 entries => exact Iff.rfl

theorem lt_height_of_differ {a b : Checkpoint} {rest : List Checkpoint}
    (hsorted : (a :: b :: rest).Pairwise fun c d => c.height ≤ d.height)
    (hdiffer : a.height ≠ b.height) (hc : c ∈ b :: rest) : a.height < c.height := by
  have hfirst : a.height < b.height :=
    Nat.lt_of_le_of_ne (List.rel_of_pairwise_cons hsorted List.mem_cons_self) hdiffer
  rcases List.mem_cons.1 hc with rfl | hrest
  · exact hfirst
  · exact Nat.lt_of_lt_of_le hfirst (List.rel_of_pairwise_cons hsorted.of_cons hrest)

/-- Of ascending heights, those that stay ascend strictly. -/
theorem ascending_keepLast (hsorted : entries.Pairwise fun c d => c.height ≤ d.height) :
    Ascending (keepLast entries) := by
  fun_induction keepLast entries with
  | case1 a b rest hsame ih => exact ih hsorted.of_cons
  | case2 a b rest hdiffer ih =>
    refine List.pairwise_cons.2 ⟨fun c hc => ?_, ih hsorted.of_cons⟩
    have hmem := (mem_heights_keepLast (b :: rest)).1 (List.mem_map_of_mem hc)
    obtain ⟨d, hd, hheight⟩ := List.mem_map.1 hmem
    rw [← hheight]
    exact lt_height_of_differ hsorted hdiffer hd
  | case3 entries hshort =>
    match entries with
    | [] => exact List.Pairwise.nil
    | [a] => exact List.pairwise_singleton _ a
    | a :: b :: rest => exact absurd rfl (hshort a b rest)

/-- What stays of the entries with one height is the last of them. -/
theorem find?_keepLast (hsorted : entries.Pairwise fun c d => c.height ≤ d.height) (height : Nat) :
    (keepLast entries).find? (fun c => c.height = height) =
      (entries.filter fun c => c.height = height).getLast? := by
  fun_induction keepLast entries with
  | case1 a b rest hsame ih =>
    rw [ih hsorted.of_cons]
    by_cases ha : a.height = height
    · have hb : b.height = height := hsame ▸ ha
      simp [ha, hb]
    · simp [List.filter_cons_of_neg, ha]
  | case2 a b rest hdiffer ih =>
    by_cases ha : a.height = height
    · have hnone : (b :: rest).filter (fun c => c.height = height) = [] := by
        refine List.filter_eq_nil_iff.2 fun c hc => ?_
        have hlt := lt_height_of_differ hsorted hdiffer hc
        simpa using (by omega : c.height ≠ height)
      rw [List.find?_cons_of_pos (by simpa using ha), List.filter_cons_of_pos (by simpa using ha),
        hnone, List.getLast?_singleton]
    · rw [List.find?_cons_of_neg (by simpa using ha), List.filter_cons_of_neg (by simpa using ha)]
      exact ih hsorted.of_cons
  | case3 entries hshort =>
    match entries with
    | [] => rfl
    | [a] => by_cases ha : a.height = height <;> simp [ha]
    | a :: b :: rest => exact absurd rfl (hshort a b rest)

/-! ## Searching by halves -/

/-- The answer of a search that looks at `size` entries from the place `base` on, or nothing if it
reads beyond the table. While there is more than one entry, the middle one says where to go on. -/
def search? (entries : List Checkpoint) (height : Nat) : (base size : Nat) → Option (Option Digest)
  | _, 0 => some none
  | base, 1 => entries[base]?.map fun c => if c.height = height then some c.hash else none
  | base, size + 2 =>
    let half := (size + 2) / 2
    entries[base + half]?.bind fun c =>
      search? entries height (if height < c.height then base else base + half) (size + 2 - half)
termination_by _ size => size

theorem Ascending.height_lt_iff (h : Ascending entries) (hc : entries[k]? = some c)
    (hd : entries[l]? = some d) : c.height < d.height ↔ k < l := by
  obtain ⟨hk, rfl⟩ := List.getElem?_eq_some_iff.1 hc
  obtain ⟨hl, rfl⟩ := List.getElem?_eq_some_iff.1 hd
  refine ⟨fun hlt => Nat.lt_of_not_le fun hle => ?_, List.pairwise_iff_getElem.1 h k l hk hl⟩
  rcases Nat.eq_or_lt_of_le hle with rfl | hbehind
  · exact Nat.lt_irrefl _ hlt
  · exact Nat.lt_asymm hlt (List.pairwise_iff_getElem.1 h l k hl hk hbehind)

theorem Ascending.eq_of_height_eq (h : Ascending entries) (hc : c ∈ entries) (hd : d ∈ entries)
    (heq : c.height = d.height) : c = d := by
  have hnodup : (entries.map Checkpoint.height).Nodup :=
    List.pairwise_map.2 (h.imp Nat.ne_of_lt)
  exact List.inj_on_of_nodup_map hnodup hc hd heq

theorem Ascending.find?_eq_some_iff (h : Ascending entries) :
    entries.find? (fun c => c.height = height) = some c ↔ c ∈ entries ∧ c.height = height := by
  constructor
  · intro hfind
    exact ⟨List.mem_of_find?_eq_some hfind, by simpa using List.find?_some hfind⟩
  · rintro ⟨hc, rfl⟩
    cases hfind : entries.find? fun d => d.height = c.height with
    | none =>
      have hdiffer := List.find?_eq_none.1 hfind c hc
      simp at hdiffer
    | some d =>
      have hheight : d.height = c.height := by simpa using List.find?_some hfind
      rw [h.eq_of_height_eq (List.mem_of_find?_eq_some hfind) hc hheight]

theorem find?_eq_none_of_forall (hnone : ∀ c ∈ entries, c.height ≠ height) :
    entries.find? (fun c => c.height = height) = none :=
  List.find?_eq_none.2 fun c hc => by simpa using hnone c hc

/-- The search by halves finds what a search from the front does, as long as the entry of the height
in question, if there is one, is among those that it looks at. -/
theorem Ascending.search?_eq (h : Ascending entries) {base size : Nat}
    (hsize : base + size ≤ entries.length)
    (hwithin : ∀ k c, entries[k]? = some c → c.height = height → base ≤ k ∧ k < base + size) :
    search? entries height base size =
      some ((entries.find? fun c => c.height = height).map Checkpoint.hash) := by
  fun_induction search? entries height base size with
  | case1 base =>
    rw [find?_eq_none_of_forall fun c hc hheight => ?_, Option.map_none]
    obtain ⟨k, hk⟩ := List.mem_iff_getElem?.1 hc
    have := hwithin k c hk hheight
    omega
  | case2 base =>
    have hget := List.getElem?_eq_getElem (show base < entries.length by omega)
    generalize entries[base] = c at hget
    rw [hget, Option.map_some]
    by_cases hheight : c.height = height
    · rw [if_pos hheight, h.find?_eq_some_iff.2 ⟨List.mem_of_getElem? hget, hheight⟩,
        Option.map_some]
    · rw [if_neg hheight, find?_eq_none_of_forall fun d hd hd' => ?_, Option.map_none]
      obtain ⟨k, hk⟩ := List.mem_iff_getElem?.1 hd
      obtain rfl : k = base := by have := hwithin k d hk hd'; omega
      cases hget.symm.trans hk
      exact hheight hd'
  | case3 base size half ih =>
    have hhalf : half = (size + 2) / 2 := rfl
    have hget := List.getElem?_eq_getElem (show base + half < entries.length by omega)
    generalize entries[base + half] = c at hget
    rw [hget, Option.bind_some]
    refine ih c ?_ fun k d hk hd => ?_
    · split_ifs <;> omega
    · -- The entries before the middle one are lower, and those behind it are higher.
      have hbounds := hwithin k d hk hd
      have hbefore := h.height_lt_iff hk hget
      have hbehind := h.height_lt_iff hget hk
      split_ifs <;> omega

/-! ## The last known checkpoint -/

theorem last?_eq_findSome? (henabled : t.enabled = true) {α : Type} (lookup : Digest → Option α) :
    t.last? lookup = t.entries.reverse.findSome? fun c => lookup c.hash := by
  rw [last?, if_pos henabled]

theorem last?_eq_none_iff (henabled : t.enabled = true) {α : Type} {lookup : Digest → Option α} :
    t.last? lookup = none ↔ ∀ c ∈ t.entries, lookup c.hash = none := by
  simp [last?_eq_findSome? henabled]

theorem Ascending.mem_behind_iff {front behind : List Checkpoint}
    (h : Ascending (front ++ c :: behind)) :
    d ∈ behind ↔ d ∈ front ++ c :: behind ∧ c.height < d.height := by
  obtain ⟨-, hbehind, hfront⟩ := List.pairwise_append.1 h
  constructor
  · intro hd
    exact ⟨List.mem_append_right _ (List.mem_cons_of_mem c hd), List.rel_of_pairwise_cons hbehind hd⟩
  · rintro ⟨hd, hlt⟩
    rcases List.mem_append.1 hd with hd | hd
    · exact absurd hlt (Nat.lt_asymm (hfront d hd c List.mem_cons_self))
    · rcases List.mem_cons.1 hd with rfl | hd
      · exact absurd hlt (Nat.lt_irrefl _)
      · exact hd

theorem Ascending.last?_eq_some_iff (h : Ascending t.entries) (henabled : t.enabled = true)
    {α : Type} {lookup : Digest → Option α} {a : α} :
    t.last? lookup = some a ↔ ∃ c ∈ t.entries, lookup c.hash = some a ∧
      ∀ d ∈ t.entries, c.height < d.height → lookup d.hash = none := by
  rw [last?_eq_findSome? henabled, List.findSome?_eq_some_iff]
  constructor
  · rintro ⟨behind, c, front, hsplit, hfound, hnone⟩
    have hentries : t.entries = front.reverse ++ c :: behind.reverse := by
      rw [← List.reverse_reverse t.entries, hsplit]
      simp
    rw [hentries] at h ⊢
    refine ⟨c, by simp, hfound, fun d hd hlt => hnone d ?_⟩
    exact List.mem_reverse.1 (h.mem_behind_iff.2 ⟨hd, hlt⟩)
  · rintro ⟨c, hc, hfound, hnone⟩
    obtain ⟨front, behind, hentries⟩ := List.append_of_mem hc
    rw [hentries] at h hnone ⊢
    refine ⟨behind.reverse, c, front.reverse, by simp, hfound, fun d hd => ?_⟩
    obtain ⟨hd, hlt⟩ := h.mem_behind_iff.1 (List.mem_reverse.1 hd)
    exact hnone d hd hlt

/-! ## Tables made from entries -/

section OfList

variable (entries : List Checkpoint) (time : Int) (transactions : Nat) (perDay : Float)

theorem ascending_ofList : Ascending (ofList entries time transactions perDay).entries :=
  ascending_keepLast (pairwise_mergeSort_key Checkpoint.height entries)

theorem mem_heights_ofList (height : Nat) :
    height ∈ (ofList entries time transactions perDay).entries.map Checkpoint.height ↔
      height ∈ entries.map Checkpoint.height := by
  rw [ofList, mem_heights_keepLast]
  exact ((entries.mergeSort_perm _).map Checkpoint.height).mem_iff

theorem get?_ofList (height : Nat) :
    (ofList entries time transactions perDay).get? height =
      ((entries.filter fun c => c.height = height).getLast?).map Checkpoint.hash := by
  rw [get?, ofList, find?_keepLast (pairwise_mergeSort_key Checkpoint.height entries),
    filter_mergeSort_key Checkpoint.height]

end OfList

/-- The table of entries in any order, with any repetitions, is what entering them by height leaves.
It ascends strictly and has the heights of the entries. At each height it gives the last entry of
that height, and a search by halves over all of it gives the same. What is found for the last known
checkpoint is found for the highest entry that is known, and nothing is found exactly if none is. -/
theorem later_entry_counts (entries : List Checkpoint) (time : Int) (transactions : Nat)
    (perDay : Float) :
    let t := ofList entries time transactions perDay
    t.entries = (entries.mergeSort fun c d => c.height ≤ d.height).foldl enter [] ∧
      Ascending t.entries ∧
      (∀ height, height ∈ t.entries.map Checkpoint.height ↔
        height ∈ entries.map Checkpoint.height) ∧
      (∀ height, t.get? height =
        ((entries.filter fun c => c.height = height).getLast?).map Checkpoint.hash) ∧
      (∀ height, search? t.entries height 0 t.entries.length = some (t.get? height)) ∧
      t.enabled = true ∧
      ∀ {α : Type} (lookup : Digest → Option α),
        (∀ a, t.last? lookup = some a ↔ ∃ c ∈ t.entries, lookup c.hash = some a ∧
          ∀ d ∈ t.entries, c.height < d.height → lookup d.hash = none) ∧
        (t.last? lookup = none ↔ ∀ c ∈ t.entries, lookup c.hash = none) := by
  intro t
  have hascending : Ascending t.entries := ascending_ofList entries time transactions perDay
  refine ⟨(foldl_enter _).symm, hascending, mem_heights_ofList entries time transactions perDay,
    get?_ofList entries time transactions perDay, fun height => ?_, rfl, fun lookup => ?_⟩
  · refine hascending.search?_eq (Nat.le_of_eq (Nat.zero_add _)) fun k c hk _ => ?_
    obtain ⟨hlt, -⟩ := List.getElem?_eq_some_iff.1 hk
    omega
  · exact ⟨fun a => hascending.last?_eq_some_iff rfl, last?_eq_none_iff rfl⟩

end MergedWork.CheckpointTable

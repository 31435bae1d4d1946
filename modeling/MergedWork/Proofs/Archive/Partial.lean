import MergedWork.Proofs.Archive.Load
import MergedWork.Proofs.BlockIndex.Counts

/-!
# Archives of some nodes

Nodes may be saved one by one, in any order and not all of them. An archive of such nodes can be
loaded exactly if it holds the parent of each that has one (`load_of_saved`). What is loaded then are
these blocks, with the heights, the parents and the work that they had, even though only the record
of the parent's hash ties them together. Otherwise the load says which parent of which stored node
is missing, and it never comes to a node that finds no place.
-/

namespace MergedWork.Archive

open BlockIndex

variable {a : Archive} {ix jx : BlockIndex} {i : Nat} {n q : Node} {nodes : List Node}
  {records : List Record}

/-- Stores some nodes, one after the other. -/
def saveNodes (a : Archive) (ix : BlockIndex) (nodes : List Node) : Archive :=
  nodes.foldl (fun a n => a.saveNode ix n) a

/-- The nodes have their parents among them. -/
def ParentsIn (ix : BlockIndex) (nodes : List Node) : Prop :=
  ∀ n ∈ nodes, ∀ p q, n.prev = some p → ix.get? p = some q → q ∈ nodes

/-! ## Saving some nodes -/

theorem record_inj (h : record ix n = record ix q) : n = q := congrArg Record.node h

/-- An archive of nodes of an index gains the records of further nodes, and loses none. -/
theorem mem_saveNodes (wf : ix.WellFormed) (hnodes : ∀ n ∈ nodes, ∃ i, ix.get? i = some n)
    (hascending : Ascending a.records)
    (hrecords : ∀ r ∈ a.records, ∃ i n, ix.get? i = some n ∧ r = record ix n) :
    Ascending (a.saveNodes ix nodes).records ∧
      ∀ r, r ∈ (a.saveNodes ix nodes).records ↔ r ∈ nodes.map (record ix) ∨ r ∈ a.records := by
  induction nodes generalizing a with
  | nil => exact ⟨hascending, fun r => by simp [saveNodes]⟩
  | cons n nodes ih =>
    obtain ⟨⟨i, hn⟩, hnodes⟩ := List.forall_mem_cons.1 hnodes
    -- The record that makes way for that of a node, if there is one, is the same record.
    have hput : ∀ r, r ∈ (a.saveNode ix n).records ↔ r = record ix n ∨ r ∈ a.records := by
      intro r
      rw [saveNode, mem_put hascending]
      refine ⟨Or.imp_right And.left, ?_⟩
      rintro (rfl | hr)
      · exact Or.inl rfl
      · by_cases hhash : r.node.hash = n.hash
        · exact Or.inl (eq_record_of_hash_eq wf (hrecords r hr) hn hhash)
        · exact Or.inr ⟨hr, hhash⟩
    have hrecords' : ∀ r ∈ (a.saveNode ix n).records, ∃ i n, ix.get? i = some n ∧ r = record ix n := by
      intro r hr
      rcases (hput r).1 hr with rfl | hr
      · exact ⟨i, n, hn, rfl⟩
      · exact hrecords r hr
    obtain ⟨hascending', hmem⟩ := ih hnodes (hascending.put (record ix n)) hrecords'
    refine ⟨hascending', fun r => (hmem r).trans ?_⟩
    rw [hput, List.map_cons, List.mem_cons, or_assoc, or_left_comm]

/-! ## Loading them -/

/-- An index that was copied from records has the parents of its nodes, so that there were records
of these. -/
theorem Copies.not_lacks (h : Copies ix jx records) (wf : ix.WellFormed)
    (hrecords : ∀ r ∈ records, ∃ i n, ix.get? i = some n ∧ r = record ix n) :
    ¬ Lacks ix records n q := by
  rintro ⟨hn, ⟨p, hp, hq⟩, hmissing⟩
  obtain ⟨i, m, hm, hrecord⟩ := hrecords _ hn
  obtain rfl := record_inj hrecord
  have hstored : jx.stored? n.hash = some (ix.stored n) :=
    (h.same _ hn).trans (wf.stored?_of_get? hm)
  obtain ⟨j, m', -, hm', -, heq⟩ := exists_of_stored? hstored
  have hparent : jx.parentHash? m' = some q.hash := by
    have hsame : jx.parentHash? m' = ix.parentHash? n := congrArg StoredBlock.previous heq
    rw [hsame, parentHash?, hp, Option.bind_some, hq, Option.map_some]
  obtain ⟨t, ht, hhash⟩ := Option.map_eq_some_iff.1 hparent
  obtain ⟨k, -, hk⟩ := Option.bind_eq_some_iff.1 ht
  have hknown : jx.stored? q.hash = some (jx.stored t) := hhash ▸ h.wellFormed.stored?_of_get? hk
  rw [h.unknown q.hash fun r hr hrhash => hmissing ?_] at hknown
  · cases hknown
  · rwa [← eq_record_of_hash_eq wf (hrecords r hr) hq hrhash]

theorem Copies.contains_iff (h : Copies ix jx records) (wf : ix.WellFormed)
    (hrecords : ∀ r ∈ records, ∃ i n, ix.get? i = some n ∧ r = record ix n) (hash : Digest) :
    jx.contains hash = true ↔ ∃ r ∈ records, r.node.hash = hash := by
  rw [contains_eq]
  constructor
  · intro hknown
    by_contra hno
    rw [h.unknown hash fun r hr hhash => hno ⟨r, hr, hhash⟩] at hknown
    cases hknown
  · rintro ⟨r, hr, rfl⟩
    obtain ⟨i, n, hn, hrecord⟩ := hrecords r hr
    have hhash : r.node.hash = n.hash := congrArg (fun r => r.node.hash) hrecord
    rw [h.same r hr, hhash, wf.stored?_of_get? hn, Option.isSome_some]

/-- Records of nodes of an index are loaded exactly if the parent of no node is missing, and then the
index is copied as far as there are records. -/
theorem loadIndex_of_records (wf : ix.WellFormed) (hascending : Ascending a.records)
    (hrecords : ∀ r ∈ a.records, ∃ i n, ix.get? i = some n ∧ r = record ix n) (rule : ForkRule) :
    ((∃ jx, a.loadIndex rule = .ok jx) ↔ ∀ n q, ¬ Lacks ix a.records n q) ∧
      (∀ jx, a.loadIndex rule = .ok jx → Copies ix jx a.records) ∧
      ∀ e, a.loadIndex rule = .error e →
        ∃ n q, Lacks ix a.records n q ∧ e = .notStored q.hash n.hash := by
  rcases loadIndex_cases wf hascending hrecords rule with ⟨jx, hload, hcopies⟩ | ⟨n, q, h, hload⟩
  · refine ⟨iff_of_true ⟨jx, hload⟩ fun n q => hcopies.not_lacks wf hrecords, fun jx' hok => ?_,
      fun e he => ?_⟩
    · cases hload.symm.trans hok
      exact hcopies
    · cases hload.symm.trans he
  · have hnone : ∀ jx, a.loadIndex rule ≠ .ok jx := fun jx hok => by
      cases hload.symm.trans hok
    refine ⟨iff_of_false (fun ⟨jx, hok⟩ => hnone jx hok) fun hall => hall n q h,
      fun jx hok => absurd hok (hnone jx), fun e he => ?_⟩
    cases hload.symm.trans he
    exact ⟨n, q, h, rfl⟩

/-- Nodes of an index that were saved in any order are loaded exactly if the parent of each is among
them. Then the loaded index has their blocks and no others, and knows the same of each. If a parent
is missing, the load says which, and of which stored node. -/
theorem load_of_saved (rule rule' : ForkRule) (history : List Change) (nodes : List Node)
    (hnodes : ∀ n ∈ nodes, ∃ id, ((BlockIndex.empty rule).run history).get? id = some n) :
    let ix := (BlockIndex.empty rule).run history
    let a := Archive.empty.saveNodes ix nodes
    ((∃ jx, a.loadIndex rule' = .ok jx) ↔ ParentsIn ix nodes) ∧
      (∀ jx, a.loadIndex rule' = .ok jx → jx.WellFormed ∧
        (∀ hash, jx.contains hash = true ↔ ∃ n ∈ nodes, n.hash = hash) ∧
        ∀ n ∈ nodes, jx.stored? n.hash = ix.stored? n.hash) ∧
      ∀ e, a.loadIndex rule' = .error e → ∃ n ∈ nodes, ∃ p q, n.prev = some p ∧
        ix.get? p = some q ∧ q ∉ nodes ∧ e = .notStored q.hash n.hash := by
  intro ix a
  have wf : ix.WellFormed := wellFormed_run rule history
  obtain ⟨hascending, hmem⟩ : Ascending a.records ∧ ∀ r, r ∈ a.records ↔ r ∈ nodes.map (record ix) := by
    obtain ⟨hascending, hmem⟩ := mem_saveNodes (a := Archive.empty) wf hnodes List.Pairwise.nil nofun
    exact ⟨hascending, fun r => (hmem r).trans (or_iff_left List.not_mem_nil)⟩
  have hrecord : ∀ n, record ix n ∈ a.records ↔ n ∈ nodes := fun n =>
    (hmem _).trans (List.mem_map_of_injective fun _ _ => record_inj)
  have hrecords : ∀ r ∈ a.records, ∃ i n, ix.get? i = some n ∧ r = record ix n := by
    intro r hr
    obtain ⟨n, hn, rfl⟩ := List.mem_map.1 ((hmem r).1 hr)
    obtain ⟨i, hi⟩ := hnodes n hn
    exact ⟨i, n, hi, rfl⟩
  obtain ⟨hok, hcopies, herror⟩ := loadIndex_of_records wf hascending hrecords rule'
  refine ⟨hok.trans ⟨fun hall n hn p q hp hq => ?_, fun hparents n q h => ?_⟩, fun jx hload => ?_,
    fun e hload => ?_⟩
  · by_contra hmissing
    exact hall n q ⟨(hrecord n).2 hn, ⟨p, hp, hq⟩, mt (hrecord q).1 hmissing⟩
  · obtain ⟨p, hp, hq⟩ := h.exists_prev
    exact h.not_mem ((hrecord q).2 (hparents n ((hrecord n).1 h.mem) p q hp hq))
  · have h := hcopies jx hload
    refine ⟨h.wellFormed, fun hash => ?_, fun n hn => h.same _ ((hrecord n).2 hn)⟩
    rw [h.contains_iff wf hrecords]
    simp only [hmem, List.mem_map, exists_exists_and_eq_and]
    rfl
  · obtain ⟨n, q, h, he⟩ := herror e hload
    obtain ⟨p, hp, hq⟩ := h.exists_prev
    exact ⟨n, (hrecord n).1 h.mem, p, q, hp, hq, mt (hrecord q).2 h.not_mem, he⟩

/-- A first block, a block behind it, and one behind that. -/
def threeBlocks : List Change :=
  let second := countedHeader (countedHeader .zero).hash
  [.insert (countedHeader .zero), .insert second, .insert (countedHeader second.hash)]

/-- Of three blocks, the last cannot be loaded without the second, and the first two can be loaded
without the last. -/
theorem load_of_saved_gap :
    let ix := (BlockIndex.empty .standard).run threeBlocks
    ∃ first second third, ix.get? 0 = some first ∧ ix.get? 1 = some second ∧
      ix.get? 2 = some third ∧
      (∀ n ∈ [third, first], ∃ id, ix.get? id = some n) ∧
      (Archive.empty.saveNodes ix [third, first]).loadIndex .standard =
        .error (.notStored second.hash third.hash) ∧
      (∀ n ∈ [second, first], ∃ id, ix.get? id = some n) ∧
      ∃ jx, (Archive.empty.saveNodes ix [second, first]).loadIndex .standard = .ok jx ∧
        jx.stored? second.hash = ix.stored? second.hash := by
  intro ix
  have hprevs : (ix.get? 0).map Node.prev = some none ∧ (ix.get? 1).map Node.prev = some (some 0) ∧
      (ix.get? 2).map Node.prev = some (some 1) := by
    decide +kernel
  obtain ⟨hfirst, hsecond, hthird⟩ := hprevs
  obtain ⟨first, h0, hroot⟩ := Option.map_eq_some_iff.1 hfirst
  obtain ⟨second, h1, hprev1⟩ := Option.map_eq_some_iff.1 hsecond
  obtain ⟨third, h2, hprev2⟩ := Option.map_eq_some_iff.1 hthird
  have hgap : ∀ n ∈ [third, first], ∃ id, ix.get? id = some n := by
    simp only [List.forall_mem_cons, List.not_mem_nil, false_imp_iff, implies_true, and_true]
    exact ⟨⟨2, h2⟩, ⟨0, h0⟩⟩
  have hpair : ∀ n ∈ [second, first], ∃ id, ix.get? id = some n := by
    simp only [List.forall_mem_cons, List.not_mem_nil, false_imp_iff, implies_true, and_true]
    exact ⟨⟨1, h1⟩, ⟨0, h0⟩⟩
  refine ⟨first, second, third, h0, h1, h2, hgap, ?_, hpair, ?_⟩
  · obtain ⟨hok, -, herror⟩ := load_of_saved .standard .standard threeBlocks [third, first] hgap
    cases hload : (Archive.empty.saveNodes ix [third, first]).loadIndex .standard with
    | ok jx =>
      rcases List.mem_pair.1 (hok.1 ⟨jx, hload⟩ third List.mem_cons_self 1 second hprev2 h1) with
        rfl | rfl
      · cases hprev1.symm.trans hprev2
      · cases hprev1.symm.trans hroot
    | error e =>
      obtain ⟨n, hn, p, q, hp, hq, -, rfl⟩ := herror e hload
      rcases List.mem_pair.1 hn with rfl | rfl
      · cases hprev2.symm.trans hp
        cases h1.symm.trans hq
        rfl
      · cases hroot.symm.trans hp
  · obtain ⟨hok, hsame, -⟩ := load_of_saved .standard .standard threeBlocks [second, first] hpair
    have hparents : ParentsIn ix [second, first] := by
      intro n hn p q hp hq
      rcases List.mem_pair.1 hn with rfl | rfl
      · cases hprev1.symm.trans hp
        cases h0.symm.trans hq
        simp
      · cases hroot.symm.trans hp
    obtain ⟨jx, hload⟩ := hok.2 hparents
    exact ⟨jx, hload, (hsame jx hload).2.2 second List.mem_cons_self⟩

end MergedWork.Archive

import MergedWork.Proofs.Archive.Records
import MergedWork.Proofs.BlockIndex.Known
import MergedWork.Proofs.Sorting

/-!
# Loading records

An index is loaded from records that are sorted by height, so that a parent comes before its
children. Each record adds the block of its node, in a new place behind the block that the record
names (`Copies.place`), or the load fails at a record whose parent has none (`loadIndex_cases`). From
the records of all nodes, the loaded index holds what was saved of each block (`exists_loadIndex`),
wherever its nodes stand.
-/

namespace MergedWork

/-- What an archive keeps of a block. -/
structure StoredBlock extends KnownBlock where
  previous : Option Digest
  status : Status
  txCount : Nat
  moneySupply : Int
  subsidyScale : Int
  file : Int
  dataOffset : Nat
  undoOffset : Nat
  deriving DecidableEq

namespace BlockIndex

variable {ix ix' : BlockIndex} {id : Nat} {n m : Node} {hash : Digest} {prev : Option Nat}

/-- What is kept of a node. -/
def stored (ix : BlockIndex) (n : Node) : StoredBlock where
  toKnownBlock := ix.known n
  previous := ix.parentHash? n
  status := n.status
  txCount := n.txCount
  moneySupply := n.moneySupply
  subsidyScale := n.subsidyScale
  file := n.file
  dataOffset := n.dataOffset
  undoOffset := n.undoOffset

/-- What is kept of the block with a hash. -/
def stored? (ix : BlockIndex) (hash : Digest) : Option StoredBlock := (ix.node? hash).map ix.stored

theorem block?_eq (ix : BlockIndex) (hash : Digest) :
    ix.block? hash = (ix.stored? hash).map StoredBlock.toKnownBlock := by
  rw [stored?, Option.map_map]
  rfl

theorem stored?_eq_none_iff : ix.stored? hash = none ↔ ix.lookup? hash = none := by
  rw [← block?_eq_none_iff, block?_eq, Option.map_eq_none_iff]

theorem stored?_of_lookup? (hfind : ix.lookup? hash = some id) (hn : ix.get? id = some n) :
    ix.stored? hash = some (ix.stored n) := by
  rw [stored?, node?, hfind, Option.bind_some, hn, Option.map_some]

theorem WellFormed.stored?_of_get? (wf : ix.WellFormed) (hn : ix.get? id = some n) :
    ix.stored? n.hash = some (ix.stored n) :=
  stored?_of_lookup? (wf.lookup?_eq_some_iff.2 ⟨n, hn, rfl⟩) hn

theorem contains_eq (ix : BlockIndex) (hash : Digest) :
    ix.contains hash = (ix.stored? hash).isSome := by
  rw [Bool.eq_iff_iff, BlockIndex.contains, Option.isSome_iff_ne_none, Option.isSome_iff_ne_none,
    ne_eq, ne_eq, stored?_eq_none_iff]

theorem WellFormed.size_eq_zero_iff (wf : ix.WellFormed) :
    ix.size = 0 ↔ ∀ hash, ix.stored? hash = none := by
  constructor
  · intro hsize hash
    refine stored?_eq_none_iff.2 (lookup?_eq_none_iff.2 fun i n hn => ?_)
    have := lt_size_of_get? hn
    omega
  · intro hnone
    by_contra hsize
    obtain ⟨n, hn⟩ := get?_of_lt_size (Nat.pos_of_ne_zero hsize)
    cases (wf.stored?_of_get? hn).symm.trans (hnone n.hash)

theorem exists_of_stored? {b : StoredBlock} (h : ix.stored? hash = some b) :
    ∃ id n, ix.lookup? hash = some id ∧ ix.get? id = some n ∧ n.hash = hash ∧ ix.stored n = b := by
  obtain ⟨n, hnode, hstored⟩ := Option.map_eq_some_iff.1 h
  obtain ⟨id, hfind, hn⟩ := node?_eq_some_iff.1 hnode
  obtain ⟨m, hm, hhash⟩ := hash_of_lookup? hfind
  obtain rfl : n = m := Option.some.inj (hn.symm.trans hm)
  exact ⟨id, n, hfind, hn, hhash, hstored⟩

theorem WellFormed.stored_of_extends (wf : ix.WellFormed) (hext : Extends ix ix')
    (hn : ix.get? id = some n) : ix'.stored n = ix.stored n := by
  rw [stored, stored, wf.known_of_extends hext hn, wf.parentHash?_of_extends hext hn]

theorem WellFormed.stored?_push (wf : ix.WellFormed) (n : Node) (prev : Option Nat)
    (hash : Digest) :
    (ix.push n prev).1.stored? hash =
      (ix.stored? hash).or (if n.hash = hash then some ((ix.push n prev).1.stored
        (n.linked ix.size prev (prev.bind ix.get?))) else none) := by
  rw [stored?, stored?, node?_push]
  cases hold : ix.node? hash with
  | some m =>
    obtain ⟨id, -, hm⟩ := node?_eq_some_iff.1 hold
    rw [Option.some_or, Option.map_some, Option.map_some, Option.some_or,
      wf.stored_of_extends (extends_push ix n prev) hm]
  | none =>
    rw [Option.none_or, Option.map_none, Option.none_or]
    split_ifs <;> rfl

/-- A node that is placed behind a block like its old parent is kept like the old node. -/
theorem stored_linked {jx : BlockIndex} {parent : Option Node}
    (hparent : jx.parentHash? (n.linked id prev parent) = ix.parentHash? n)
    (hheight : (n.linked id prev parent).height = n.height)
    (hwork : (n.linked id prev parent).chainWork = n.chainWork) :
    jx.stored (n.linked id prev parent) = ix.stored n := by
  rw [stored, stored, known, known, header, header, previousHash_eq, previousHash_eq, hparent,
    hheight, hwork]
  cases parent <;> rfl

end BlockIndex

namespace Archive

open BlockIndex

variable {a : Archive} {ix jx : BlockIndex} {i : Nat} {n : Node} {front rest : List Record}

/-- An index that holds the same of the blocks of some records as another one, and nothing else. -/
structure Copies (ix jx : BlockIndex) (front : List Record) : Prop where
  wellFormed : jx.WellFormed
  same : ∀ r ∈ front, jx.stored? r.node.hash = ix.stored? r.node.hash
  unknown : ∀ hash, (∀ r ∈ front, r.node.hash ≠ hash) → jx.stored? hash = none

theorem copies_empty (ix : BlockIndex) (rule : ForkRule) : Copies ix (.empty rule) [] :=
  ⟨wellFormed_empty rule, nofun, fun hash _ => stored?_eq_none_iff.2 (lookup?_empty rule hash)⟩

theorem Copies.push (h : Copies ix jx front) (wf : ix.WellFormed) (hn : ix.get? i = some n)
    (hnew : ∀ r ∈ front, r.node.hash ≠ n.hash) {prev : Option Nat}
    (hprev : ∀ p, prev = some p → p < jx.size)
    (hstored : (jx.push n prev).1.stored (n.linked jx.size prev (prev.bind jx.get?)) = ix.stored n) :
    Copies ix (jx.push n prev).1 (front ++ [record ix n]) where
  wellFormed := h.wellFormed.push (stored?_eq_none_iff.1 (h.unknown _ hnew)) hprev
  same r hr := by
    rw [h.wellFormed.stored?_push, hstored]
    rcases List.mem_append.1 hr with hr | hr
    · rw [if_neg (hnew r hr).symm, Option.or_none, h.same r hr]
    · obtain rfl := List.mem_singleton.1 hr
      have hhash : (record ix n).node.hash = n.hash := rfl
      rw [hhash, h.unknown _ hnew, if_pos rfl, Option.none_or, wf.stored?_of_get? hn]
  unknown hash hhash := by
    obtain ⟨hfront, hrecord⟩ := List.forall_mem_append.1 hhash
    rw [h.wellFormed.stored?_push, h.unknown hash hfront, Option.none_or]
    exact if_neg (hrecord _ (List.mem_singleton_self _))

/-- A record whose parent has come finds its place. -/
theorem Copies.place (h : Copies ix jx front) (wf : ix.WellFormed) (hn : ix.get? i = some n)
    (hnew : ∀ r ∈ front, r.node.hash ≠ n.hash)
    (hparent : ∀ p q, n.prev = some p → ix.get? p = some q → record ix q ∈ front) :
    ∃ jx', Archive.place jx (record ix n) = .ok jx' ∧ Copies ix jx' (front ++ [record ix n]) := by
  have hfind : jx.lookup? n.hash = none := stored?_eq_none_iff.1 (h.unknown _ hnew)
  have hplaced := wf.placed i n hn
  cases hprev : n.prev with
  | none =>
    refine ⟨(jx.push n none).1, ?_, h.push wf hn hnew nofun (stored_linked ?_ ?_ ?_)⟩
    · simp [Archive.place, record, hprev, insertLoaded, hfind]
      rfl
    · rw [parentHash?, parentHash?, hprev]
      rfl
    · exact (hplaced.root hprev).1.symm
    · exact (hplaced.root hprev).2.symm
  | some p =>
    obtain ⟨-, q, hq, hheight, hwork⟩ := hplaced.child p hprev
    have hsame := h.same _ (hparent p q hprev hq)
    change jx.stored? q.hash = ix.stored? q.hash at hsame
    rw [wf.stored?_of_get? hq] at hsame
    obtain ⟨j, m, hlookup, hm, hhash, hstored⟩ := exists_of_stored? hsame
    have hmheight : m.height = q.height :=
      congrArg (fun b => b.toKnownBlock.height) hstored
    have hmwork : m.chainWork = q.chainWork :=
      congrArg (fun b => b.toKnownBlock.chainWork) hstored
    refine ⟨(jx.push n (some j)).1, ?_, h.push wf hn hnew ?_ (stored_linked ?_ ?_ ?_)⟩
    · simp [Archive.place, record, hprev, hq, BlockIndex.contains, hlookup, insertLoaded, hfind]
      rfl
    · exact lt_size_of_some_lookup? hlookup
    · rw [parentHash?, parentHash?, Node.prev_linked, Option.bind_some,
        extends_push jx n (some j) j m hm, hprev, Option.bind_some, hq, Option.map_some,
        Option.map_some, hhash]
    · rw [Option.bind_some, hm, hheight, ← hmheight]
      rfl
    · rw [Option.bind_some, hm, hwork, ← hmwork]
      rfl

/-- A record whose parent has not come is refused. -/
theorem place_eq_error {p : Nat} {q : Node} (hprev : n.prev = some p) (hq : ix.get? p = some q)
    (hunknown : jx.contains q.hash = false) :
    Archive.place jx (record ix n) = .error (.notStored q.hash n.hash) := by
  simp [Archive.place, record, hprev, hq, hunknown]
  rfl

/-! ## Records of some nodes -/

/-- Records of nodes of an index, one for each at most, sorted by height. -/
structure Sorted (ix : BlockIndex) (records : List Record) : Prop where
  exists_node : ∀ r ∈ records, ∃ i n, ix.get? i = some n ∧ r = record ix n
  height_le : records.Pairwise fun r q => r.node.height ≤ q.node.height
  hash_ne : records.Pairwise fun r q => r.node.hash ≠ q.node.hash

/-- Of a node there is a record, and of its parent there is none. -/
structure Lacks (ix : BlockIndex) (records : List Record) (n parent : Node) : Prop where
  mem : record ix n ∈ records
  exists_prev : ∃ p, n.prev = some p ∧ ix.get? p = some parent
  not_mem : record ix parent ∉ records

theorem eq_record_of_hash_eq (wf : ix.WellFormed) {r : Record}
    (hr : ∃ i n, ix.get? i = some n ∧ r = record ix n) (hn : ix.get? i = some n)
    (hhash : r.node.hash = n.hash) : r = record ix n := by
  obtain ⟨j, m, hm, rfl⟩ := hr
  obtain rfl := wf.hash_inj j i m n hm hn hhash
  rw [Option.some.inj (hm.symm.trans hn)]

/-- In records that are sorted, the record of a parent stands before that of its child. -/
theorem Sorted.mem_front {p : Nat} {q : Node} (h : Sorted ix (front ++ record ix n :: rest))
    (wf : ix.WellFormed) (hn : ix.get? i = some n) (hp : n.prev = some p)
    (hq : ix.get? p = some q) (hmem : record ix q ∈ front ++ record ix n :: rest) :
    record ix q ∈ front := by
  obtain ⟨-, q', hq', hheight, -⟩ := (wf.placed i n hn).child p hp
  obtain rfl : q = q' := Option.some.inj (hq.symm.trans hq')
  rcases List.mem_append.1 hmem with hfront | hmem
  · exact hfront
  · have hle : ∀ r ∈ record ix n :: rest, n.height ≤ r.node.height := by
      have hback := (List.pairwise_append.1 h.height_le).2.1
      exact List.forall_mem_cons.2 ⟨Nat.le_refl _, (List.pairwise_cons.1 hback).1⟩
    have := hle _ hmem
    change n.height ≤ q.height at this
    omega

/-- Sorted records are all placed, up to the first whose parent has no record. -/
theorem Copies.foldlM_place_cases (h : Copies ix jx front) (wf : ix.WellFormed)
    (hsorted : Sorted ix (front ++ rest)) :
    (∃ jx', rest.foldlM Archive.place jx = .ok jx' ∧ Copies ix jx' (front ++ rest)) ∨
      ∃ n q, Lacks ix (front ++ rest) n q ∧
        rest.foldlM Archive.place jx = .error (.notStored q.hash n.hash) := by
  induction rest generalizing front jx with
  | nil => exact Or.inl ⟨jx, rfl, by rwa [List.append_nil]⟩
  | cons r rest ih =>
    obtain ⟨i, n, hn, rfl⟩ := hsorted.exists_node r (by simp)
    by_cases hparent : ∀ p q, n.prev = some p → ix.get? p = some q → record ix q ∈ front
    · have hnew : ∀ r ∈ front, r.node.hash ≠ n.hash := fun r hr =>
        (List.pairwise_append.1 hsorted.hash_ne).2.2 r hr _ List.mem_cons_self
      obtain ⟨jx', hplace, h'⟩ := h.place wf hn hnew hparent
      rw [List.append_cons] at hsorted ⊢
      rw [List.foldlM_cons, hplace]
      exact ih h' hsorted
    · -- A parent that has not come yet has no record at all, since it stands lower.
      right
      simp only [not_forall] at hparent
      obtain ⟨p, q, hp, hq, hfront⟩ := hparent
      have hunknown : jx.contains q.hash = false := by
        rw [contains_eq, h.unknown q.hash fun r hr hhash => hfront ?_, Option.isSome_none]
        rwa [← eq_record_of_hash_eq wf (hsorted.exists_node r (List.mem_append_left _ hr)) hq hhash]
      refine ⟨n, q, ⟨by simp, ⟨p, hp, hq⟩, mt (hsorted.mem_front wf hn hp hq) hfront⟩, ?_⟩
      rw [List.foldlM_cons, place_eq_error hp hq hunknown]
      rfl

/-- From records of some nodes, an index is loaded that holds the same of their blocks, unless the
parent of one of them has no record. -/
theorem loadIndex_cases (wf : ix.WellFormed) (hascending : Ascending a.records)
    (hnodes : ∀ r ∈ a.records, ∃ i n, ix.get? i = some n ∧ r = record ix n) (rule : ForkRule) :
    (∃ jx, a.loadIndex rule = .ok jx ∧ Copies ix jx a.records) ∨
      ∃ n q, Lacks ix a.records n q ∧ a.loadIndex rule = .error (.notStored q.hash n.hash) := by
  have hperm := a.records.mergeSort_perm fun r q => r.node.height ≤ q.node.height
  have hsorted : Sorted ix (a.records.mergeSort fun r q => r.node.height ≤ q.node.height) := by
    constructor
    case exists_node => exact fun r hr => hnodes r (hperm.mem_iff.1 hr)
    case height_le => exact pairwise_mergeSort_key (fun r : Record => r.node.height) a.records
    case hash_ne => exact (hascending.imp hash_ne_of_lt).perm hperm.symm Ne.symm
  rcases (copies_empty ix rule).foldlM_place_cases wf hsorted with
    ⟨jx, hload, hcopies⟩ | ⟨n, q, hlacks, hload⟩
  · refine Or.inl ⟨jx, hload, hcopies.wellFormed, fun r hr => ?_, fun hash hhash => ?_⟩
    · exact hcopies.same r (hperm.mem_iff.2 hr)
    · exact hcopies.unknown hash fun r hr => hhash r (hperm.mem_iff.1 hr)
  · refine Or.inr ⟨n, q, ⟨hperm.mem_iff.1 hlacks.mem, hlacks.exists_prev, ?_⟩, hload⟩
    exact mt hperm.mem_iff.2 hlacks.not_mem

/-- From the records of all nodes, an index is loaded that holds the same of each block. -/
theorem exists_loadIndex (wf : ix.WellFormed) (hascending : Ascending a.records)
    (hmem : ∀ r, r ∈ a.records ↔ ∃ i n, ix.get? i = some n ∧ r = record ix n) (rule : ForkRule) :
    ∃ jx, a.loadIndex rule = .ok jx ∧ jx.WellFormed ∧
      ∀ hash, jx.stored? hash = ix.stored? hash := by
  rcases loadIndex_cases wf hascending (fun r => (hmem r).1) rule with
    ⟨jx, hload, hcopies⟩ | ⟨n, q, hlacks, -⟩
  · refine ⟨jx, hload, hcopies.wellFormed, fun hash => ?_⟩
    by_cases hknown : ∃ i n, ix.get? i = some n ∧ n.hash = hash
    · obtain ⟨i, n, hn, rfl⟩ := hknown
      exact hcopies.same _ ((hmem (record ix n)).2 ⟨i, n, hn, rfl⟩)
    · have hunknown : ix.lookup? hash = none :=
        lookup?_eq_none_iff.2 fun i n hn hhash => hknown ⟨i, n, hn, hhash⟩
      rw [stored?_eq_none_iff.2 hunknown]
      refine hcopies.unknown hash fun r hr hhash => hknown ?_
      obtain ⟨i, n, hn, rfl⟩ := (hmem r).1 hr
      exact ⟨i, n, hn, hhash⟩
  · obtain ⟨p, -, hq⟩ := hlacks.exists_prev
    exact absurd ((hmem _).2 ⟨p, q, hq, rfl⟩) hlacks.not_mem

end Archive

end MergedWork

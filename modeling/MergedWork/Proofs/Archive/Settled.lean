import MergedWork.Proofs.Archive.Load
import Mathlib.Data.List.Sort

/-!
# Loaded indexes

In a loaded index, nodes stand in the order of their heights, and those of one height in the order
of their hashes; and linking a node to its parent once more changes nothing. Such an index is
`Settled`. Whatever is loaded is settled, as long as the stored heights are true
(`Loaded.foldlM_place`), and a settled index that is saved and loaded comes back node for node
(`loadIndex_saveIndex`).
-/

namespace MergedWork

/-! ## The order of loading -/

/-- What the order of loading depends on. -/
def Node.key (n : Node) : Nat × Digest := (n.height, n.hash)

/-- The order of loading: by height, and for one height by hash. -/
def KeyBefore (k l : Nat × Digest) : Prop := k.1 < l.1 ∨ k.1 = l.1 ∧ k.2.bytes < l.2.bytes
  deriving Decidable

instance : Std.Asymm KeyBefore where
  asymm k l h h' := by
    rcases h with hlt | ⟨heq, hlt⟩
    · rcases h' with hlt' | ⟨heq', -⟩
      · exact Nat.lt_asymm hlt hlt'
      · exact Nat.ne_of_gt hlt heq'
    · rcases h' with hlt' | ⟨-, hlt'⟩
      · exact Nat.ne_of_gt hlt' heq
      · exact List.lt_asymm hlt hlt'

theorem Node.linked_linked (n : Node) (id : Nat) (prev : Option Nat) (parent : Option Node) :
    (n.linked id prev parent).linked id prev parent = n.linked id prev parent := by
  cases parent with
  | none => rfl
  | some p =>
    simp only [Node.linked]
    split_ifs <;> rfl

namespace BlockIndex

variable {ix ix' : BlockIndex} {i k : Nat} {n m : Node} {prev : Option Nat}

theorem bind_get?_push (n : Node) (hprev : ∀ p, prev = some p → p < ix.size) (next : Option Nat) :
    prev.bind (ix.push n next).1.get? = prev.bind ix.get? := by
  cases prev with
  | none => rfl
  | some p =>
    obtain ⟨q, hq⟩ := get?_of_lt_size (hprev p rfl)
    rw [Option.bind_some, Option.bind_some, hq, extends_push ix n next p q hq]

/-- Each node is what linking it to its parent gives. -/
def Linked (ix : BlockIndex) : Prop :=
  ∀ i n, ix.get? i = some n → n.linked i n.prev (n.prev.bind ix.get?) = n

theorem Linked.push (h : ix.Linked) (wf : ix.WellFormed)
    (hprev : ∀ p, prev = some p → p < ix.size) : (ix.push n prev).1.Linked := by
  intro i m hm
  rcases get?_push_cases hm with ⟨rfl, rfl⟩ | hold
  · rw [Node.prev_linked, bind_get?_push n hprev, Node.linked_linked]
  · rw [bind_get?_push n (wf.lt_size_of_prev hold), h i m hold]

/-- The index of the first nodes. -/
def take (ix : BlockIndex) (k : Nat) : BlockIndex := { ix with nodes := (ix.nodes.toList.take k).toArray }

theorem get?_take_eq_some_iff : (ix.take k).get? i = some n ↔ i < k ∧ ix.get? i = some n := by
  rw [get?, get?, take, List.getElem?_toArray, List.getElem?_take, Array.getElem?_toList]
  split_ifs with hlt
  · exact (and_iff_right hlt).symm
  · exact ⟨nofun, fun h => absurd h.1 hlt⟩

theorem take_of_size_le (h : ix.size ≤ k) : ix.take k = ix := by
  rw [take, List.take_of_length_le h, Array.toArray_toList]

theorem WellFormed.take (wf : ix.WellFormed) (k : Nat) : (ix.take k).WellFormed where
  placed i n hn := by
    obtain ⟨hlt, hn⟩ := get?_take_eq_some_iff.1 hn
    have hplaced := wf.placed i n hn
    refine ⟨hplaced.id_eq, hplaced.root, fun p hp => ?_⟩
    obtain ⟨hp, q, hq, hsums⟩ := hplaced.child p hp
    exact ⟨hp, q, get?_take_eq_some_iff.2 ⟨Nat.lt_trans hp hlt, hq⟩, hsums⟩
  hash_inj i j n m hn hm :=
    wf.hash_inj i j n m (get?_take_eq_some_iff.1 hn).2 (get?_take_eq_some_iff.1 hm).2

/-- Pushing the nodes of an index again gives the index. -/
theorem Linked.push_take (h : ix.Linked) (wf : ix.WellFormed) (hn : ix.get? i = some n) :
    ((ix.take i).push n n.prev).1 = ix.take (i + 1) := by
  have hlt := lt_size_of_get? hn
  have hsize : (ix.take i).size = i := by
    rw [size, take, List.size_toArray, List.length_take]
    exact Nat.min_eq_left (Nat.le_of_lt hlt)
  have hparent : n.prev.bind (ix.take i).get? = n.prev.bind ix.get? := by
    cases hprev : n.prev with
    | none => rfl
    | some p =>
      obtain ⟨hp, q, hq, -⟩ := (wf.placed i n hn).child p hprev
      rw [Option.bind_some, Option.bind_some, hq, get?_take_eq_some_iff.2 ⟨hp, hq⟩]
  have hnodes : ix.nodes.toList.take (i + 1) = ix.nodes.toList.take i ++ [n] := by
    rw [List.take_add_one, Array.getElem?_toList]
    exact congrArg _ (congrArg Option.toList hn)
  rw [BlockIndex.push, hsize, hparent, h i n hn, take, take, hnodes, ← List.push_toArray]

/-- The nodes are in the order of loading, and linked. -/
structure Settled (ix : BlockIndex) : Prop where
  wellFormed : ix.WellFormed
  linked : ix.Linked
  ordered : (ix.nodes.toList.map Node.key).Pairwise KeyBefore

end BlockIndex

namespace Archive

open BlockIndex

variable {a : Archive} {ix jx jx' : BlockIndex} {rule : ForkRule} {i : Nat} {n : Node} {r q : Record}
  {records front rest : List Record}

/-- The records in the order in which they are loaded. -/
def byHeight (records : List Record) : List Record :=
  records.mergeSort fun r q => r.node.height ≤ q.node.height

theorem mem_byHeight : r ∈ byHeight records ↔ r ∈ records :=
  (records.mergeSort_perm _).mem_iff

/-- Records of one height keep their order. -/
theorem filter_byHeight (records : List Record) (height : Nat) :
    (byHeight records).filter (fun r => r.node.height = height) =
      records.filter fun r => r.node.height = height :=
  filter_mergeSort_key (fun r : Record => r.node.height) records height

theorem ordered_byHeight (h : Ascending records) :
    ((byHeight records).map fun r => r.node.key).Pairwise KeyBefore := by
  rw [List.pairwise_map, List.pairwise_iff_forall_sublist]
  intro r q hsub
  have hsorted := pairwise_mergeSort_key (fun r : Record => r.node.height) records
  have hle := List.pairwise_iff_forall_sublist.1 hsorted hsub
  rcases Nat.lt_or_eq_of_le hle with hlt | heq
  · exact Or.inl hlt
  · -- Records of one height stand as they did before, which is in the order of their hashes.
    refine Or.inr ⟨heq, List.pairwise_iff_forall_sublist.1 h ?_⟩
    have hlevel := hsub.filter fun r => r.node.height = q.node.height
    have hpair : [r, q].filter (fun r => r.node.height = q.node.height) = [r, q] := by simp [heq]
    rw [filter_byHeight, hpair] at hlevel
    exact hlevel.trans List.filter_sublist

/-- Records in the order of loading are determined by what they are. -/
theorem eq_of_mem_iff (h : (front.map fun r => r.node.key).Pairwise KeyBefore)
    (h' : (rest.map fun r => r.node.key).Pairwise KeyBefore) (hmem : ∀ r, r ∈ front ↔ r ∈ rest) :
    front = rest := by
  have : Std.Asymm fun r q : Record => KeyBefore r.node.key q.node.key :=
    ⟨fun r q => Std.Asymm.asymm r.node.key q.node.key⟩
  exact (List.pairwise_map.1 h).eq_of_mem_iff (List.pairwise_map.1 h') hmem

/-- However records are put in the order of loading, that is how they are loaded. -/
theorem loadIndex_eq_foldlM (h : Ascending a.records)
    (hordered : (records.map fun r => r.node.key).Pairwise KeyBefore)
    (hmem : ∀ r, r ∈ records ↔ r ∈ a.records) (rule : ForkRule) :
    a.loadIndex rule = records.foldlM place (.empty rule) := by
  have hsorted : byHeight a.records = records :=
    eq_of_mem_iff (ordered_byHeight h) hordered fun r => mem_byHeight.trans (hmem r).symm
  exact congrArg (List.foldlM place (.empty rule)) hsorted

/-! ## Placing a record -/

/-- A record with a new hash is placed behind the block that it names, which has to be known. -/
theorem place_eq_ok_iff (hnew : jx.lookup? r.node.hash = none) :
    place jx r = .ok jx' ↔
      ∃ prev, r.previous.map jx.lookup? = prev.map some ∧ jx' = (jx.push r.node prev).1 := by
  rw [place]
  cases hprev : r.previous with
  | none =>
    simp only [insertLoaded, hnew]
    constructor
    · intro hok
      cases hok
      exact ⟨none, rfl, rfl⟩
    · rintro ⟨prev, hnone, rfl⟩
      cases prev with
      | none => rfl
      | some p => cases hnone
  | some hash =>
    cases hfind : jx.lookup? hash with
    | none =>
      simp only [BlockIndex.contains, hfind]
      constructor
      · intro hok
        cases hok
      · rintro ⟨prev, hsome, -⟩
        rw [Option.map_some, hfind] at hsome
        cases prev <;> cases hsome
    | some p =>
      simp only [BlockIndex.contains, hfind, insertLoaded, hnew]
      constructor
      · intro hok
        cases hok
        exact ⟨some p, by rw [Option.map_some, hfind, Option.map_some], rfl⟩
      · rintro ⟨prev, hsome, rfl⟩
        rw [Option.map_some, hfind] at hsome
        cases prev with
        | none => cases hsome
        | some q =>
          cases hsome
          rfl

/-! ## Loading a settled index -/

/-- Where all before it are there, the record of a node brings back the node. -/
theorem place_record (wf : ix.WellFormed) (hlinked : ix.Linked) (hn : ix.get? i = some n) :
    place (ix.take i) (record ix n) = .ok (ix.take (i + 1)) := by
  have hnew : (ix.take i).lookup? n.hash = none := by
    refine lookup?_eq_none_iff.2 fun j m hm hhash => ?_
    obtain ⟨hlt, hm⟩ := get?_take_eq_some_iff.1 hm
    exact Nat.ne_of_lt hlt (wf.hash_inj j i m n hm hn hhash)
  refine (place_eq_ok_iff hnew).2 ⟨n.prev, ?_, (hlinked.push_take wf hn).symm⟩
  cases hprev : n.prev with
  | none => rw [record, hprev, Option.bind_none, Option.map_none, Option.map_none, Option.map_none]
  | some p =>
    obtain ⟨hlt, q, hq, -⟩ := (wf.placed i n hn).child p hprev
    have hfind : (ix.take i).lookup? q.hash = some p :=
      (wf.take i).lookup?_eq_some_iff.2 ⟨q, get?_take_eq_some_iff.2 ⟨hlt, hq⟩, rfl⟩
    rw [record, hprev, Option.bind_some, hq, Option.map_some, Option.map_some, hfind,
      Option.map_some]

theorem foldlM_place_record (wf : ix.WellFormed) (hlinked : ix.Linked) {nodes : List Node}
    (hnodes : ix.nodes.toList.drop i = nodes) :
    (nodes.map (record ix)).foldlM place (ix.take i) = .ok ix := by
  induction nodes generalizing i with
  | nil =>
    rw [List.drop_eq_nil_iff, Array.length_toList] at hnodes
    rw [take_of_size_le hnodes]
    rfl
  | cons n nodes ih =>
    have hn : ix.get? i = some n := by
      rw [BlockIndex.get?, ← Array.getElem?_toList, ← Nat.add_zero i, ← List.getElem?_drop, hnodes]
      rfl
    have hback : ix.nodes.toList.drop (i + 1) = nodes := by
      rw [← List.tail_drop, hnodes, List.tail_cons]
    rw [List.map_cons, List.foldlM_cons, place_record wf hlinked hn]
    exact ih hback

/-- A settled index is its own copy. -/
theorem loadIndex_saveIndex (h : ix.Settled) (hfits : a.Fits ix) :
    (a.saveIndex ix).loadIndex ix.rule = .ok ix := by
  obtain ⟨hascending, hmem⟩ := hfits.saveIndex h.wellFormed
  have hordered : ((ix.nodes.toList.map (record ix)).map fun r => r.node.key).Pairwise KeyBefore := by
    rw [List.map_map]
    exact h.ordered
  rw [loadIndex_eq_foldlM hascending hordered]
  · exact foldlM_place_record h.wellFormed h.linked List.drop_zero
  · intro r
    rw [hmem, List.mem_map]
    constructor
    · rintro ⟨n, hn, rfl⟩
      obtain ⟨i, hi⟩ := mem_nodes_iff.1 hn
      exact ⟨i, n, hi, rfl⟩
    · rintro ⟨i, n, hn, rfl⟩
      exact ⟨n, mem_nodes_iff.2 ⟨i, hn⟩, rfl⟩

/-! ## Loading records -/

/-- The block of a record has the height that the record says, behind the block that it names. -/
def Stands (ix : BlockIndex) (r : Record) : Prop :=
  ∃ i n, ix.get? i = some n ∧ n.key = r.node.key ∧ ix.parentHash? n = r.previous

theorem stands_record (hn : ix.get? i = some n) : Stands ix (record ix n) := ⟨i, n, hn, rfl, rfl⟩

theorem Stands.of_extends (h : Stands ix r) (wf : ix.WellFormed) (hext : Extends ix jx) :
    Stands jx r := by
  obtain ⟨i, n, hn, hkey, hparent⟩ := h
  exact ⟨i, n, hext i n hn, hkey, (wf.parentHash?_of_extends hext hn).trans hparent⟩

theorem Stands.contains (h : Stands ix r) : ix.contains r.node.hash = true := by
  obtain ⟨i, n, hn, hkey, -⟩ := h
  exact contains_iff.2 ⟨i, n, hn, congrArg Prod.snd hkey⟩

theorem Stands.height_eq_zero (h : Stands ix r) (wf : ix.WellFormed) (hroot : r.previous = none) :
    r.node.height = 0 := by
  obtain ⟨i, n, hn, hkey, hparent⟩ := h
  have hheight : n.height = r.node.height := congrArg Prod.fst hkey
  cases hprev : n.prev with
  | none => rw [← hheight, ((wf.placed i n hn).root hprev).1]
  | some p =>
    obtain ⟨-, q, hq, -⟩ := (wf.placed i n hn).child p hprev
    rw [parentHash?, hprev, Option.bind_some, hq, hroot] at hparent
    cases hparent

theorem Stands.height_eq_succ (h : Stands ix r) (hq : Stands ix q) (wf : ix.WellFormed)
    (hchild : r.previous = some q.node.hash) : r.node.height = q.node.height + 1 := by
  obtain ⟨i, n, hn, hkey, hparent⟩ := h
  obtain ⟨j, m, hm, hkey', -⟩ := hq
  have hheight : n.height = r.node.height := congrArg Prod.fst hkey
  have hheight' : m.height = q.node.height := congrArg Prod.fst hkey'
  have hhash : m.hash = q.node.hash := congrArg Prod.snd hkey'
  cases hprev : n.prev with
  | none =>
    rw [parentHash?, hprev, hchild] at hparent
    cases hparent
  | some p =>
    obtain ⟨-, t, ht, hsucc, -⟩ := (wf.placed i n hn).child p hprev
    rw [parentHash?, hprev, Option.bind_some, ht, Option.map_some, hchild, Option.some.injEq,
      ← hhash] at hparent
    obtain rfl := wf.hash_inj p j t m ht hm hparent
    obtain rfl := Option.some.inj (ht.symm.trans hm)
    rw [← hheight, hsucc, hheight']

/-- An index that was loaded from some records. -/
structure Loaded (rule : ForkRule) (jx : BlockIndex) (front : List Record) : Prop where
  wellFormed : jx.WellFormed
  linked : jx.Linked
  rule_eq : jx.rule = rule
  keys : jx.nodes.toList.map Node.key = front.map fun r => r.node.key
  stands : ∀ r ∈ front, Stands jx r

theorem loaded_empty (rule : ForkRule) : Loaded rule (.empty rule) [] where
  wellFormed := wellFormed_empty rule
  linked i _ h := nomatch (get?_empty rule i).symm.trans h
  rule_eq := rfl
  keys := rfl
  stands := nofun

theorem Loaded.exists_record (h : Loaded rule jx front) (hn : jx.get? i = some n) :
    ∃ r ∈ front, r.node.key = n.key := by
  have hmem : n.key ∈ jx.nodes.toList.map Node.key :=
    List.mem_map_of_mem (mem_nodes_iff.2 ⟨i, hn⟩)
  rw [h.keys] at hmem
  exact List.mem_map.1 hmem

/-- The new node of a record has the height of the record, if that is true. -/
theorem Loaded.key_linked (h : Loaded rule jx front) (wf : ix.WellFormed)
    (hfront : ∀ q ∈ front, Stands ix q) (hr : Stands ix r) {prev : Option Nat}
    (hprev : r.previous.map jx.lookup? = prev.map some) :
    (r.node.linked jx.size prev (prev.bind jx.get?)).key = r.node.key ∧
      (prev.bind jx.get?).map Node.hash = r.previous ∧ ∀ p, prev = some p → p < jx.size := by
  cases prev with
  | none =>
    have hroot : r.previous = none := Option.map_eq_none_iff.1 hprev
    refine ⟨?_, hroot.symm, nofun⟩
    rw [Node.key, Node.key, Node.hash_linked, hr.height_eq_zero wf hroot]
    rfl
  | some p =>
    -- The parent was loaded from a record, too, and that has a true height.
    obtain ⟨hash, hprevious, hfind⟩ := Option.map_eq_some_iff.1 hprev
    obtain ⟨m, hm, rfl⟩ := hash_of_lookup? hfind
    obtain ⟨q, hq, hkey⟩ := h.exists_record hm
    have hheight : q.node.height = m.height := congrArg Prod.fst hkey
    have hhash : q.node.hash = m.hash := congrArg Prod.snd hkey
    have hsucc := hr.height_eq_succ (hfront q hq) wf (by rw [hprevious, hhash])
    rw [Option.bind_some, hm, Option.map_some, hprevious]
    refine ⟨?_, rfl, lt_size_of_some_lookup? hfind⟩
    rw [Node.key, Node.key, Node.hash_linked, hsucc, hheight]
    rfl

theorem Loaded.place (h : Loaded rule jx front) (wf : ix.WellFormed)
    (hfront : ∀ q ∈ front, Stands ix q) (hr : Stands ix r)
    (hnew : ∀ q ∈ front, q.node.hash ≠ r.node.hash) (hok : Archive.place jx r = .ok jx') :
    Loaded rule jx' (front ++ [r]) := by
  have hunknown : jx.lookup? r.node.hash = none := by
    refine lookup?_eq_none_iff.2 fun i m hm hhash => ?_
    obtain ⟨q, hq, hkey⟩ := h.exists_record hm
    exact hnew q hq ((congrArg Prod.snd hkey).trans hhash)
  obtain ⟨prev, hprev, rfl⟩ := (place_eq_ok_iff hunknown).1 hok
  obtain ⟨hkey, hparent, hlt⟩ := h.key_linked wf hfront hr hprev
  have hext := extends_push jx r.node prev
  constructor
  case wellFormed => exact h.wellFormed.push hunknown hlt
  case linked => exact h.linked.push h.wellFormed hlt
  case rule_eq => exact h.rule_eq
  case keys =>
    rw [push, Array.toList_push, List.map_append, h.keys, List.map_singleton, hkey, List.map_append,
      List.map_singleton]
  case stands =>
    intro q hq
    rcases List.mem_append.1 hq with hq | hq
    · exact (h.stands q hq).of_extends h.wellFormed hext
    · obtain rfl := List.mem_singleton.1 hq
      refine ⟨jx.size, _, get?_push_size jx q.node prev, hkey, ?_⟩
      rw [parentHash?, Node.prev_linked, bind_get?_push q.node hlt, hparent]

theorem Loaded.foldlM_place (h : Loaded rule jx front) (wf : ix.WellFormed)
    (hstands : ∀ r ∈ front ++ rest, Stands ix r)
    (hdistinct : (front ++ rest).Pairwise fun r q => r.node.hash ≠ q.node.hash)
    (hok : rest.foldlM Archive.place jx = .ok jx') : Loaded rule jx' (front ++ rest) := by
  induction rest generalizing front jx with
  | nil =>
    cases hok
    rwa [List.append_nil]
  | cons r rest ih =>
    rw [List.foldlM_cons] at hok
    cases hplace : Archive.place jx r with
    | error cause =>
      rw [hplace] at hok
      cases hok
    | ok jx₁ =>
      rw [hplace] at hok
      have hnew : ∀ q ∈ front, q.node.hash ≠ r.node.hash := fun q hq =>
        (List.pairwise_append.1 hdistinct).2.2 q hq r List.mem_cons_self
      obtain ⟨hfront, hback⟩ := List.forall_mem_append.1 hstands
      have h₁ := h.place wf hfront (hback r List.mem_cons_self) hnew hplace
      rw [List.append_cons] at hstands hdistinct ⊢
      exact ih h₁ hstands hdistinct hok

/-- Records whose blocks stand as they say are loaded as a settled index, in which they stand so
too. -/
theorem loaded_of_loadIndex (wf : ix.WellFormed) (hascending : Ascending a.records)
    (hstands : ∀ r ∈ a.records, Stands ix r) (hload : a.loadIndex rule = .ok jx) :
    jx.Settled ∧ jx.rule = rule ∧ (∀ r ∈ a.records, Stands jx r) ∧ jx.size = a.records.length := by
  have hperm := a.records.mergeSort_perm fun r q => r.node.height ≤ q.node.height
  have hloaded : Loaded rule jx (byHeight a.records) :=
    (loaded_empty rule).foldlM_place wf (fun r hr => hstands r (mem_byHeight.1 hr))
      ((hascending.imp hash_ne_of_lt).perm hperm.symm Ne.symm) hload
  refine ⟨⟨hloaded.wellFormed, hloaded.linked, ?_⟩, hloaded.rule_eq,
    fun r hr => hloaded.stands r (mem_byHeight.2 hr), ?_⟩
  · rw [hloaded.keys]
    exact ordered_byHeight hascending
  · have hlength := congrArg List.length hloaded.keys
    rw [List.length_map, List.length_map, Array.length_toList] at hlength
    exact hlength.trans hperm.length_eq

end Archive

end MergedWork

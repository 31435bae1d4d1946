import MergedWork.Proofs.ActiveChain.Locator
import MergedWork.Proofs.ChainState.Admission

/-!
# Two peers

Two states that start from the same first block, and see different headers since, look for a common
block: the one sends its locator, and the other searches its own index for the entries. A hash stands
for a header, whose bytes name the block before it. So blocks with one hash have the same past in
both indexes, unless two headers with one hash differ (`path_hashes_eq_or_collide`). Hence below the
block that the search finds both active chains are the same, and no higher entry of the locator is
in the chain that is searched (`peers_meet`).
-/

namespace MergedWork

/-! ## One hash, one past -/

/-- The bytes of a header say which block comes before it. -/
theorem Header.previous_eq_of_bytes_eq {h h' : Header} (heq : h.bytes = h'.bytes) :
    h.previous = h'.previous := by
  have hsplit : ∀ h : Header, ∃ rest,
      h.bytes = Wire.word32 h.version.word ++ (h.previous.bytes ++ rest) := by
    intro h
    cases hnonce : h.nonce <;> simp [Header.bytes, Header.start, hnonce]
  obtain ⟨rest, hrest⟩ := hsplit h
  obtain ⟨rest', hrest'⟩ := hsplit h'
  rw [hrest, hrest'] at heq
  have hlength : (Wire.word32 h.version.word).length = (Wire.word32 h'.version.word).length := by
    rw [Wire.word32, Wire.word32, Bytes.length_ofNat, Bytes.length_ofNat]
  have hback := List.append_inj_right heq hlength
  exact Digest.ext (List.append_inj_left hback (by rw [Digest.length_bytes, Digest.length_bytes]))

namespace BlockIndex

variable {ix ix' : BlockIndex} {i j : Nat} {n m : Node}

/-- Two headers of the indexes have the same hash, and are not the same bytes. -/
def Collide (ix ix' : BlockIndex) : Prop :=
  ∃ n ∈ ix.nodes.toList, ∃ m ∈ ix'.nodes.toList,
    (ix.header n).hash = (ix'.header m).hash ∧ (ix.header n).bytes ≠ (ix'.header m).bytes

/-- Nodes carry the hashes of their headers, so that no header has to be hashed again. -/
theorem collide_iff (hix : ix.Hashed) (hix' : ix'.Hashed) :
    Collide ix ix' ↔ ∃ n ∈ ix.nodes.toList, ∃ m ∈ ix'.nodes.toList,
      n.hash = m.hash ∧ (ix.header n).bytes ≠ (ix'.header m).bytes := by
  refine exists_congr fun n => and_congr_right fun hn =>
    exists_congr fun m => and_congr_right fun hm => and_congr_left fun _ => ?_
  obtain ⟨i, hget⟩ := mem_nodes_iff.1 hn
  obtain ⟨j, hget'⟩ := mem_nodes_iff.1 hm
  rw [hix i n hget, hix' j m hget']

/-- If no block has the zero hash, the header of a node says whether it has a parent. -/
theorem parentHash?_eq (hzero : ix.contains .zero = false) (n : Node) :
    ix.parentHash? n = if ix.previousHash n = .zero then none else some (ix.previousHash n) := by
  rw [previousHash_eq]
  cases hparent : ix.parentHash? n with
  | none => rfl
  | some hash =>
    rw [Option.getD_some, if_neg]
    rintro rfl
    obtain ⟨m, hm, hhash⟩ := Option.map_eq_some_iff.1 hparent
    obtain ⟨p, -, hget⟩ := Option.bind_eq_some_iff.1 hm
    rw [contains_iff.2 ⟨p, m, hget, hhash⟩] at hzero
    cases hzero

/-- Blocks with one hash have the same past, or two headers collide. -/
theorem path_hashes_eq_or_collide (wf : ix.WellFormed) (wf' : ix'.WellFormed) (hix : ix.Hashed)
    (hix' : ix'.Hashed) (hzero : ix.contains .zero = false) (hzero' : ix'.contains .zero = false)
    (hn : ix.get? i = some n) (hm : ix'.get? j = some m) (hhash : n.hash = m.hash) :
    (ix.ancestors i).map Node.hash = (ix'.ancestors j).map Node.hash ∨ Collide ix ix' := by
  refine or_iff_not_imp_right.2 fun hcollide => ?_
  refine wf.path_hashes_eq_of_parentHash? wf' (fun i j n m hn hm hhash => ?_) hn hm hhash
  have hbytes : (ix.header n).bytes = (ix'.header m).bytes := by
    by_contra hne
    exact hcollide ((collide_iff hix hix').2
      ⟨n, mem_nodes_iff.2 ⟨i, hn⟩, m, mem_nodes_iff.2 ⟨j, hm⟩, hhash, hne⟩)
  have hprevious : ix.previousHash n = ix'.previousHash m :=
    Header.previous_eq_of_bytes_eq hbytes
  rw [parentHash?_eq hzero, parentHash?_eq hzero', hprevious]

end BlockIndex

namespace ChainState

open BlockIndex ActiveChain

variable {s a b : ChainState} {params : Params} {tip height i : Nat} {n m : Node}

/-! ## Runs -/

theorem hashed_run (hgenesis : params.genesis.previous = .zero) (subs : List Submission) :
    ((start params).run subs).index.Hashed := by
  refine (run_induction (P := fun s => s.Coherent ∧ s.index.Hashed) (fun s sub hs => ?_) ?_ subs).2
  · refine ⟨hs.1.next sub, ?_⟩
    rcases s.next_cases_connects sub with heq | ⟨p, parent, hconnects, -, heq⟩
    · rw [heq]
      exact hs.2
    · rw [heq, index_updateTip]
      exact hs.2.push hs.1.wellFormed hconnects.lookup?_previous
  · refine ⟨coherent_start hgenesis, fun i n hn => ?_⟩
    obtain ⟨-, rfl⟩ := get?_start hgenesis hn
    rw [header_genesisNode _ hgenesis]
    rfl

/-- Up to the height of one of its blocks, the active chain is the path of that block. -/
theorem hashAt?_of_mem (wf : s.index.WellFormed) (h : s.chain.Follows s.index (some tip))
    (hm : m ∈ s.index.ancestors tip) (hle : height ≤ m.height) :
    s.hashAt? height = ((s.index.ancestors m.id).map Node.hash).reverse[height]? := by
  rw [hashAt?_eq wf h, ← List.map_reverse, ← List.map_reverse, List.getElem?_map,
    List.getElem?_map, ← pathFrom_some, wf.getElem?_reverse_pathFrom hm hle]

theorem hashAt?_eq_some_iff (wf : s.index.WellFormed) (h : s.chain.Follows s.index (some tip))
    {hash : Digest} :
    s.hashAt? height = some hash ↔ ∃ n ∈ s.index.ancestors tip, n.height = height ∧ n.hash = hash := by
  rw [hashAt?_eq wf h]
  exact pathHash?_eq_some_iff wf

/-- The entries of the locator from the tip are the hashes of the active chain at falling heights. -/
theorem locator_eq (wf : s.index.WellFormed) (h : s.chain.Follows s.index (some tip))
    (hn : s.index.get? tip = some n) :
    s.locator = (descent (tip + 1) 0 1 n.height).filterMap s.hashAt? := by
  have hpath : s.hashAt? = pathHash? s.index tip := funext (hashAt?_eq wf h)
  rw [hpath, locator, h.locator_eq wf hn (by rw [Option.none_or]; exact h.tip?_eq wf hn)]

/-! ## Meeting -/

/-- A block of the active chain of `b` stands at the same height of that of `a`, and below it both
are the same. The entries of the locator of `a` that stand higher are not in the active chain
of `b`. -/
structure Meets (a b : ChainState) (i : Nat) (n : Node) : Prop where
  get? : b.index.get? i = some n
  at? : b.chain.at? n.height = some i
  shared : a.hashAt? n.height = some n.hash
  same : ∀ height ≤ n.height,
    ∃ hash, a.hashAt? height = some hash ∧ b.hashAt? height = some hash
  above : ∀ hash ∈ a.locator, ∃ height, a.hashAt? height = some hash ∧
    (n.height < height → ∀ height', b.hashAt? height' ≠ some hash)

section

variable {tip' : Nat} (wf : a.index.WellFormed) (wf' : b.index.WellFormed)
  (h : a.chain.Follows a.index (some tip)) (h' : b.chain.Follows b.index (some tip'))

include wf wf' h h'

/-- Where blocks of both active chains have the same past, the chains agree that far. -/
theorem meets_of_path_hashes_eq (hm : m ∈ a.index.ancestors tip) (hn : n ∈ b.index.ancestors tip')
    (hhash : m.hash = n.hash)
    (hpaths : (a.index.ancestors m.id).map Node.hash = (b.index.ancestors n.id).map Node.hash)
    (habove : ∀ hash ∈ a.locator, ∃ height, a.hashAt? height = some hash ∧
      (m.height < height → ∀ height', b.hashAt? height' ≠ some hash)) :
    Meets a b n.id n := by
  have hget := (wf.split_ancestors hm).1
  have hget' := (wf'.split_ancestors hn).1
  have hheight : m.height = n.height := by
    have hlength := congrArg List.length hpaths
    rw [List.length_map, List.length_map, wf.length_ancestors hget,
      wf'.length_ancestors hget'] at hlength
    exact Nat.succ.inj hlength
  constructor
  case get? => exact hget'
  case at? => exact (h'.at?_eq_some_iff wf').2 ⟨n, hn, rfl, rfl⟩
  case shared => exact (hashAt?_eq_some_iff wf h).2 ⟨m, hm, hheight, hhash⟩
  case same =>
    intro height hle
    obtain ⟨k, hk, hat⟩ := wf'.exists_height_eq hget' hle
    have hhash' := (pathHash?_eq_some_iff wf').2 ⟨k, hk, hat, rfl⟩
    refine ⟨k.hash, ?_, (hashAt?_of_mem wf' h' hn hle).trans hhash'⟩
    rw [hashAt?_of_mem wf h hm (hheight ▸ hle), hpaths]
    exact hhash'
  case above =>
    rw [← hheight]
    exact habove

end

/-- The active chain starts with the first block. -/
theorem exists_first (hgenesis : params.genesis.previous = .zero) (subs : List Submission)
    (hzero : ((start params).run subs).index.contains .zero = false)
    (hn : ((start params).run subs).index.get? tip = some n) :
    ∃ g ∈ ((start params).run subs).index.ancestors tip,
      g.height = 0 ∧ g.hash = params.genesis.hash := by
  have hlast := (coherent_run hgenesis subs).getLast?_ancestors hzero hn
  rw [params_run, params_start] at hlast
  exact ⟨genesisNode params, List.mem_of_getLast? hlast, rfl, rfl⟩

/-- If no header has the zero hash, the search of a peer for the locator of another finds a block.
It stands at one height in both active chains, which are the same up to there, and no higher entry
of the locator is in the chain of the peer that searches; or else two headers of the peers have the
same hash, and are not the same bytes. -/
theorem peers_meet (params : Params) (hgenesis : params.genesis.previous = .zero)
    (subs subs' : List Submission)
    (hzero : ∀ hash ∈ params.genesis.hash :: (subs ++ subs').map fun sub => sub.header.hash,
      hash ≠ .zero) :
    let a := (start params).run subs
    let b := (start params).run subs'
    ∃ i, b.findFork a.locator = some i ∧ ((∃ n, Meets a b i n) ∨ Collide a.index b.index) := by
  intro a b
  rw [List.map_append] at hzero
  have hfree : a.index.contains .zero = false :=
    not_contains_zero_of_run hgenesis fun hash hmem =>
      hzero hash (List.cons_subset_cons _ (List.subset_append_left _ _) hmem)
  have hfree' : b.index.contains .zero = false :=
    not_contains_zero_of_run hgenesis fun hash hmem =>
      hzero hash (List.cons_subset_cons _ (List.subset_append_right _ _) hmem)
  have ha : a.Coherent := coherent_run hgenesis subs
  have hb : b.Coherent := coherent_run hgenesis subs'
  have wf := ha.wellFormed
  have wf' := hb.wellFormed
  obtain ⟨tip, ⟨t, ht, -⟩, hfollows⟩ := ha.active
  obtain ⟨tip', ⟨t', ht', -⟩, hfollows'⟩ := hb.active
  -- Both active chains start with the first block, which is the last entry of the locator.
  obtain ⟨g, hg, hg0, hghash⟩ := exists_first hgenesis subs hfree ht
  obtain ⟨g', hg', -, hghash'⟩ := exists_first hgenesis subs' hfree' ht'
  have hlocator := locator_eq wf hfollows ht
  have hfirst : a.hashAt? 0 = some params.genesis.hash :=
    (hashAt?_eq_some_iff wf hfollows).2 ⟨g, hg, hg0, hghash⟩
  have hlast : 0 ∈ descent (tip + 1) 0 1 t.height :=
    zero_mem_descent Nat.one_pos (Nat.lt_succ_of_le (wf.height_le ht))
  obtain ⟨x, -, n, hn, hat, hfind, habove⟩ := hfollows'.findFork_of_falling wf'
    (pairwise_descent Nat.one_pos) hlast hfirst hg' hghash'
  obtain ⟨m, hm, rfl, hhash⟩ := (hashAt?_eq_some_iff wf hfollows).1 hat
  refine ⟨n.id, by rw [findFork, hlocator, hfind], ?_⟩
  have hpaths := path_hashes_eq_or_collide wf wf' (hashed_run hgenesis subs)
    (hashed_run hgenesis subs') hfree hfree' (wf.split_ancestors hm).1 (wf'.split_ancestors hn).1
    hhash
  refine hpaths.imp_left fun hpaths =>
    ⟨n, meets_of_path_hashes_eq wf wf' hfollows hfollows' hm hn hhash hpaths fun hash hmem => ?_⟩
  rw [hlocator] at hmem
  obtain ⟨height, hheight, hhash'⟩ := List.mem_filterMap.1 hmem
  refine ⟨height, hhash', fun hlt height' hsome => ?_⟩
  obtain ⟨k, hk, -, hkhash⟩ := (hashAt?_eq_some_iff wf' hfollows').1 hsome
  exact habove height hheight hlt hash hhash' k hk hkhash

/-- The one peer has seen a fork and a block behind its second side, and the other one the second
side only, in another place. They meet there. -/
theorem peers_meet_behind :
    Network.regtest.params.genesis.previous = .zero ∧
      (∀ hash ∈ Network.regtest.params.genesis.hash ::
        ([second 1, second 0, third] ++ [second 0]).map fun sub => sub.header.hash, hash ≠ .zero) ∧
      ((start Network.regtest.params).run [second 1, second 0, third]).locator.length = 3 ∧
      ((start Network.regtest.params).run [second 1, second 0, third]).chain.at? 1 = some 2 ∧
      ∃ n, Meets ((start Network.regtest.params).run [second 1, second 0, third])
        ((start Network.regtest.params).run [second 0]) 1 n := by
  have hzero : ∀ hash ∈ Network.regtest.params.genesis.hash ::
      ([second 1, second 0, third] ++ [second 0]).map fun sub => sub.header.hash,
      hash ≠ .zero := by
    decide +kernel
  have hstates :
      ((start Network.regtest.params).run [second 1, second 0, third]).locator.length = 3 ∧
      ((start Network.regtest.params).run [second 1, second 0, third]).chain.at? 1 = some 2 ∧
      ((start Network.regtest.params).run [second 0]).findFork
        ((start Network.regtest.params).run [second 1, second 0, third]).locator = some 1 ∧
      ¬∃ n ∈ ((start Network.regtest.params).run [second 1, second 0, third]).index.nodes.toList,
        ∃ m ∈ ((start Network.regtest.params).run [second 0]).index.nodes.toList, n.hash = m.hash ∧
          (((start Network.regtest.params).run [second 1, second 0, third]).index.header n).bytes ≠
            (((start Network.regtest.params).run [second 0]).index.header m).bytes := by
    decide +kernel
  obtain ⟨hlength, hplace, hfork, hdistinct⟩ := hstates
  obtain ⟨i, hfind, hmeets⟩ :=
    peers_meet Network.regtest.params rfl [second 1, second 0, third] [second 0] hzero
  obtain rfl : i = 1 := Option.some.inj (hfind.symm.trans hfork)
  rw [collide_iff (hashed_run rfl _) (hashed_run rfl _)] at hmeets
  exact ⟨rfl, hzero, hlength, hplace, hmeets.resolve_right hdistinct⟩

end ChainState

end MergedWork

import MergedWork.Proofs.BlockIndex.Lasting
import MergedWork.Proofs.ChainState.InPlace

/-!
# Headers that come back

A node does not keep the hash of the block before it, but the place of that block. As long as nodes
come from headers alone, the header that is read back from a node is still the one for which it was
added (`header_of_creates`): a place is given out for the first time by the call that adds its node
(`issued_iff`), and the nodes that a header is read from never change their hashes. So a header that
was read back is known, and inserting it again changes nothing (`inserted_of_run`).
-/

namespace MergedWork

/-- The state with the index and the table in place of its own. -/
def TabledIndex.inState (t : TabledIndex) (s : ChainState) : TabledState :=
  { s with index := t.index, table := t.table }

namespace BlockIndex

variable {rule : ForkRule} {history later before : List Change} {change : Change}
  {ix ix' : BlockIndex} {id : Nat} {n : Node} {h : Header}

/-! ## Calls -/

/-- No node of the history comes from a store. -/
def ByHeaders (history : List Change) : Prop := ∀ n previous, Change.insertLoaded n previous ∉ history

/-- The history holds a call, with some operations before it, that inserts a header and gives a
place. -/
structure Gives (rule : ForkRule) (history before : List Change) (h : Header) (id : Nat) :
    Prop where
  call : before ++ [.insert h] <+: history
  result : ∃ ix', ((empty rule).run before).insert h = .ok (ix', id)

/-- A call of the history gave the place. -/
def Issued (rule : ForkRule) (history : List Change) (id : Nat) : Prop :=
  ∃ before h, Gives rule history before h id

/-- A call of the history that inserts the header is the first to give the place. -/
def Creates (rule : ForkRule) (history : List Change) (h : Header) (id : Nat) : Prop :=
  ∃ before, Gives rule history before h id ∧ ¬ Issued rule before id

theorem Creates.mono (hcreates : Creates rule history h id) (hfront : history <+: later) :
    Creates rule later h id := by
  obtain ⟨before, ⟨hcall, hresult⟩, hfirst⟩ := hcreates
  exact ⟨before, ⟨hcall.trans hfront, hresult⟩, hfirst⟩

theorem ByHeaders.of_prefix (hheaders : ByHeaders later) (hfront : history <+: later) :
    ByHeaders history := fun n previous hmem => hheaders n previous (hfront.subset hmem)

theorem run_append (ix : BlockIndex) (history later : List Change) :
    ix.run (history ++ later) = (ix.run history).run later :=
  List.foldl_append

/-! ## One call -/

theorem apply_insert_of_ok (hok : ix.insert h = .ok (ix', id)) : ix.apply (.insert h) = ix' := by
  rw [apply, hok]

/-- A place that a call gives is in the index then. -/
theorem lt_size_of_insert (hok : ix.insert h = .ok (ix', id)) : id < ix'.size := by
  rcases insert_eq_ok_cases hok with ⟨hknown, rfl⟩ | ⟨-, rfl, ⟨-, rfl⟩ | ⟨p, -, -, rfl⟩⟩
  · exact lt_size_of_lookup? hknown
  all_goals simp

/-- Only a call that inserts a header gives a new place. -/
theorem exists_insert_of_size_le (hchange : ∀ n previous, change ≠ .insertLoaded n previous)
    (hold : ix.size ≤ id) (hid : id < (ix.apply change).size) :
    ∃ h ix', change = .insert h ∧ ix.insert h = .ok (ix', id) := by
  obtain ⟨n, hn⟩ := get?_of_lt_size hid
  have hgrows : ¬ SameTree ix (ix.apply change) := fun hsame => by
    obtain ⟨m, hm, -⟩ := hsame.exists_get? hn
    exact absurd (lt_size_of_get? hm) (Nat.not_lt.2 hold)
  cases change with
  | insert header =>
    cases hinsert : ix.insert header with
    | error rejection =>
      rw [apply, hinsert] at hgrows
      exact absurd (SameTree.refl ix) hgrows
    | ok added =>
      obtain ⟨ix', place⟩ := added
      rw [apply_insert_of_ok hinsert] at hid hgrows
      refine ⟨header, ix', rfl, ?_⟩
      rcases insert_eq_ok_cases hinsert with ⟨-, rfl⟩ | ⟨-, rfl, ⟨-, rfl⟩ | ⟨p, -, -, rfl⟩⟩
      · exact absurd (SameTree.refl ix') hgrows
      all_goals
        rw [size_push] at hid
        rw [hinsert, Nat.le_antisymm hold (Nat.lt_succ_iff.1 hid)]
  | insertLoaded node previous => exact absurd rfl (hchange node previous)
  | markFailed i => exact absurd (sameTree_markFailed ix i) hgrows
  | raiseValidity i _ | setBlockData i _ _ | setUndoData i _ | setMoneySupply i _ =>
    exact (hgrows (sameTree_modify ix i fun _ => rfl)).elim

theorem header_pushed_root (hzero : h.previous = .zero) :
    (ix.push (freshNode h) none).1.header ((freshNode h).linked ix.size none none) = h := by
  rw [header, previousHash, Node.prev_linked, Option.bind_none, Option.map_none, Option.getD_none,
    ← hzero]
  rfl

/-- A new header is read back from the node that was added for it. -/
theorem exists_header_of_insert (hnew : ix.lookup? h.hash = none)
    (hok : ix.insert h = .ok (ix', id)) :
    ∃ n, ix'.get? id = some n ∧ ix'.header n = h ∧ n.hash = h.hash := by
  rcases insert_eq_ok_cases hok with ⟨hknown, -⟩ | ⟨-, rfl, ⟨hzero, rfl⟩ | ⟨p, hzero, hp, rfl⟩⟩
  · cases hnew.symm.trans hknown
  · exact ⟨_, get?_push_size ix _ none, header_pushed_root hzero, Node.hash_linked ..⟩
  · obtain ⟨q, hq, hhash⟩ := hash_of_lookup? hp
    have hplace : parentPlace h p = some p := if_neg hzero
    have hheader := header_pushed hq hhash
    rw [hplace] at hheader
    exact ⟨_, get?_push_size ix _ (some p), hheader, Node.hash_linked ..⟩

/-! ## Calls of a history -/

theorem run_insert_append (hok : ((empty rule).run before).insert h = .ok (ix', id))
    (after : List Change) : (empty rule).run (before ++ [.insert h] ++ after) = ix'.run after := by
  rw [run_append, run_append, ← apply_insert_of_ok hok]
  rfl

theorem lt_size_of_issued (hissued : Issued rule history id) :
    id < ((empty rule).run history).size := by
  obtain ⟨before, h, ⟨after, rfl⟩, ix', hok⟩ := hissued
  obtain ⟨n, hn⟩ := get?_of_lt_size (lt_size_of_insert hok)
  obtain ⟨m, hm, -⟩ := (retains_run ix' after).exists_get? id n hn
  rw [run_insert_append hok]
  exact lt_size_of_get? hm

theorem exists_creates (hheaders : ByHeaders history) (hid : id < ((empty rule).run history).size) :
    ∃ h, Creates rule history h id := by
  induction history using List.reverseRecOn with
  | nil => exact absurd hid (Nat.not_lt_zero id)
  | append_singleton history change ih =>
    have hfront : history <+: history ++ [change] := List.prefix_append _ _
    rcases Nat.lt_or_ge id ((empty rule).run history).size with hlt | hge
    · obtain ⟨h, hcreates⟩ := ih (hheaders.of_prefix hfront) hlt
      exact ⟨h, hcreates.mono hfront⟩
    · -- The place is new after the last operation, which inserted a header then.
      rw [run_append] at hid
      obtain ⟨h, ix', rfl, hok⟩ := exists_insert_of_size_le
        (fun n previous heq => hheaders n previous (by simp [heq])) hge hid
      refine ⟨h, history, ⟨List.prefix_refl _, ix', hok⟩, fun hissued => ?_⟩
      exact absurd (lt_size_of_issued hissued) (Nat.not_lt.2 hge)

/-- The places that were given are those of the nodes. -/
theorem issued_iff (hheaders : ByHeaders history) :
    Issued rule history id ↔ id < ((empty rule).run history).size := by
  refine ⟨lt_size_of_issued, fun hid => ?_⟩
  obtain ⟨h, before, hgives, -⟩ := exists_creates hheaders hid
  exact ⟨before, h, hgives⟩

/-- The header that is read back from a node is the one for which it was added. -/
theorem header_of_creates (hheaders : ByHeaders history) (hcreates : Creates rule history h id)
    (hn : ((empty rule).run history).get? id = some n) :
    ((empty rule).run history).header n = h ∧ n.hash = h.hash := by
  obtain ⟨before, ⟨⟨after, rfl⟩, ix', hok⟩, hfirst⟩ := hcreates
  have hbefore : ByHeaders before := hheaders.of_prefix ((List.prefix_append _ _).trans
    (List.prefix_append _ _))
  -- A header that was known would have been given a place that was given before.
  have hnew : ((empty rule).run before).lookup? h.hash = none := by
    rcases insert_eq_ok_cases hok with ⟨hknown, -⟩ | ⟨hnew, -⟩
    · exact absurd ((issued_iff hbefore).2 (lt_size_of_lookup? hknown)) hfirst
    · exact hnew
  obtain ⟨m, hm, hheader, hhash⟩ := exists_header_of_insert hnew hok
  have wf : ix'.WellFormed := (wellFormed_run rule before).insert hok
  have hretains := retains_run ix' after
  obtain ⟨n', hn', heq⟩ := hretains.exists_get? id m hm
  rw [run_insert_append hok] at hn ⊢
  obtain rfl : n' = n := Option.some.inj (hn'.symm.trans hn)
  exact ⟨(hretains.header_eq wf hm heq).trans hheader, (congrArg Node.Entry.hash heq).trans hhash⟩

theorem creates_iff (hheaders : ByHeaders history)
    (hn : ((empty rule).run history).get? id = some n) :
    Creates rule history h id ↔ ((empty rule).run history).header n = h := by
  constructor
  · exact fun hcreates => (header_of_creates hheaders hcreates hn).1
  · rintro rfl
    obtain ⟨h, hcreates⟩ := exists_creates hheaders (lt_size_of_get? hn)
    rwa [(header_of_creates hheaders hcreates hn).1]

theorem hashed_of_byHeaders (hheaders : ByHeaders history) : ((empty rule).run history).Hashed := by
  intro id n hn
  obtain ⟨h, hcreates⟩ := exists_creates hheaders (lt_size_of_get? hn)
  obtain ⟨hheader, hhash⟩ := header_of_creates hheaders hcreates hn
  rw [hheader, hhash]

/-! ## What a call answers -/

theorem insert_of_known (hknown : ix.lookup? h.hash = some id) : ix.insert h = .ok (ix, id) := by
  dsimp only [insert]
  rw [hknown]

theorem insert_eq_error_iff {rejection : Rejection} :
    ix.insert h = .error rejection ↔ rejection = .unknownParent h.previous ∧
      ix.contains h.hash = false ∧ h.previous ≠ .zero ∧ ix.contains h.previous = false := by
  dsimp only [insert, contains]
  cases ix.lookup? h.hash with
  | some id => simp
  | none =>
    by_cases hzero : h.previous = .zero
    · simp [hzero]
    · cases ix.lookup? h.previous <;> simp [hzero, eq_comm]

/-- A call gives a new place exactly for an unknown header that starts a tree, or that follows a known
block. -/
theorem exists_insert_new_iff :
    (∃ ix' id, ix.insert h = .ok (ix', id) ∧ ix.size ≤ id) ↔
      ix.contains h.hash = false ∧ (h.previous = .zero ∨ ix.contains h.previous = true) := by
  constructor
  · rintro ⟨ix', id, hok, hnew⟩
    rw [contains, contains]
    rcases insert_eq_ok_cases hok with ⟨hknown, -⟩ | ⟨hunknown, -, ⟨hzero, -⟩ | ⟨p, -, hp, -⟩⟩
    · exact absurd (lt_size_of_lookup? hknown) (Nat.not_lt.2 hnew)
    · exact ⟨by rw [hunknown]; rfl, Or.inl hzero⟩
    · exact ⟨by rw [hunknown]; rfl, Or.inr (by rw [hp]; rfl)⟩
  · rintro ⟨hunknown, hparent⟩
    cases hinsert : ix.insert h with
    | error rejection =>
      obtain ⟨-, -, hzero, hno⟩ := insert_eq_error_iff.1 hinsert
      rcases hparent with hzero' | hp
      · exact absurd hzero' hzero
      · cases hno.symm.trans hp
    | ok added =>
      obtain ⟨ix', id⟩ := added
      refine ⟨ix', id, rfl, ?_⟩
      rcases insert_eq_ok_cases hinsert with ⟨hknown, -⟩ | ⟨-, rfl, -⟩
      · rw [contains, hknown] at hunknown
        cases hunknown
      · exact Nat.le_refl _

/-- Inserting a known header in place changes nothing. -/
theorem exec_insert_known {t : TabledState} (hknown : t.table[h.hash]? = some id) :
    Update.exec (Update.insert h) t = some (.ok id, t) := by
  rw [Update.insert, Update.exec_bind, Update.exec_lookup, hknown]
  rfl

/-- Inserting a header that is refused changes nothing in place. -/
theorem exec_insert_refused {t : TabledState} {rejection : Rejection}
    (htable : ∀ hash, t.table[hash]? = t.index.lookup? hash)
    (hrefused : t.index.insert h = .error rejection) :
    Update.exec (Update.insert h) t = some (.error rejection, t) := by
  obtain ⟨rfl, hunknown, hzero, hno⟩ := insert_eq_error_iff.1 hrefused
  rw [contains, Option.isSome_eq_false_iff, Option.isNone_iff_eq_none, ← htable] at hunknown hno
  exact Update.exec_insert_unknown hunknown hzero hno

/-- After a history that adds nodes by headers alone, the header that is read back from a node is that
of the call that was the first to give the place of the node. It has the hash of the node, and it is
given the same place again. A new place is given exactly to an unknown header that starts a tree or
follows a known block, and a header is refused exactly if it names an unknown block. In place as
well, a header that is known or refused changes nothing, neither the index nor its table. -/
theorem inserted_of_run (rule : ForkRule) (history : List Change) (hheaders : ByHeaders history)
    (s : ChainState) :
    let ix := (empty rule).run history
    let t := ((TabledIndex.empty rule).run history).inState s
    t.index = ix ∧
      (∀ id n, ix.get? id = some n →
        (∀ h, Creates rule history h id ↔ ix.header n = h) ∧ (ix.header n).hash = n.hash ∧
          ix.insert (ix.header n) = .ok (ix, id) ∧
          Update.exec (Update.insert (ix.header n)) t = some (.ok id, t)) ∧
      ∀ h, ((∃ ix' id, ix.insert h = .ok (ix', id) ∧ ¬ Issued rule history id) ↔
          ix.contains h.hash = false ∧ (h.previous = .zero ∨ ix.contains h.previous = true)) ∧
        (∀ rejection, ix.insert h = .error rejection ↔ rejection = .unknownParent h.previous ∧
          ix.contains h.hash = false ∧ h.previous ≠ .zero ∧ ix.contains h.previous = false) ∧
        ∀ rejection, ix.insert h = .error rejection →
          Update.exec (Update.insert h) t = some (.error rejection, t) := by
  intro ix t
  obtain ⟨hindex, hagrees⟩ := (TabledIndex.agrees_empty rule).run history
  have hindex : t.index = ix := hindex
  have htable : ∀ hash, t.table[hash]? = t.index.lookup? hash := hagrees.getElem?_table
  have wf : ix.WellFormed := wellFormed_run rule history
  refine ⟨hindex, fun id n hn => ?_, fun h => ⟨?_, fun _ => insert_eq_error_iff, ?_⟩⟩
  · have hhash : (ix.header n).hash = n.hash := hashed_of_byHeaders hheaders id n hn
    have hknown : ix.lookup? (ix.header n).hash = some id :=
      wf.lookup?_eq_some_iff.2 ⟨n, hn, hhash.symm⟩
    refine ⟨fun h => creates_iff hheaders hn, hhash, insert_of_known hknown, ?_⟩
    exact exec_insert_known (by rw [htable, hindex, hknown])
  · simp only [issued_iff hheaders, Nat.not_lt]
    exact exists_insert_new_iff
  · intro rejection hrefused
    exact exec_insert_refused htable (by rw [hindex, hrefused])

/-- An Equihash header whose solution is too short to be hashed, and which starts a tree. -/
def shortSolution (solution : Bytes) : Header where
  version := ⟨1⟩
  previous := .zero
  merkleRoot := .zero
  time := 1
  bits := ⟨0x207fffff⟩
  nonce := .equihash .zero .zero solution

/-- Two headers with one hash, and one that follows no known block. -/
def twins : List Change :=
  [.insert { shortSolution [] with previous := .ofNat 5 }, .insert (shortSolution [1]),
    .markFailed 0, .insert (shortSolution [2, 3]), .setMoneySupply 0 7]

/-- The first of the two is the one that is read back. -/
theorem inserted_of_run_twins :
    ByHeaders twins ∧ ∃ n, ((empty .standard).run twins).get? 0 = some n ∧
      Creates .standard twins (shortSolution [1]) 0 ∧
      ¬ Creates .standard twins (shortSolution [2, 3]) 0 ∧ n.hash = (shortSolution [2, 3]).hash := by
  have hheaders : ByHeaders twins := by
    intro n previous hmem
    simp [twins] at hmem
  have hstate : (((empty .standard).run twins).get? 0).map ((empty .standard).run twins).header =
      some (shortSolution [1]) := by
    decide +kernel
  have hsame : (shortSolution [1]).hash = (shortSolution [2, 3]).hash := rfl
  obtain ⟨n, hn, hheader⟩ := Option.map_eq_some_iff.1 hstate
  obtain ⟨-, hnode, -⟩ := inserted_of_run .standard twins hheaders (.start Network.regtest.params)
  obtain ⟨hcreates, hhash, -⟩ := hnode 0 n hn
  refine ⟨hheaders, n, hn, (hcreates _).2 hheader, fun hother => ?_, ?_⟩
  · have heq := hheader.symm.trans ((hcreates _).1 hother)
    cases heq
  · rw [← hhash, hheader, hsame]

end BlockIndex

end MergedWork

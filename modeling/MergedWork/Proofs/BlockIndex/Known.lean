import MergedWork.Proofs.BlockIndex.Walk

/-!
# What an index knows of a hash

Two indexes may hold the same blocks in different places. `block?` says what is known of the block
with a hash, without places: its header, its height, and the work of its chain. A header that
follows a known block adds its own block to this, and changes nothing else
(`WellFormed.block?_push`). Indexes that agree in it have the same paths (`WellFormed.path_hashes_eq`);
for this it is enough that blocks with one hash name the same parent
(`WellFormed.path_hashes_eq_of_parentHash?`).
-/

namespace MergedWork

/-- What is known of a block. -/
structure KnownBlock where
  header : Header
  height : Nat
  /-- The weighted work of the block and all before it. -/
  chainWork : Nat
  deriving DecidableEq

/-- What is known of a block behind another. One that names the zero digest starts a tree. -/
def KnownBlock.next (parent : KnownBlock) (h : Header) : KnownBlock :=
  if h.previous = .zero then ⟨h, 0, h.work⟩
  else ⟨h, parent.height + 1, addWork parent.chainWork h.work⟩

namespace BlockIndex

variable {ix ix' : BlockIndex} {id id' p : Nat} {n n' : Node} {h : Header} {hash : Digest}

/-- What is known of a node. -/
def known (ix : BlockIndex) (n : Node) : KnownBlock := ⟨ix.header n, n.height, n.chainWork⟩

/-- What is known of the block with a hash. -/
def block? (ix : BlockIndex) (hash : Digest) : Option KnownBlock := (ix.node? hash).map ix.known

/-! ## Known blocks and nodes -/

theorem block?_eq_none_iff : ix.block? hash = none ↔ ix.lookup? hash = none := by
  rw [block?, node?, Option.map_eq_none_iff]
  cases hfind : ix.lookup? hash with
  | none => simp
  | some i =>
    obtain ⟨n, hn, -⟩ := hash_of_lookup? hfind
    simp [hn]

theorem block?_of_lookup? (hfind : ix.lookup? hash = some id) (hn : ix.get? id = some n) :
    ix.block? hash = some (ix.known n) := by
  rw [block?, node?, hfind, Option.bind_some, hn, Option.map_some]

theorem WellFormed.block?_of_get? (wf : ix.WellFormed) (hn : ix.get? id = some n) :
    ix.block? n.hash = some (ix.known n) :=
  block?_of_lookup? (wf.lookup?_eq_some_iff.2 ⟨n, hn, rfl⟩) hn

theorem get?_of_block? {b : KnownBlock} (h : ix.block? hash = some b) :
    ∃ id n, ix.get? id = some n ∧ n.hash = hash ∧ ix.known n = b := by
  rw [block?, Option.map_eq_some_iff] at h
  obtain ⟨n, hnode, hknown⟩ := h
  obtain ⟨id, hfind, hn⟩ := node?_eq_some_iff.1 hnode
  obtain ⟨n', hn', hhash⟩ := hash_of_lookup? hfind
  cases hn.symm.trans hn'
  exact ⟨id, n, hn, hhash, hknown⟩

/-! ## Adding a block -/

theorem node?_push (ix : BlockIndex) (n : Node) (prev : Option Nat) (hash : Digest) :
    (ix.push n prev).1.node? hash =
      (ix.node? hash).or
        (if n.hash = hash then some (n.linked ix.size prev (prev.bind ix.get?)) else none) := by
  rw [node?, node?, lookup?_push]
  cases hold : ix.lookup? hash with
  | some id =>
    obtain ⟨m, hm, -⟩ := hash_of_lookup? hold
    simp only [Option.some_or, Option.bind_some, hm, extends_push ix n prev id m hm]
  | none =>
    simp only [Option.none_or, Option.bind_none]
    split_ifs
    · exact get?_push_size ix n prev
    · rfl

/-- The hash of the block before a node, if there is one. -/
def parentHash? (ix : BlockIndex) (n : Node) : Option Digest := (n.prev.bind ix.get?).map Node.hash

theorem previousHash_eq (ix : BlockIndex) (n : Node) :
    ix.previousHash n = (ix.parentHash? n).getD .zero := rfl

theorem WellFormed.parentHash?_of_extends (wf : ix.WellFormed) (hext : Extends ix ix')
    (hn : ix.get? id = some n) : ix'.parentHash? n = ix.parentHash? n := by
  cases hprev : n.prev with
  | none => rw [parentHash?, parentHash?, hprev, Option.bind_none, Option.bind_none]
  | some p =>
    obtain ⟨-, q, hq, -⟩ := (wf.placed id n hn).child p hprev
    rw [parentHash?, parentHash?, hprev, Option.bind_some, Option.bind_some, hq, hext p q hq]

/-- New nodes do not change the headers of old ones. -/
theorem WellFormed.known_of_extends (wf : ix.WellFormed) (hext : Extends ix ix')
    (hn : ix.get? id = some n) : ix'.known n = ix.known n := by
  rw [known, known, header, header, previousHash_eq, previousHash_eq,
    wf.parentHash?_of_extends hext hn]

/-- The place of the parent of a header, given that of the block that it names. -/
def parentPlace (h : Header) (p : Nat) : Option Nat := if h.previous = .zero then none else some p

theorem eq_of_parentPlace_eq_some {q : Nat} (hq : parentPlace h p = some q) : q = p := by
  rw [parentPlace] at hq
  split_ifs at hq
  exact (Option.some.inj hq).symm

theorem insert_of_lookup? (hnew : ix.lookup? h.hash = none) (hp : ix.lookup? h.previous = some p) :
    ix.insert h = .ok (ix.push (freshNode h) (parentPlace h p)) := by
  dsimp only [insert]
  rw [hnew, hp, parentPlace]
  split_ifs <;> rfl

/-- The node that is added for a header stands for the block of the header. -/
theorem known_pushed {q : Node} (hq : ix.get? p = some q) (hhash : q.hash = h.previous) :
    (ix.push (freshNode h) (parentPlace h p)).1.known
        ((freshNode h).linked ix.size (parentPlace h p) ((parentPlace h p).bind ix.get?)) =
      (ix.known q).next h := by
  have hq' := extends_push ix (freshNode h) (parentPlace h p) p q hq
  by_cases hzero : h.previous = .zero
  · have hplace : parentPlace h p = none := if_pos hzero
    rw [hplace, KnownBlock.next, if_pos hzero, known, header, previousHash, ← hzero]
    rfl
  · have hplace : parentPlace h p = some p := if_neg hzero
    rw [hplace] at hq' ⊢
    rw [KnownBlock.next, if_neg hzero, Option.bind_some, hq, known, header, previousHash,
      Node.prev_linked, Option.bind_some, hq', Option.map_some, Option.getD_some, hhash]
    rfl

/-- The header that is read back from a new node is the one for which it was added. -/
theorem header_pushed {q : Node} (hq : ix.get? p = some q) (hhash : q.hash = h.previous) :
    (ix.push (freshNode h) (parentPlace h p)).1.header
      ((freshNode h).linked ix.size (parentPlace h p) ((parentPlace h p).bind ix.get?)) = h := by
  refine (congrArg KnownBlock.header (known_pushed hq hhash)).trans ?_
  rw [KnownBlock.next]
  split_ifs <;> rfl

/-- A header behind a known block adds its own block, and changes no other. -/
theorem WellFormed.block?_push (wf : ix.WellFormed) (hp : ix.lookup? h.previous = some p)
    (hq : ix.get? p = some n) (hash : Digest) :
    (ix.push (freshNode h) (parentPlace h p)).1.block? hash =
      (ix.block? hash).or (if h.hash = hash then some ((ix.known n).next h) else none) := by
  have hfresh : (freshNode h).hash = h.hash := rfl
  rw [block?, block?, node?_push, hfresh]
  cases hold : ix.node? hash with
  | some m =>
    obtain ⟨id, -, hm⟩ := node?_eq_some_iff.1 hold
    rw [Option.some_or, Option.map_some, Option.map_some, Option.some_or,
      wf.known_of_extends (extends_push ix _ _) hm]
  | none =>
    rw [Option.none_or, Option.map_none, Option.none_or]
    obtain ⟨q, hq', hhash⟩ := hash_of_lookup? hp
    obtain rfl : n = q := Option.some.inj (hq.symm.trans hq')
    split_ifs
    · rw [Option.map_some, known_pushed hq hhash]
    · rfl

/-! ## Paths -/

/-- A node has a parent exactly if it does not stand at height zero, and its header names the
parent's hash. -/
theorem WellFormed.prev_eq (wf : ix.WellFormed) (hn : ix.get? id = some n) :
    (n.prev = none ∧ n.height = 0) ∨ ∃ p q, n.prev = some p ∧ p < id ∧ n.height ≠ 0 ∧
      ix.get? p = some q ∧ q.hash = (ix.header n).previous := by
  cases hprev : n.prev with
  | none => exact Or.inl ⟨rfl, ((wf.placed id n hn).root hprev).1⟩
  | some p =>
    obtain ⟨hlt, q, hq, hheight, -⟩ := (wf.placed id n hn).child p hprev
    refine Or.inr ⟨p, q, rfl, hlt, by omega, hq, ?_⟩
    rw [header, previousHash, hprev, Option.bind_some, hq, Option.map_some, Option.getD_some]

/-- If blocks with one hash have parents with one hash, the hashes on the whole paths to such blocks
are the same, in whatever places they stand. -/
theorem WellFormed.path_hashes_eq_of_parentHash? (wf : ix.WellFormed) (wf' : ix'.WellFormed)
    (hparent : ∀ i j m m', ix.get? i = some m → ix'.get? j = some m' → m.hash = m'.hash →
      ix.parentHash? m = ix'.parentHash? m')
    (hn : ix.get? id = some n) (hn' : ix'.get? id' = some n') (hhash : n.hash = n'.hash) :
    (ix.ancestors id).map Node.hash = (ix'.ancestors id').map Node.hash := by
  induction id using Nat.strongRecOn generalizing n id' n' with
  | _ id ih =>
    have hprevious := hparent id id' n n' hn hn' hhash
    rw [wf.ancestors_eq_cons hn, wf'.ancestors_eq_cons hn', List.map_cons, List.map_cons, hhash]
    rcases wf.prev_eq hn with ⟨hprev, -⟩ | ⟨p, q, hprev, hlt, -, hq, -⟩
    · rcases wf'.prev_eq hn' with ⟨hprev', -⟩ | ⟨p', q', hprev', -, -, hq', -⟩
      · rw [hprev, hprev']
        rfl
      · simp [parentHash?, hprev, hprev', hq'] at hprevious
    · rcases wf'.prev_eq hn' with ⟨hprev', -⟩ | ⟨p', q', hprev', -, -, hq', -⟩
      · simp [parentHash?, hprev, hprev', hq] at hprevious
      · have hhashes : q.hash = q'.hash := by
          simpa [parentHash?, hprev, hprev', hq, hq'] using hprevious
        rw [hprev, hprev', pathFrom_some, pathFrom_some, ih p hlt hq hq' hhashes]

/-- The hashes on the path to a block are the same in all indexes that know the same of blocks. -/
theorem WellFormed.path_hashes_eq (wf : ix.WellFormed) (wf' : ix'.WellFormed)
    (hsame : ∀ hash, ix.block? hash = ix'.block? hash) (hn : ix.get? id = some n)
    (hn' : ix'.get? id' = some n') (hhash : n.hash = n'.hash) :
    (ix.ancestors id).map Node.hash = (ix'.ancestors id').map Node.hash := by
  refine wf.path_hashes_eq_of_parentHash? wf' (fun i j m m' hm hm' heq => ?_) hn hn' hhash
  have hknown : ix.known m = ix'.known m' := by
    have hblock := hsame m.hash
    rw [wf.block?_of_get? hm, heq, wf'.block?_of_get? hm', Option.some.injEq] at hblock
    exact hblock
  rw [known, known, KnownBlock.mk.injEq] at hknown
  obtain ⟨hheader, hheight, -⟩ := hknown
  -- The height says whether there is a parent, and the header says which block it is.
  rcases wf.prev_eq hm with ⟨hprev, hzero⟩ | ⟨p, q, hprev, -, hpos, hq, hqhash⟩
  · rcases wf'.prev_eq hm' with ⟨hprev', -⟩ | ⟨-, -, -, -, hpos', -⟩
    · rw [parentHash?, parentHash?, hprev, hprev']
      rfl
    · exact absurd (hheight.symm.trans hzero) hpos'
  · rcases wf'.prev_eq hm' with ⟨-, hzero'⟩ | ⟨p', q', hprev', -, -, hq', hqhash'⟩
    · exact absurd (hheight.trans hzero') hpos
    · have hsame' := hqhash.trans ((congrArg Header.previous hheader).trans hqhash'.symm)
      simp [parentHash?, hprev, hprev', hq, hq', hsame']

/-! ## Hashes of headers -/

/-- The hash of each node is that of its header. -/
def Hashed (ix : BlockIndex) : Prop := ∀ i n, ix.get? i = some n → (ix.header n).hash = n.hash

theorem Hashed.push (hix : ix.Hashed) (wf : ix.WellFormed)
    (hp : ix.lookup? h.previous = some p) :
    (ix.push (freshNode h) (parentPlace h p)).1.Hashed := by
  intro i m hm
  obtain ⟨q, hq, hhash⟩ := hash_of_lookup? hp
  rcases get?_push_cases hm with ⟨-, rfl⟩ | hold
  · rw [header_pushed hq hhash, Node.hash_linked]
    rfl
  · have hknown := wf.known_of_extends (extends_push ix (freshNode h) (parentPlace h p)) hold
    exact (congrArg (fun block => block.header.hash) hknown).trans (hix i m hold)

end BlockIndex

end MergedWork

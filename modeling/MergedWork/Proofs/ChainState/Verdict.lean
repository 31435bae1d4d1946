import MergedWork.Proofs.BlockIndex.Known
import MergedWork.Proofs.ChainState.Run

/-!
# Verdicts

The verdict on a header, and the block that it adds, depend on what is known of two blocks only:
the header's own, and the one that it names as its predecessor. `Params.judge` and `Params.learn`
say how, without places and tips, and every state without failed blocks keeps to them
(`Clean.verdict_eq`, `Clean.block?_next`).
-/

namespace MergedWork

/-! ## Judging by what is known -/

namespace Params

variable {p : Params} {known known' : Digest → Option KnownBlock} {sub : Submission}

/-- The verdict on a header, given what is known of blocks. -/
def judge (p : Params) (known : Digest → Option KnownBlock) (sub : Submission) :
    Except Rejection Unit :=
  match known sub.header.hash with
  | some _ => .ok ()
  | none => do
    (p.checkHeader sub.engine sub.header sub.proof).value
    match known sub.header.previous with
    | none => .error (.unknownParent sub.header.previous)
    | some parent => p.checkpoints.check (parent.height + 1) sub.header.hash

/-- The block that a header adds. -/
def newBlock? (p : Params) (known : Digest → Option KnownBlock) (sub : Submission) :
    Option KnownBlock :=
  match p.judge known sub with
  | .error _ => none
  | .ok () => (known sub.header.previous).map fun parent => parent.next sub.header

/-- What is known of blocks after a submission. -/
def learn (p : Params) (known : Digest → Option KnownBlock) (sub : Submission) :
    Digest → Option KnownBlock :=
  fun hash => (known hash).or (if sub.header.hash = hash then p.newBlock? known sub else none)

theorem judge_congr (hown : known sub.header.hash = known' sub.header.hash)
    (hparent : known sub.header.previous = known' sub.header.previous) :
    p.judge known sub = p.judge known' sub := by
  rw [judge, judge, hown, hparent]

theorem newBlock?_congr (hown : known sub.header.hash = known' sub.header.hash)
    (hparent : known sub.header.previous = known' sub.header.previous) :
    p.newBlock? known sub = p.newBlock? known' sub := by
  rw [newBlock?, newBlock?, judge_congr hown hparent, hparent]

theorem learn_of_ne {hash : Digest} (h : sub.header.hash ≠ hash) :
    p.learn known sub hash = known hash := by
  rw [learn, if_neg h, Option.or_none]

theorem learn_self : p.learn known sub sub.header.hash =
    (known sub.header.hash).or (p.newBlock? known sub) := by
  rw [learn, if_pos rfl]

theorem learn_of_known (h : (known sub.header.hash).isSome) : p.learn known sub = known := by
  funext hash
  by_cases heq : sub.header.hash = hash
  · rw [← heq, learn_self, Option.or_of_isSome h]
  · exact learn_of_ne heq

theorem learn_of_newBlock?_eq_none (h : p.newBlock? known sub = none) :
    p.learn known sub = known := by
  funext hash
  rw [learn, h, ite_self, Option.or_none]

theorem newBlock?_of_error {rejection : Rejection} (h : p.judge known sub = .error rejection) :
    p.newBlock? known sub = none := by
  rw [newBlock?, h]

theorem newBlock?_of_ok (h : p.judge known sub = .ok ()) {parent : KnownBlock}
    (hparent : known sub.header.previous = some parent) :
    p.newBlock? known sub = some (parent.next sub.header) := by
  rw [newBlock?, h, hparent]
  rfl

end Params

/-! ## States -/

namespace ChainState

open BlockIndex

variable {s : ChainState} {sub : Submission} {h : Header} {place : Nat} {n : Node}

def verdict (s : ChainState) (sub : Submission) : Except Rejection Unit :=
  (s.submit sub).map fun _ => ()

/-- A tree of blocks of which none has failed. -/
structure Clean (s : ChainState) : Prop where
  wellFormed : s.index.WellFormed
  unfailed : ∀ i n, s.index.get? i = some n → n.status.isFailed = false

theorem index_updateTip (s : ChainState) (id : Nat) : (s.updateTip id).1.index = s.index := by
  rw [updateTip_fst]
  split_ifs <;> rfl

theorem Clean.push (hs : s.Clean) (hnew : s.index.lookup? h.hash = none) {prev : Option Nat}
    (hprev : ∀ p, prev = some p → p < s.index.size) :
    Clean { s with index := (s.index.push (freshNode h) prev).1 } where
  wellFormed := hs.wellFormed.push hnew hprev
  unfailed i m hm := by
    rcases get?_push_cases hm with ⟨-, rfl⟩ | hold
    · rw [Node.status_linked, isFailed_freshNode]
    · exact hs.unfailed i m hold

theorem Clean.next (hs : s.Clean) (sub : Submission) : (s.next sub).Clean := by
  rcases s.next_cases sub with heq | ⟨prev, hnew, hprev, -, heq⟩
  · rw [heq]
    exact hs
  · have hclean := hs.push hnew fun p hp => lt_size_of_lookup? (hprev p hp)
    rw [heq]
    constructor
    · rw [index_updateTip]
      exact hclean.wellFormed
    · rw [index_updateTip]
      exact hclean.unfailed

/-- A new header whose parent is known is connected unless the parent has failed, or a checkpoint
speaks against it. -/
theorem connect_eq_of_lookup? (hnew : s.index.lookup? h.hash = none)
    (hp : s.index.lookup? h.previous = some place) (hn : s.index.get? place = some n) :
    s.connect h = do
      require (!n.status.isFailed) (.failedParent h.previous)
      s.params.checkpoints.check (n.height + 1) h.hash
      return ((updateTip
        { s with index := (s.index.push (freshNode h) (parentPlace h place)).1 } s.index.size).1,
        s.index.size) := by
  have hnode : s.index.node? h.previous = some n := node?_eq_some_iff.2 ⟨place, hp, hn⟩
  rw [connect, hnode]
  simp only [insert_of_lookup? hnew hp]
  rfl

theorem Clean.connect_eq (hs : s.Clean) (hnew : s.index.lookup? h.hash = none)
    (hp : s.index.lookup? h.previous = some place) (hn : s.index.get? place = some n) :
    s.connect h = do
      s.params.checkpoints.check (n.height + 1) h.hash
      return ((updateTip
        { s with index := (s.index.push (freshNode h) (parentPlace h place)).1 } s.index.size).1,
        s.index.size) := by
  rw [connect_eq_of_lookup? hnew hp hn, hs.unfailed place n hn]
  rfl

theorem spec_of_error {rejection : Rejection} (hsubmit : s.submit sub = .error rejection)
    (hjudge : s.params.judge s.index.block? sub = .error rejection) :
    s.verdict sub = s.params.judge s.index.block? sub ∧
      (s.next sub).index.block? = s.params.learn s.index.block? sub := by
  rw [verdict, ChainState.next, hsubmit, hjudge,
    Params.learn_of_newBlock?_eq_none (Params.newBlock?_of_error hjudge)]
  exact ⟨rfl, rfl⟩

/-- A submission does to a state what it does to the knowledge of blocks. -/
theorem Clean.submit_spec (hs : s.Clean) (sub : Submission) :
    s.verdict sub = s.params.judge s.index.block? sub ∧
      (s.next sub).index.block? = s.params.learn s.index.block? sub := by
  cases hfind : s.index.lookup? sub.header.hash with
  | some id =>
    obtain ⟨n, hn, -⟩ := hash_of_lookup? hfind
    have hknown := block?_of_lookup? hfind hn
    have hsubmit : s.submit sub = .ok (s, id) := by
      rw [submit, accept, hfind]
      rfl
    rw [verdict, ChainState.next, hsubmit, Params.judge, hknown,
      Params.learn_of_known (by rw [hknown]; rfl)]
    exact ⟨rfl, rfl⟩
  | none =>
    have hunknown := block?_eq_none_iff.2 hfind
    have hsubmit : s.submit sub = (do
        (s.params.checkHeader sub.engine sub.header sub.proof).value
        s.connect sub.header) := by
      rw [submit, accept, hfind]
      rfl
    cases hwork : (s.params.checkHeader sub.engine sub.header sub.proof).value with
    | error rejection =>
      rw [hwork] at hsubmit
      exact spec_of_error hsubmit (by rw [Params.judge, hunknown, hwork]; rfl)
    | ok _ =>
      rw [hwork] at hsubmit
      cases hp : s.index.lookup? sub.header.previous with
      | none =>
        have hconnect : s.connect sub.header = .error (.unknownParent sub.header.previous) := by
          rw [connect, node?, hp]
          rfl
        rw [hconnect] at hsubmit
        refine spec_of_error hsubmit ?_
        rw [Params.judge, hunknown, hwork, block?_eq_none_iff.2 hp]
        rfl
      | some place =>
        obtain ⟨n, hn, -⟩ := hash_of_lookup? hp
        have hparent := block?_of_lookup? hp hn
        have hjudge : s.params.judge s.index.block? sub =
            s.params.checkpoints.check (n.height + 1) sub.header.hash := by
          rw [Params.judge, hunknown, hwork, hparent]
          rfl
        rw [hs.connect_eq hfind hp hn] at hsubmit
        cases hcheck : s.params.checkpoints.check (n.height + 1) sub.header.hash with
        | error rejection =>
          rw [hcheck] at hsubmit hjudge
          exact spec_of_error hsubmit hjudge
        | ok _ =>
          rw [hcheck] at hsubmit hjudge
          refine ⟨by rw [verdict, hsubmit, hjudge]; rfl, ?_⟩
          funext hash
          rw [ChainState.next, hsubmit, Params.learn, Params.newBlock?_of_ok hjudge hparent,
            ← hs.wellFormed.block?_push hp hn hash]
          exact congrArg (block? · hash) (index_updateTip _ _)

end ChainState

end MergedWork

import MergedWork.Rejection
import Mathlib.Tactic.Common

/-!
# Rules in order

A check tries rules one after the other, and the first that fails gives its rejection. `Outcome`
says this of a list of rules and a result, without saying how the rules are tried; the lemmas
below derive it for checks that are put together from `require`, one rule or one part at a time.
-/

namespace MergedWork

theorem require_bind_eq_ok_iff {α : Type} {b : Bool} {e : Rejection}
    {k : Unit → Except Rejection α} {a : α} :
    (require b e >>= k) = .ok a ↔ b = true ∧ k () = .ok a := by
  cases b with
  | false => exact iff_of_false nofun nofun
  | true => exact (and_iff_right rfl).symm

/-- A rule, and the rejection of what does not meet it. -/
structure Rule where
  Holds : Prop
  rejection : Rejection

namespace Rule

variable {r : Rule} {rules rules' : List Rule} {x : Except Rejection Unit} {b : Bool}

/-- The result of a check of the given rules in the given order: nothing is rejected if all of
them hold, and otherwise the first that fails gives the rejection. -/
def Outcome (rules : List Rule) (result : Except Rejection Unit) : Prop :=
  (∀ r ∈ rules, r.Holds) ∧ result = .ok () ∨
    ∃ passed r rest, rules = passed ++ r :: rest ∧ (∀ q ∈ passed, q.Holds) ∧ ¬ r.Holds ∧
      result = .error r.rejection

theorem outcome_nil : Outcome [] (.ok ()) :=
  Or.inl ⟨fun _ h => (List.not_mem_nil h).elim, rfl⟩

theorem Outcome.reject (h : ¬ r.Holds) : Outcome (r :: rules) (.error r.rejection) :=
  Or.inr ⟨[], r, rules, rfl, fun _ hq => (List.not_mem_nil hq).elim, h, rfl⟩

theorem Outcome.pass (h : r.Holds) (hx : Outcome rules x) : Outcome (r :: rules) x := by
  rcases hx with ⟨hall, rfl⟩ | ⟨passed, q, rest, rfl, hpassed, hq, rfl⟩
  · exact Or.inl ⟨List.forall_mem_cons.2 ⟨h, hall⟩, rfl⟩
  · exact Or.inr ⟨r :: passed, q, rest, rfl, List.forall_mem_cons.2 ⟨h, hpassed⟩, hq, rfl⟩

/-- Nothing is rejected exactly if all rules hold. -/
theorem Outcome.eq_ok_iff (h : Outcome rules x) : x = .ok () ↔ ∀ r ∈ rules, r.Holds := by
  rcases h with ⟨hall, rfl⟩ | ⟨passed, r, rest, rfl, -, hr, rfl⟩
  · exact iff_of_true rfl hall
  · exact iff_of_false nofun fun hall => hr (hall r (by simp))

/-! ## Putting checks together -/

theorem Outcome.require_bind {P : Prop} {e : Rejection} (hb : b = true ↔ P)
    {k : Unit → Except Rejection Unit} (hk : P → Outcome rules (k ())) :
    Outcome (⟨P, e⟩ :: rules) (require b e >>= k) := by
  by_cases h : P
  · rw [hb.2 h]
    exact (hk h).pass h
  · rw [Bool.eq_false_iff.2 (mt hb.1 h)]
    exact .reject h

theorem outcome_require {P : Prop} {e : Rejection} (hb : b = true ↔ P) :
    Outcome [⟨P, e⟩] (require b e) := by
  by_cases h : P
  · rw [hb.2 h]
    exact outcome_nil.pass h
  · rw [Bool.eq_false_iff.2 (mt hb.1 h)]
    exact .reject h

theorem Outcome.append_pass (hx : Outcome rules x) (h : ∀ r ∈ rules', r.Holds) :
    Outcome (rules ++ rules') x := by
  rcases hx with ⟨hall, rfl⟩ | ⟨passed, r, rest, rfl, hpassed, hr, rfl⟩
  · exact Or.inl ⟨List.forall_mem_append.2 ⟨hall, h⟩, rfl⟩
  · refine Or.inr ⟨passed, r, rest ++ rules', ?_, hpassed, hr, rfl⟩
    rw [List.append_assoc, List.cons_append]

theorem Outcome.bind (hx : Outcome rules x) {k : Unit → Except Rejection Unit}
    (hk : (∀ r ∈ rules, r.Holds) → Outcome rules' (k ())) :
    Outcome (rules ++ rules') (x >>= k) := by
  rcases hx with ⟨hall, rfl⟩ | ⟨passed, r, rest, rfl, hpassed, hr, rfl⟩
  · rcases hk hall with ⟨hall', hk'⟩ | ⟨passed, r, rest, rfl, hpassed, hr, hk'⟩
    · exact Or.inl ⟨List.forall_mem_append.2 ⟨hall, hall'⟩, hk'⟩
    · refine Or.inr ⟨rules ++ passed, r, rest, ?_, ?_, hr, hk'⟩
      · rw [List.append_assoc]
      · exact List.forall_mem_append.2 ⟨hall, hpassed⟩
  · refine Or.inr ⟨passed, r, rest ++ rules', ?_, hpassed, hr, rfl⟩
    rw [List.append_assoc, List.cons_append]

end Rule

end MergedWork

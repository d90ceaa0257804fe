import Ability.Condition.Met
import Mathlib.Logic.Basic

/-! When a condition is met. It is asked with a lender and without one, and both answers count: a failure of
either leaves it unmet, also where it is inverted. -/

namespace Ability.Condition

variable {ev : Evaluator} {s : Subject} {p : Provision}

/-- The answer for a lender, whose placeholders are laid over those of the subject. -/
def lent (c : Condition) (ev : Evaluator) (s : Subject) (p : Provision) : Except EngineError Bool :=
  (c.kind.check s ⟨ev, c.args, s.placeholders.merged p.placeholders⟩ (some p.lender) c.datum).run.value

def alone (c : Condition) (ev : Evaluator) (s : Subject) : Except EngineError Bool :=
  (c.kind.check s ⟨ev, c.args, s.placeholders⟩ none c.datum).run.value

def Met (c : Condition) (ev : Evaluator) (s : Subject) (p : Provision) : Prop :=
  ∃ x y, c.lent ev s p = .ok x ∧ c.alone ev s = .ok y ∧ ((x && y) ^^ c.inverted) = true

theorem isMet_value_iff {c : Condition} : (c.isMet ev s p).value = true ↔ c.Met ev s p := by
  unfold Met lent alone
  generalize hlent : c.kind.check s ⟨ev, c.args, s.placeholders.merged p.placeholders⟩ (some p.lender)
    c.datum = lent
  generalize halone : c.kind.check s ⟨ev, c.args, s.placeholders⟩ none c.datum = alone
  simp only [isMet, evaluate, hlent, halone]
  -- a failure of the first answer cuts the second one off, and a failure of either gives `false`
  obtain ⟨x | x, _⟩ : Logged (Except EngineError Bool) := lent
  · show false = true ↔ ∃ a b, Except.error x = .ok a ∧ _
    simp
  obtain ⟨y | y, _⟩ : Logged (Except EngineError Bool) := alone
  · show false = true ↔ ∃ a b, _ ∧ Except.error y = .ok b ∧ _
    simp
  show ((x && y) ^^ c.inverted) = true ↔ ∃ a b, Except.ok x = .ok a ∧ Except.ok y = .ok b ∧ _
  constructor
  · intro h
    exact ⟨x, y, rfl, rfl, h⟩
  · rintro ⟨a, b, hx, hy, h⟩
    cases hx
    cases hy
    exact h

theorem met_iff_of_upright {c : Condition} (hc : c.inverted = false) :
    c.Met ev s p ↔ c.lent ev s p = .ok true ∧ c.alone ev s = .ok true := by
  unfold Met
  rw [hc]
  constructor
  · rintro ⟨x, y, hx, hy, h⟩
    rw [Bool.xor_false, Bool.and_eq_true] at h
    rw [hx, hy, h.1, h.2]
    exact ⟨rfl, rfl⟩
  · rintro ⟨hx, hy⟩
    exact ⟨true, true, hx, hy, rfl⟩

theorem allMet_value (p : Provision) (cs : List Condition) :
    (allMet ev s p cs).value = cs.all fun c => (c.isMet ev s p).value := by
  induction cs with
  | nil => rfl
  | cons c r ih =>
    rw [List.all_cons, ← ih, allMet, Logged.bind_value]
    cases (c.isMet ev s p).value <;> rfl

theorem allMet_iff {cs : List Condition} :
    (allMet ev s p cs).value = true ↔ ∀ c ∈ cs, c.Met ev s p := by
  rw [allMet_value, List.all_eq_true]
  exact forall₂_congr fun c _ => isMet_value_iff

end Ability.Condition

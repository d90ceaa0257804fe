import Ability.Condition.Met
import Ability.Effect.Set

/-! Which effects a holder lends while its conditions hold. -/

namespace Ability

namespace Holder

def conditionsMet (h : Holder) (ev : Evaluator) (s : Subject) (p : Provision) : Logged Bool :=
  Condition.allMet ev s p h.conditions

def activeOf (ev : Evaluator) (s : Subject) (p : Provision) : List Effect → Logged (List Effect)
  | [] => return []
  | e :: r => do
    let met ← e.conditionsMet ev s p
    let es ← activeOf ev s p r
    return if met then e :: es else es

/-- Nothing while a condition of the holder is not met; else the effects whose own conditions are. -/
def active (h : Holder) (ev : Evaluator) (s : Subject) (p : Provision) : Logged EffectSet := do
  if ← h.conditionsMet ev s p then return .ofList (← activeOf ev s p h.effects)
  else return .empty

def notMetTexts (h : Holder) (ev : Evaluator) (s : Subject) (p : Provision) : Logged (List String) :=
  Condition.notMetTexts ev s p h.conditions

def fallbacks (h : Holder) (ev : Evaluator) (s : Subject) (p : Provision) : Logged (List Effect) :=
  Condition.fallbacks ev s p h.conditions

end Holder

namespace Provision

def of (h : Holder) : Provision := ⟨h, .empty, none⟩

/-- Placeholders over those that are there. -/
def withPlaceholders (p : Provision) (more : Placeholders) : Provision :=
  { p with placeholders := p.placeholders.merged more }

def withProvider (p : Provision) (provider : String) : Provision := { p with provider := some provider }

/-- Only the holder matters. -/
def same (p q : Provision) : Bool := p.holder.same q.holder

def countDistinct : List Provision → Nat
  | [] => 0
  | p :: r => (if r.any p.same then 0 else 1) + countDistinct r

end Provision

end Ability

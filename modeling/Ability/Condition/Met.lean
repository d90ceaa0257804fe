import Ability.Block

/-!
When conditions are met. A condition is asked twice, once with the placeholders of the lender and once
as if there were no lender; an inverted one turns the joint answer around, and a failure counts as not
met, inverted or not.
-/

namespace Ability

namespace Condition

def evaluate (c : Condition) (ev : Evaluator) (s : Subject) (p : Provision) : Check Bool := do
  let own := s.placeholders
  let lent ← c.kind.check s ⟨ev, c.args, own.merged p.placeholders⟩ (some p.lender) c.datum
  let alone ← c.kind.check s ⟨ev, c.args, own⟩ none c.datum
  return (lent && alone) ^^ c.inverted

def failure (c : Condition) (s : Subject) (e : EngineError) : Event :=
  .record .warn "条件求值失败，按不满足处理"
    [("context", c.context), ("condition", c.kind.id), ("subject", s.id.toText), ("error", e.message)]

def isMet (c : Condition) (ev : Evaluator) (s : Subject) (p : Provision) : Logged Bool := do
  match ← (c.evaluate ev s p).run with
  | .ok met => return met
  | .error e => Logged.tell (c.failure s e); return false

/-- Whether all are met; after the first that is not, no other is asked. -/
def allMet (ev : Evaluator) (s : Subject) (p : Provision) : List Condition → Logged Bool
  | [] => return true
  | c :: r => do
    if ← c.isMet ev s p then allMet ev s p r else return false

/-- The texts of the conditions that are not met and want it shown. -/
def notMetTexts (ev : Evaluator) (s : Subject) (p : Provision) : List Condition → Logged (List String)
  | [] => return []
  | c :: r => do
    if c.showNotMet then
      let met ← c.isMet ev s p
      return (if met then [] else c.notMetLines) ++ (← notMetTexts ev s p r)
    else notMetTexts ev s p r

/-- The effects that stand in for the conditions that are not met. -/
def fallbacks (ev : Evaluator) (s : Subject) (p : Provision) : List Condition → Logged (List Effect)
  | [] => return []
  | c :: r => do
    let met ← c.isMet ev s p
    return (if met then [] else c.notMetEffects) ++ (← fallbacks ev s p r)

end Condition

def Effect.conditionsMet (e : Effect) (ev : Evaluator) (s : Subject) (p : Provision) : Logged Bool :=
  Condition.allMet ev s p e.conditions

end Ability

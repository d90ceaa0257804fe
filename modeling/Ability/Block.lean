import Ability.Kind

/-!
Compiled elements: conditions, effects and chains. Two blocks are the same block if their identifiers
are equal, wherever they were compiled.
-/

namespace Ability

structure Argument where
  kind : ArgumentKind
  datum : Datum

/-- One use of an executor. The number tells the uses apart. -/
structure Executor where
  kind : ExecutorKind
  number : Nat
deriving DecidableEq

mutual

structure Condition where
  id : Uuid
  kind : ConditionKind
  args : Json
  datum : Datum
  inverted : Bool
  showNotMet : Bool
  notMetLines : List String
  notMetEffects : List Effect
  context : String

structure Effect where
  id : Uuid
  args : Json
  response : Response
  conditions : List Condition
  arguments : List Argument
  triggers : List String
  context : String

inductive Response
  | leaf (kind : LeafKind) (datum : Datum)
  | chain (kind : String) (chain : Chain) (executor : Executor)

/-- A sequence of effects. The number tells chains apart that were compiled separately. -/
structure Chain where
  number : Nat
  id : String
  components : List Effect

end

namespace Chain

def anonymousId : String := "anonymous"

def isAnonymous (c : Chain) : Bool := c.id = anonymousId

end Chain

namespace Effect

def kindId (e : Effect) : String :=
  match e.response with
  | .leaf k _ => k.id
  | .chain k _ _ => k

def site (e : Effect) (ev : Evaluator) : Site := ⟨e.id, e.args, e.context, ev⟩

def listensTo (e : Effect) (trigger : String) : Bool := e.triggers.contains trigger

end Effect

/-- A source of abilities: effects that act while the conditions hold. -/
structure Holder where
  id : String
  effects : List Effect
  conditions : List Condition

/-- Holders are the same if they were compiled from the same content. -/
def Holder.same (h k : Holder) : Bool :=
  h.id = k.id ∧ h.effects.map (·.id) = k.effects.map (·.id) ∧
    h.conditions.map (·.id) = k.conditions.map (·.id)

structure Provision where
  holder : Holder
  placeholders : Placeholders
  provider : Option String

def Provision.lender (p : Provision) : Lender := ⟨p.holder.id, p.placeholders, p.provider⟩

end Ability

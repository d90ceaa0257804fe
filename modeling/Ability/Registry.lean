import Ability.Block

/-! Registries by identifier. A later registration replaces an earlier one. -/

namespace Ability

abbrev Registry (α : Type) := Table String α

/-- The entry that was replaced, and the registry with the new one. -/
def Registry.register {α : Type} (r : Registry α) (id : String) (entry : α) : Option α × Registry α :=
  (r.get? id, r.insert id entry)

/-- Every chain stands under its own identifier. -/
abbrev ChainRegistry := Registry Chain

namespace ChainRegistry

def add (r : ChainRegistry) (c : Chain) : ChainRegistry := r.insert c.id c

/-- The identifier under which this very chain is registered. -/
def idOf? (r : ChainRegistry) (c : Chain) : Option String :=
  (r.entries.find? fun e => e.2.number = c.number).map (·.1)

end ChainRegistry

structure Registries where
  conditions : Registry ConditionKind
  effects : Registry EffectKind
  arguments : Registry ArgumentKind
  executors : Registry ExecutorKind
  chains : ChainRegistry

namespace Registries

def empty : Registries := ⟨.empty, .empty, .empty, .empty, .empty⟩

def addCondition (r : Registries) (k : ConditionKind) : Registries :=
  { r with conditions := r.conditions.insert k.id k }

def addEffect (r : Registries) (k : EffectKind) : Registries :=
  { r with effects := r.effects.insert k.id k }

def addArgument (r : Registries) (k : ArgumentKind) : Registries :=
  { r with arguments := r.arguments.insert k.name k }

def addExecutor (r : Registries) (k : ExecutorKind) : Registries :=
  { r with executors := r.executors.insert k.name k }

def addChain (r : Registries) (c : Chain) : Registries :=
  { r with chains := r.chains.add c }

end Registries

end Ability

import Ability.Builtin.Arguments
import Ability.Builtin.Conditions
import Ability.Builtin.Effects
import Ability.Registry

namespace Ability

/-- Registries that hold every kind that comes with the engine, and no chain. -/
def Registries.builtin : Registries :=
  let r := Builtin.conditions.foldl addCondition empty
  let r := Builtin.effects.foldl addEffect r
  let r := Builtin.arguments.foldl addArgument r
  [ExecutorKind.normal, .random, .cycle].foldl addExecutor r

end Ability

import Ability.Effect.Set
import Ability.Effect.Trigger

/-!
The callbacks of an update: what is no longer active is disabled, what has become active is enabled,
then everything active is reloaded, each in the order of the identifiers. A callback that fails is
reported and stops no other.
-/

namespace Ability

structure Failure where
  phase : Phase
  block : Uuid
  effect : String
  error : String

/-- A callback that was made, and how it ended. -/
structure Call where
  phase : Phase
  effect : Effect
  outcome : Except EngineError Unit

namespace Call

def target (c : Call) : Phase × Effect := (c.phase, c.effect)

def failure? (c : Call) : Option Failure :=
  match c.outcome with
  | .ok _ => none
  | .error e => some ⟨c.phase, c.effect.id, c.effect.kindId, e.message⟩

end Call

namespace Lifecycle

/-- The calls that lead from one set of active effects to another. -/
def plan (before after : EffectSet) : List (Phase × Effect) :=
  (before.diff after).members.map (.disable, ·) ++
    (after.diff before).members.map (.enable, ·) ++ after.members.map (.reload, ·)

def failure (phase : Phase) (e : Effect) (error : EngineError) : Event :=
  .record .error "效果生命周期回调失败"
    [("phase", phase.name), ("effect", e.kindId), ("context", e.context), ("error", error.message)]

def note (phase : Phase) (e : Effect) : Except EngineError Unit → Run Unit
  | .ok _ => return
  | .error error => do
    Run.count (.lifecycleFailure phase)
    Run.tell (failure phase e error)

def call (ev : Evaluator) (phase : Phase) (e : Effect) : Run Call := do
  let outcome ← Run.withSubject (e.lifecycle ev phase).run
  note phase e outcome
  return ⟨phase, e, outcome⟩

/-- Makes the calls in order, whichever of them fail. -/
def perform (ev : Evaluator) : List (Phase × Effect) → Run (List Call)
  | [] => return []
  | (phase, e) :: r => do
    let c ← call ev phase e
    return c :: (← perform ev r)

end Lifecycle

end Ability

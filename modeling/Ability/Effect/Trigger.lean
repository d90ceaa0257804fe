import Ability.Block
import Ability.Tally

/-!
Triggering effects. The arguments of an effect are asked first, in their order and up to the first that
is not met; then it responds. An effect that fails has not handled the occurrence. Running a chain
triggers its components.
-/

namespace Ability

structure Scene where
  subject : Subject
  tally : Tally

abbrev Run (α : Type) := StateT Scene Logged α

namespace Run

def tell (e : Event) : Run Unit := fun s => do
  Logged.tell e
  return ((), s)

def count (c : Counter) : Run Unit := modify fun s => { s with tally := s.tally.count c }

def takeTurn (number : Nat) : Run Nat := fun s =>
  let (turn, tally) := s.tally.takeTurn number
  return (turn, { s with tally })

def withDice {α : Type} (x : StateT Dice Logged α) : Run α := fun s => do
  let (a, dice) ← x s.tally.dice
  return (a, { s with tally := { s.tally with dice } })

def withSubject {α : Type} (x : StateT Subject Logged α) : Run α := fun s => do
  let (a, subject) ← x s.subject
  return (a, { s with subject })

end Run

namespace Argument

def failure (a : Argument) (site : Site) (e : EngineError) : Event :=
  .record .warn "效果参数求值失败"
    [("context", site.context), ("argument", a.kind.name), ("error", e.message)]

def isMet (a : Argument) (site : Site) (o : Occurrence) : Run Bool := do
  match ← Run.withDice (a.kind.check site o a.datum).run with
  | .ok met => return met
  | .error e => Run.tell (a.failure site e); return false

/-- Whether all are met; after the first that is not, no other is asked. -/
def allMet (site : Site) (o : Occurrence) : List Argument → Run Bool
  | [] => return true
  | a :: r => do
    if ← a.isMet site o then allMet site o r else return false

end Argument

def Effect.argumentsMet (e : Effect) (ev : Evaluator) (o : Occurrence) : Run Bool :=
  Argument.allMet (e.site ev) o e.arguments

def Effect.triggerFailure (kind context : String) (o : Occurrence) (e : EngineError) : Event :=
  .record .warn "效果触发失败"
    [("context", context), ("effect", kind), ("trigger", o.trigger), ("error", e.message)]

mutual

/-- Whether the effect handled the occurrence. -/
def Effect.trigger (ev : Evaluator) (o : Occurrence) : Effect → Run Bool
  | ⟨id, args, response, _, arguments, _, context⟩ => do
    let site := ⟨id, args, context, ev⟩
    if ← Argument.allMet site o arguments then response.respond ev o site else return false

def Response.respond (ev : Evaluator) (o : Occurrence) (site : Site) : Response → Run Bool
  | .leaf kind datum => do
    match ← Run.withSubject (kind.trigger site o datum).run with
    | .ok handled => return handled
    | .error e => Run.tell (Effect.triggerFailure kind.id site.context o e); return false
  | .chain _ chain executor => chain.execute ev o executor

/-- Runs a chain: all components in order up to the first that does not succeed, or one at random, or
the next one of a round. A draw or a round over no component calls nothing and counts nothing. -/
def Chain.execute (ev : Evaluator) (o : Occurrence) (executor : Executor) : Chain → Run Bool
  | ⟨_, _, components⟩ =>
    match executor.kind with
    | .normal => do
      let success ← Effect.triggerAll ev o components
      Run.count (.chainExecution .normal success)
      return success
    | .random =>
      if components.isEmpty then return false
      else do
        let i ← Run.withDice fun d => pure (Dice.below components.length d)
        let success ← Effect.triggerAt ev o components i
        Run.count (.chainExecution .random success)
        return success
    | .cycle =>
      if components.isEmpty then return false
      else do
        let turn ← Run.takeTurn executor.number
        let success ← Effect.triggerAt ev o components (turn % components.length)
        Run.count (.chainExecution .cycle success)
        return success

/-- Triggers effects in order until one does not succeed. -/
def Effect.triggerAll (ev : Evaluator) (o : Occurrence) : List Effect → Run Bool
  | [] => return true
  | e :: r => do
    if ← e.trigger ev o then Effect.triggerAll ev o r else return false

def Effect.triggerAt (ev : Evaluator) (o : Occurrence) : List Effect → Nat → Run Bool
  | [], _ => return false
  | e :: _, 0 => e.trigger ev o
  | _ :: r, n + 1 => Effect.triggerAt ev o r n

end

namespace Effect

/-- One lifecycle callback. Effects that run chains have none to call. -/
def lifecycle (e : Effect) (ev : Evaluator) (phase : Phase) : Act Unit :=
  match e.response with
  | .leaf kind datum => kind.call phase (e.site ev) datum
  | .chain .. => pure ()

end Effect

end Ability

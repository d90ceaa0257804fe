import Ability.ActiveSet
import Ability.Builtin.Registries
import Ability.Compile
import Ability.HolderCache
import Ability.Lifecycle

/-!
The engine: it compiles elements with its registries, asks providers through the cache, keeps the
active effects of each subject and dispatches triggers to them. Subjects belong to the host; an
operation that changes one gives it back.
-/

namespace Ability

/-- The active effects of a subject as of its last update. -/
structure SubjectState where
  active : ActiveSet
  flattened : EffectSet

structure Engine where
  registries : Registries
  evaluator : Evaluator
  cache : HolderCache
  states : Table Uuid SubjectState
  tally : Tally
  nextNumber : Nat

structure UpdateReport where
  added : List Effect
  removed : List Effect
  reloaded : Nat
  failures : List Failure

def UpdateReport.changed (r : UpdateReport) : Bool := !r.added.isEmpty || !r.removed.isEmpty

/-- What an update did: the active effects before and after it, and the callbacks it made. -/
structure Transition where
  before : EffectSet
  after : EffectSet
  calls : List Call

def Transition.report (t : Transition) : UpdateReport where
  added := (t.after.diff t.before).members
  removed := (t.before.diff t.after).members
  reloaded := t.after.size
  failures := t.calls.filterMap Call.failure?

structure DispatchReport where
  /-- The active effects that listen. -/
  matched : Nat
  /-- Those of them that handled the occurrence. -/
  fired : Nat

abbrev EngineM (α : Type) := StateT Engine Logged α

namespace Engine

def new (registries : Registries) (evaluator : Evaluator) (lifetime : Nat) : Engine where
  registries
  evaluator
  cache := .new lifetime
  states := .empty
  tally := .start (.ofSeed 0)
  nextNumber := 0

def compile {α : Type} (x : Registries → Compile α) : EngineM α := fun g => do
  let (a, n) ← x g.registries g.nextNumber
  return (a, { g with nextNumber := n })

def compileCondition (config : Json) (context : String) : EngineM (Option Condition) :=
  compile fun r => Compile.condition r config context ""

def compileConditions (configs : List Json) (context : String) : EngineM (List Condition) :=
  compile fun r => Compile.conditions r configs 0 context ""

def compileEffect (config : Json) (context : String) : EngineM (Option Effect) :=
  compile fun r => Compile.effect r config context ""

def compileEffects (configs : List Json) (context : String) : EngineM (List Effect) :=
  compile fun r => Compile.effects r configs 0 context ""

def compileHolder (config : Json) (context : String) : EngineM (Option Holder) :=
  compile fun r => Compile.holder r config context

def registerChain (c : Chain) : EngineM Unit :=
  modify fun g => { g with registries := g.registries.addChain c }

/-- A chain that is not anonymous is registered when it has been compiled. -/
def compileChain (config : Json) (context : String) (anonymous : Bool) : EngineM (Option Chain) := do
  let c ← compile fun r => Compile.chain r config context anonymous
  match c with
  | some c => if anonymous then return some c else registerChain c; return some c
  | none => return none

def newExecutor (kind : ExecutorKind) : EngineM Executor :=
  compile fun _ => return ⟨kind, ← Compile.fresh⟩

def count (c : Counter) : EngineM Unit := modify fun g => { g with tally := g.tally.count c }

/-- What is kept for a subject, or else a new answer of the providers. -/
def resolve (s : Subject) : EngineM Resolution := do
  match (← get).cache.kept? s.id with
  | some r =>
    count .cacheHit
    return r
  | none =>
    count .cacheMiss
    let ps ← StateT.lift ((← get).cache.consult s)
    modifyGet fun g =>
      let (r, cache) := g.cache.keep s.id ps
      (r, { g with cache })

def computeActive (s : Subject) : EngineM ActiveSet := do
  let r ← resolve s
  StateT.lift (ActiveSet.collect (← get).evaluator s [] r.provisions)

def run {α : Type} (s : Subject) (x : Run α) : EngineM (α × Subject) := fun g => do
  let (a, scene) ← x ⟨s, g.tally⟩
  return ((a, scene.subject), { g with tally := scene.tally })

def activeEffects (g : Engine) (id : Uuid) : EffectSet :=
  match g.states.get? id with
  | some st => st.flattened
  | none => .empty

def providedActiveEffects (g : Engine) (id : Uuid) : ActiveSet :=
  match g.states.get? id with
  | some st => st.active
  | none => []

/-- Computes the active effects anew, keeps them, and makes the calls that lead to them. -/
def transition (s : Subject) : EngineM (Transition × Subject) := do
  let active ← computeActive s
  let after := active.flatten
  let before := (← get).activeEffects s.id
  modify fun g => { g with states := g.states.insert s.id ⟨active, after⟩ }
  let (calls, s) ← run s (Lifecycle.perform (← get).evaluator (Lifecycle.plan before after))
  return (⟨before, after, calls⟩, s)

def update (s : Subject) : EngineM (UpdateReport × Subject) := do
  let (t, s) ← transition s
  return (t.report, s)

/-- Triggers effects one after the other and counts those that handled the occurrence. -/
def triggerEach (ev : Evaluator) (o : Occurrence) : List Effect → Run Nat
  | [] => return 0
  | e :: r => do
    let handled ← e.trigger ev o
    return (if handled then 1 else 0) + (← triggerEach ev o r)

/-- Triggers every effect that was active after the last update and listens. All of them see the
placeholders as they were before the first. -/
def dispatch (s : Subject) (trigger : String) (data : TriggerData) :
    EngineM (DispatchReport × Subject) := do
  count (.dispatch trigger)
  let g ← get
  let listeners := (g.activeEffects s.id).members.filter (·.listensTo trigger)
  let (fired, s) ← run s (triggerEach g.evaluator (.of s trigger data) listeners)
  return (⟨listeners.length, fired⟩, s)

def rescan (id : Uuid) : EngineM Unit := modify fun g => { g with cache := g.cache.rescan id }

/-- Drops what is kept for a subject and its active effects, without any callback. -/
def forget (id : Uuid) : EngineM Unit :=
  modify fun g => { g with states := g.states.erase id, cache := g.cache.remove id }

end Engine

end Ability

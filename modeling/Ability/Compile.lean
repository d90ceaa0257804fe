import Ability.Registry
import Ability.Json.Printer

/-!
Compiling element configurations. An element that cannot be compiled is left out and a warning tells
why. The identifier of a block comes from its kind, its structural path and its configuration; the
context only says where it was written.
-/

namespace Ability

/-- Compiling hands out numbers to chains and executors and tells warnings. -/
abbrev Compile (α : Type) := StateT Nat Logged α

namespace Compile

def tell (e : Event) : Compile Unit := fun n => do
  Logged.tell e
  return ((), n)

def fresh : Compile Nat := fun n => pure (n, n + 1)

def lift {α : Type} (x : Except EngineError α) : ExceptT EngineError Compile α := ExceptT.mk (pure x)

def blockSpace : Uuid := ⟨0x6f1c2a9e4d3b4e8a9b570c2d8e41a3f6#128⟩

def blockName (kind path : String) (config : Json) : String :=
  kind ++ "\x00" ++ path ++ "\x00" ++ config.compact

def blockId (kind path : String) (config : Json) : Uuid :=
  .ofName blockSpace (blockName kind path config).toUTF8.toList

def item (list : String) (i : Nat) : String := list ++ "[" ++ toString i ++ "]"

def rejection (message context : String) (e : EngineError) : Event :=
  .record .warn message [("context", context), ("error", e.message)]

def emptyChain (context id : String) : Event :=
  .record .warn "效果链没有可用组件，已忽略" [("context", context), ("chain", id)]

/-- The registered arguments for which there is a value, by name. -/
def arguments (r : Registries) (args : Json) : Except EngineError (List Argument) :=
  (r.arguments.entries.filter fun e => args.has e.1).mapM fun e =>
    return ⟨e.2, ← e.2.compile args⟩

def lookup {α : Type} (r : Registry α) (id : String) (e : EngineError) : Except EngineError α :=
  match r.get? id with
  | some x => .ok x
  | none => .error e

def chainScope (context id : String) : String := context ++ " (chain " ++ id ++ ")"

def chainPath (id : String) : String := "chain:" ++ id

/-- The element that was made, or a warning in its place. -/
def report {α : Type} (message context : String) (made : ExceptT EngineError Compile α) :
    Compile (Option α) := do
  match ← made.run with
  | .ok x => return some x
  | .error e =>
    tell (rejection message context e)
    return none

def chainOf (context id : String) (components : Compile (List Effect)) : Compile (Option Chain) := do
  let es ← components
  if es.isEmpty then
    tell (emptyChain context id)
    return none
  else return some ⟨← fresh, id, es⟩

def inlineContext (context : String) : String := context ++ " (inline chain)"

/-- The chain that a chain runner names, or the one written inside it with the given components. -/
def chainFor (r : Registries) (args : Json) (context : String) (components : Compile (List Effect)) :
    ExceptT EngineError Compile Chain :=
  match args.text? "chain" with
  | some id => lift (lookup r.chains id (.chainNotFound id))
  | none =>
    if args.has "effects" then do
      match ← chainOf (inlineContext context) Chain.anonymousId components with
      | some c => return c
      | none => throw (.emptyChain (inlineContext context))
    else throw (.missingKey "chain")

/-- What an effect of a kind does, given the components of the chain that may be written inside it. -/
def response (r : Registries) (kind : EffectKind) (args : Json) (context : String)
    (components : Compile (List Effect)) : ExceptT EngineError Compile Response :=
  match kind with
  | .leaf k => do
    let d ← lift (k.compile args)
    return .leaf k d
  | .chainRunner k => do
    let run := (args.text? "run_type").getD "normal"
    let executor ← lift (lookup r.executors run (.unknownExecutor run))
    let c ← chainFor r args context components
    return .chain k c ⟨executor, ← fresh⟩

mutual

def condition (r : Registries) (config : Json) (context path : String) : Compile (Option Condition) :=
  report "条件编译失败" context do
    let id ← lift (config.requireText "id")
    let kind ← lift (lookup r.conditions id (.unknownCondition id))
    let args := config.subsection "args"
    let datum ← lift (kind.compile args)
    let fallbacks ← effects r (args.subsections "not_met_effects") 0 (context ++ " (not met)")
      (path ++ "/not_met")
    return {
      id := blockId "condition" path config
      kind, args, datum
      inverted := config.flag "inverse"
      showNotMet := args.flag "show_not_met"
      notMetLines := args.texts "not_met_lines"
      notMetEffects := fallbacks
      context }
termination_by (config.size, 0)
decreasing_by
  all_goals
    have := Json.subsection_size config "args"
    have := Json.subsections_size (config.subsection "args") "not_met_effects"
    exact Prod.Lex.left _ _ (by omega)

def conditions (r : Registries) (configs : List Json) (i : Nat) (context path : String) :
    Compile (List Condition) :=
  match configs with
  | [] => return []
  | config :: rest => do
    let place := item "conditions" i
    let c ← condition r config (context ++ " " ++ place) (path ++ "/" ++ place)
    let cs ← conditions r rest (i + 1) context path
    return c.toList ++ cs
termination_by (Json.totalSize configs, 1)
decreasing_by
  all_goals
    have := Json.size_pos config
    simp only [Json.totalSize, Prod.lex_def]; omega

def effect (r : Registries) (config : Json) (context path : String) : Compile (Option Effect) :=
  report "效果编译失败" context do
    let id ← lift (config.requireText "id")
    let kind ← lift (lookup r.effects id (.unknownEffect id))
    let args := config.subsection "args"
    let inside := effects r (args.subsections "effects") 0
      (chainScope (inlineContext context) Chain.anonymousId) (chainPath Chain.anonymousId)
    let response ← response r kind args context inside
    let arguments ← lift (arguments r args)
    let conditions ← conditions r (config.subsections "conditions") 0 context path
    return {
      id := blockId "effect" path config
      args, response, conditions, arguments
      triggers := config.texts "triggers"
      context }
termination_by (config.size, 0)
decreasing_by
  · have := Json.subsection_size config "args"
    have := Json.subsections_size (config.subsection "args") "effects"
    exact Prod.Lex.left _ _ (by omega)
  · exact Prod.Lex.left _ _ (Json.subsections_size config "conditions")

def effects (r : Registries) (configs : List Json) (i : Nat) (context path : String) :
    Compile (List Effect) :=
  match configs with
  | [] => return []
  | config :: rest => do
    let place := item "effects" i
    let e ← effect r config (context ++ " " ++ place) (path ++ "/" ++ place)
    let es ← effects r rest (i + 1) context path
    return e.toList ++ es
termination_by (Json.totalSize configs, 1)
decreasing_by
  all_goals
    have := Json.size_pos config
    simp only [Json.totalSize, Prod.lex_def]; omega

end

/-- What an effect of a kind with these arguments does, a chain written inside them included. -/
def responseOf (r : Registries) (kind : EffectKind) (args : Json) (context : String) :
    ExceptT EngineError Compile Response :=
  response r kind args context
    (effects r (args.subsections "effects") 0 (chainScope (inlineContext context) Chain.anonymousId)
      (chainPath Chain.anonymousId))

/-- A holder and whatever of it could be compiled. -/
def holder (r : Registries) (config : Json) (context : String) : Compile (Option Holder) :=
  match config.requireText "id" with
  | .error e => do
    tell (rejection "持有者编译失败" context e)
    return none
  | .ok id => do
    let scope := context ++ " (holder " ++ id ++ ")"
    let path := "holder:" ++ id
    let es ← effects r (config.subsections "effects") 0 scope path
    let cs ← conditions r (config.subsections "conditions") 0 scope path
    return some ⟨id, es, cs⟩

/-- A chain under its own identifier, or an anonymous one. It is not registered here. -/
def chain (r : Registries) (config : Json) (context : String) (anonymous : Bool) :
    Compile (Option Chain) :=
  if anonymous then make Chain.anonymousId
  else
    match config.requireText "id" with
    | .error e => do
      tell (rejection "效果链编译失败" context e)
      return none
    | .ok id => make id
where
  make (id : String) : Compile (Option Chain) :=
    chainOf context id
      (effects r (config.subsections "effects") 0 (chainScope context id) (chainPath id))

end Compile

end Ability

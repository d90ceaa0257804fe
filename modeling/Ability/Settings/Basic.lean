import Ability.Settings.Environment
import Ability.Settings.File

/-!
The settings of a service: how long answers of providers are kept, how often subjects are updated,
where the definitions are, and how it logs.
-/

namespace Ability

structure EngineSettings where
  cacheLifetimeMs : Nat := 4000
  updateIntervalMs : Nat := 1000
  definitionsPath : String := "config/definitions.json"

/-- The time between updates is at least a millisecond. -/
def EngineSettings.interval (s : EngineSettings) : Nat := max s.updateIntervalMs 1

structure LogSettings where
  serviceName : String := ""
  level : String := "info"
  json : Bool := false

/-- Names the service, unless it has a name. -/
def LogSettings.withServiceName (s : LogSettings) (name : String) : LogSettings :=
  if s.serviceName.isEmpty then { s with serviceName := name } else s

structure Settings where
  serviceName : String
  environment : String
  engine : EngineSettings := {}
  log : LogSettings := {}

namespace Settings

def isProduction (s : Settings) : Bool := s.environment = "production"

/-- A field by name, or by position if the fields are given as an array that is not too long. -/
def jsonMembers (names : List String) (v : Json) : Option (String → Option Json) :=
  match v with
  | .object fields => some fun k => (fields.find? (·.1 = k)).map (·.2)
  | .array items =>
    if items.length ≤ names.length then
      some fun k => ((names.zip items).find? (·.1 = k)).map (·.2)
    else none
  | _ => none

def jsonText? : Json → Option String
  | .text s => some s
  | _ => none

def jsonFlag? : Json → Option Bool
  | .bool b => some b
  | _ => none

def jsonCount? : Json → Option Nat
  | .number (.integer i) => if 0 ≤ i ∧ i.toNat < UInt64.size then some i.toNat else none
  | _ => none

/-- What is there has to be right; what is not there has a default. -/
def orDefault {α β : Type} (x : Option α) (read : α → Option β) (default : β) : Option β :=
  match x with
  | some a => read a
  | none => some default

def engineMembers : List String := ["holder_cache_ttl_ms", "update_interval_ms", "definitions_path"]

def logMembers : List String := ["service_name", "log_level", "json_logs"]

def engineOfJson? (v : Json) : Option EngineSettings := do
  let get ← jsonMembers engineMembers v
  let d : EngineSettings := {}
  return ⟨← orDefault (get "holder_cache_ttl_ms") jsonCount? d.cacheLifetimeMs,
    ← orDefault (get "update_interval_ms") jsonCount? d.updateIntervalMs,
    ← orDefault (get "definitions_path") jsonText? d.definitionsPath⟩

def logOfJson? (v : Json) : Option LogSettings := do
  let get ← jsonMembers logMembers v
  let d : LogSettings := {}
  return ⟨← orDefault (get "service_name") jsonText? d.serviceName,
    ← orDefault (get "log_level") jsonText? d.level, ← orDefault (get "json_logs") jsonFlag? d.json⟩

/-- Settings from a document that has to name the service and its environment. -/
def ofJson? (v : Json) : Option Settings := do
  let get ← jsonMembers ["service_name", "environment", "engine", "observability"] v
  return ⟨← (get "service_name").bind jsonText?, ← (get "environment").bind jsonText?,
    ← orDefault (get "engine") engineOfJson? {}, ← orDefault (get "observability") logOfJson? {}⟩

def engineOfTree? (t : Tree) : Option EngineSettings := do
  let get ← t.members engineMembers
  let d : EngineSettings := {}
  return ⟨← orDefault (get "holder_cache_ttl_ms") Tree.toCount? d.cacheLifetimeMs,
    ← orDefault (get "update_interval_ms") Tree.toCount? d.updateIntervalMs,
    ← orDefault (get "definitions_path") Tree.toText? d.definitionsPath⟩

def logOfTree? (t : Tree) : Option LogSettings := do
  let get ← t.members logMembers
  let d : LogSettings := {}
  return ⟨← orDefault (get "service_name") Tree.toText? d.serviceName,
    ← orDefault (get "log_level") Tree.toText? d.level, ← orDefault (get "json_logs") Tree.toFlag? d.json⟩

def ofTree? (t : Tree) : Option Settings := do
  return ⟨← (t.child? "service_name").bind Tree.toText?, ← (t.child? "environment").bind Tree.toText?,
    ← orDefault (t.child? "engine") engineOfTree? {},
    ← orDefault (t.child? "observability") logOfTree? {}⟩

/-- The lowest layer: the names that a service is started with. -/
def startLayer (service environment : String) : Layer :=
  [("service_name", .value (.text service)), ("environment", .value (.text environment))]

/-- Settings from the names of service and environment, the files `default.toml`, that of the
environment and that of the service, and the environment variables, each over those before. Logs without
a service name of their own take that of the service. -/
def load? (service environment : String) (files : Files) (vars : Environment) : Option Settings := do
  let base ← files.layer? "default"
  let ofEnvironment ← files.layer? environment
  let ofService ← files.layer? service
  let s ← ofTree? (stack [startLayer service environment, base, ofEnvironment, ofService, vars.layer])
  return { s with log := s.log.withServiceName s.serviceName }

/-- The environment of a service that is started without one. -/
def environmentName (vars : Environment) : String := (vars.get? "REFORGE_ENV").getD "development"

end Settings

/-- How to log, from the environment variables alone. -/
def LogSettings.ofEnvironment (service : String) (vars : Settings.Environment) : LogSettings where
  serviceName := service
  level := (vars.get? "RUST_LOG").getD "info"
  json :=
    match vars.get? "JSON_LOGS" with
    | some v => v = "true" || v = "1"
    | none => false

end Ability

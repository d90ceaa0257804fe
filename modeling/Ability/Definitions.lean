import Ability.Engine

/-!
Definition documents: chains, holders and subjects in one JSON text. Chains are compiled before
holders, each list in its order, so that a holder may refer to any chain and a chain to those before
it.
-/

namespace Ability

structure SubjectDefinition where
  name : String
  holders : List String
  attributes : List (String × Json)
  permissions : List String

structure Definitions where
  chains : List Json
  holders : List Json
  subjects : List SubjectDefinition

structure CompiledDefinitions where
  chains : List Chain
  holders : Table String Holder

abbrev Assignments := Table Uuid (List Provision)

namespace SubjectDefinition

def shape : Json.Shape :=
  .record [("name", true, .text), ("holders", false, .list .text),
    ("attributes", false, .dictionary), ("permissions", false, .list .text)]

def ofJson (v : Json) : SubjectDefinition where
  name := (v.text? "name").getD ""
  holders := v.texts "holders"
  attributes :=
    match v.get? "attributes" with
    | some (.object fields) => fields
    | _ => []
  permissions := v.texts "permissions"

def instantiate (d : SubjectDefinition) : Subject :=
  let sheet : Sheet := { Sheet.empty with attributes := .ofList d.attributes }
  ⟨Subject.idOfName d.name, d.name, some (d.permissions.foldl Sheet.addBase sheet)⟩

end SubjectDefinition

namespace Definitions

def shape : Json.Shape :=
  .record [("chains", false, .list .any), ("holders", false, .list .any),
    ("subjects", false, .list SubjectDefinition.shape)]

def items (v : Json) (path : String) : List Json :=
  match v.get? path with
  | some (.array items) => items
  | _ => []

def ofText (text : String) : Except Json.Fault Definitions := do
  let v ← Json.readDocument shape text
  return ⟨items v "chains", items v "holders", (items v "subjects").map .ofJson⟩

def compileChains (source : String) : Nat → List Json → EngineM (List Chain)
  | _, [] => return []
  | i, config :: r => do
    let c ← Engine.compileChain config (source ++ " " ++ Compile.item "chains" i) false
    return c.toList ++ (← compileChains source (i + 1) r)

def compileHolders (source : String) : Nat → List Json → EngineM (List Holder)
  | _, [] => return []
  | i, config :: r => do
    let h ← Engine.compileHolder config (source ++ " " ++ Compile.item "holders" i)
    return h.toList ++ (← compileHolders source (i + 1) r)

def summary (source : String) (c : CompiledDefinitions) : Event :=
  .record .info "定义编译完成"
    [("source", source), ("chains", toString c.chains.length), ("holders", toString c.holders.size)]

/-- Compiles all chains and then all holders. Of holders with one identifier the last is kept. -/
def compile (d : Definitions) (source : String) : EngineM CompiledDefinitions := do
  let chains ← compileChains source 0 d.chains
  let holders ← compileHolders source 0 d.holders
  let c := ⟨chains, .ofList (holders.map fun h => (h.id, h))⟩
  StateT.lift (Logged.tell (summary source c))
  return c

end Definitions

namespace CompiledDefinitions

def unknownHolder (subject holder : String) : Event :=
  .record .warn "未知的持有者" [("subject", subject), ("holder", holder)]

/-- The known holders of a list, each with its identifier as a placeholder. -/
def provisions (c : CompiledDefinitions) (subject : String) : List String → Logged (List Provision)
  | [] => return []
  | id :: r => do
    match c.holders.get? id with
    | some h =>
      return (Provision.of h).withPlaceholders (.ofPairs [("holder", id)]) :: (← provisions c subject r)
    | none =>
      Logged.tell (unknownHolder subject id)
      provisions c subject r

/-- The subjects of the definitions, and the holders that each of them is given. Definitions of one
name give to the same identifier. -/
def instantiate (c : CompiledDefinitions) :
    Assignments → List SubjectDefinition → Logged (List Subject × Assignments)
  | a, [] => return ([], a)
  | a, d :: r => do
    let s := d.instantiate
    let ps ← provisions c d.name d.holders
    let a := if ps.isEmpty then a else a.insert s.id ((a.get? s.id).getD [] ++ ps)
    let (ss, a) ← instantiate c a r
    return (s :: ss, a)

end CompiledDefinitions

def Assignments.provider (a : Assignments) : Provider := fun s => pure ((a.get? s.id).getD [])

end Ability

import Ability.Kind

/-! The effects that come with the engine. -/

namespace Ability.Builtin

/-- The permission is granted in the name of the block, and all that the block granted is taken back. -/
def givePermission : LeafKind where
  id := "give_permission"
  form := .text
  compile args := .text <$> args.requireText "permission"
  lifecycle phase site d :=
    match phase, d with
    | .enable, .text p => modify (·.grant site.id p)
    | .disable, _ => modify (·.revoke site.id)
    | _, _ => pure ()

def requireMessage (args : Json) : Except EngineError Datum := do
  let _ ← args.requireText "message"
  return .nothing

def message? (site : Site) (o : Occurrence) : Act (Option String) :=
  fun s => do
    let m ← (site.evaluation o.placeholders).text? "message"
    return (.ok m, s)

def sendMessage : LeafKind where
  id := "send_message"
  form := .nothing
  compile := requireMessage
  respond site o _ := do
    match ← message? site o with
    | some m => modify (·.send m); return true
    | none => throw (.missingKey "message")

def logMessage : LeafKind where
  id := "log"
  form := .nothing
  compile := requireMessage
  respond site o _ := do
    let m := (← message? site o).getD ""
    ExceptT.lift (StateT.lift (Logged.tell (.record .info "效果日志"
      [("subject", o.subject.toText), ("trigger", o.trigger), ("message", m)])))
    return true

def runChain : EffectKind := .chainRunner "run_chain"

def effects : List EffectKind :=
  [.leaf givePermission, .leaf sendMessage, .leaf logMessage, runChain]

end Ability.Builtin

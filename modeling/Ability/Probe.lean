import Ability.Engine

/-!
Elements that show what the engine does with them, and evaluators that show or replace what is
evaluated.
-/

namespace Ability.Probe

/-- Answers as its arguments say, apart for the question with a lender and the one without. -/
def scripted : ConditionKind where
  id := "scripted"
  form := .nothing
  compile _ := return .nothing
  holds _ e lender _ := do
    if e.flag "error" then throw (.invalidConfig "scripted failure")
    let asked := if lender.isSome then "with" else "without"
    if e.flag "log" then ExceptT.lift (Logged.tell (.line ("scripted:" ++ asked)))
    return e.flag asked

/-- Writes a line for each callback, or fails in the phase that its arguments name. -/
def recordCall (phase : String) (d : Datum) : Act Unit :=
  match d with
  | .json v => do
    let name := (v.text? "name").getD ""
    if v.text? "error_on" = some phase then throw (.effectFailed (phase ++ " " ++ name))
    else ExceptT.lift (StateT.lift (Logged.tell (.line (phase ++ ":" ++ name))))
  | _ => pure ()

def record : LeafKind where
  id := "record"
  form := .json
  compile args := do
    let _ ← args.requireText "name"
    return .json args
  lifecycle phase _ d := recordCall phase.name d
  respond _ _ d := do
    recordCall "trigger" d
    match d with
    | .json v => return !v.flag "fail"
    | _ => return true

def inert : LeafKind where
  id := "inert"
  form := .nothing
  compile _ := return .nothing

/-- Open, shut or broken, as its argument says. -/
def gate : ArgumentKind where
  name := "gate"
  form := .text
  compile args := .text <$> args.requireText "gate"
  holds _ _ d :=
    match d with
    | .text t => do
      ExceptT.lift (StateT.lift (Logged.tell (.line ("gate:" ++ t))))
      if t = "error" then throw (.effectFailed "gate") else return t = "open"
    | _ => return false

def register (r : Registries) : Registries :=
  (((r.addCondition scripted).addEffect (.leaf record)).addEffect (.leaf inert)).addArgument gate

/-- The evaluator `ev`, telling each call before it is made. -/
def traced (ev : Evaluator) : Evaluator where
  resolve text p := do
    Logged.tell (.line ("resolve:" ++ text))
    ev.resolve text p
  evaluate text p := do
    ExceptT.lift (Logged.tell (.line ("evaluate:" ++ text)))
    ev.evaluate text p

/-- Puts every text in angle brackets and values an expression by its length in bytes. -/
def stub : Evaluator where
  resolve text _ := return "<" ++ text ++ ">"
  evaluate text _ := return Binary64.ofInt text.utf8ByteSize

end Ability.Probe

import Ability.Engine
import Ability.Text.Shapeless

/-! Texts that show blocks, holders, sections and occurrences to a developer. -/

namespace Ability.Describe

def escapeChar (c : Char) : List Char :=
  if c = '\x00' then ['\\', '0']
  else if c = '\t' then ['\\', 't']
  else if c = '\n' then ['\\', 'n']
  else if c = '\r' then ['\\', 'r']
  else if c = '"' then ['\\', '"']
  else if c = '\\' then ['\\', '\\']
  else if Text.isShapeless c then '\\' :: 'u' :: '\x7b' :: Nat.toDigits 16 c.toNat ++ ['\x7d']
  else [c]

/-- Text in quotes. Quotes, backslashes and characters without a shape are escaped. -/
def quoted (s : String) : String := String.ofList ('"' :: s.toList.flatMap escapeChar ++ ['"'])

def inBraces (s : String) : String := "\x7b" ++ s ++ "\x7d"

def parts (name : String) (fields : List (String × String)) : String :=
  name ++ " " ++ inBraces (" " ++ ", ".intercalate (fields.map fun f => f.1 ++ ": " ++ f.2) ++ " ")

def list (items : List String) : String := "[" ++ ", ".intercalate items ++ "]"

def option (x : Option String) : String :=
  match x with
  | some s => "Some(" ++ s ++ ")"
  | none => "None"

def placeholders (p : Placeholders) : String :=
  parts "Placeholders"
    [("values", inBraces (", ".intercalate (p.entries.map fun e => quoted e.1 ++ ": " ++ quoted e.2)))]

def trigger (id : String) : String := parts "Trigger" [("id", quoted id)]

def effect (e : Effect) : String :=
  parts "EffectBlock"
    [("id", e.id.toText), ("effect", quoted e.kindId), ("triggers", list (e.triggers.map trigger)),
     ("context", quoted e.context)]

def argument (a : Argument) : String := parts "ArgumentBlock" [("name", quoted a.kind.name)]

def arguments (e : Effect) : String := list (e.arguments.map argument)

def condition (c : Condition) : String :=
  parts "ConditionBlock"
    [("id", c.id.toText), ("condition", quoted c.kind.id),
     ("inverted", if c.inverted then "true" else "false"), ("context", quoted c.context)]

def conditions (cs : List Condition) : String := list (cs.map condition)

def chain (c : Chain) : String :=
  parts "Chain"
    [("id", quoted c.id), ("components", list (c.components.map fun e => "Effect(" ++ effect e ++ ")"))]

def holder (h : Holder) : String :=
  parts "Holder"
    [("id", quoted h.id), ("effects", list (h.effects.map effect)), ("conditions", conditions h.conditions)]

def provision (p : Provision) : String :=
  parts "ProvidedHolder" [("holder", quoted p.holder.id), ("placeholders", placeholders p.placeholders)]

def triggerData (d : TriggerData) : String :=
  parts "TriggerData"
    [("value", option (d.value.map Binary64.Layout.diagnostic.text)), ("text", option (d.text.map quoted)),
     ("extra", placeholders d.extra)]

def occurrence (o : Occurrence) : String :=
  parts "DispatchedTrigger"
    [("subject", o.subject.toText), ("trigger", trigger o.trigger), ("data", triggerData o.data)]

mutual

def json : Json → String
  | .null => "Null"
  | .bool b => "Bool(" ++ (if b then "true" else "false") ++ ")"
  | .number n => "Number(" ++ n.toText ++ ")"
  | .text s => "String(" ++ quoted s ++ ")"
  | .array items => "Array " ++ list (jsonItems items)
  | .object fields => "Object " ++ inBraces (", ".intercalate (jsonFields fields))

def jsonItems : List Json → List String
  | [] => []
  | v :: r => json v :: jsonItems r

def jsonFields : List (String × Json) → List String
  | [] => []
  | (k, v) :: r => (quoted k ++ ": " ++ json v) :: jsonFields r

end

def configuration (v : Json) : String := "ConfigSection(" ++ json v ++ ")"

end Ability.Describe

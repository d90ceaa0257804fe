import Ability.Number.Shortest
import Ability.Subject

/-! Occurrences of triggers, with the placeholders as they were when the trigger occurred. -/

namespace Ability

structure TriggerData where
  value : Option Float
  text : Option String
  extra : Placeholders

namespace TriggerData

def none : TriggerData := ⟨.none, .none, .empty⟩

def ownPairs (d : TriggerData) : List (String × String) :=
  (match d.value with
    | some x =>
      let t := Binary64.Layout.plain.text x
      [("trigger_value", t), ("value", t)]
    | .none => []) ++
  (match d.text with
    | some t => [("text", t)]
    | .none => [])

/-- The value and the text under their names, and over them the extra placeholders. -/
def placeholders (d : TriggerData) : Placeholders :=
  (Placeholders.ofPairs d.ownPairs).merged d.extra

end TriggerData

structure Occurrence where
  subject : Uuid
  trigger : String
  data : TriggerData
  placeholders : Placeholders

/-- An occurrence for a subject as it is now; later changes of the subject do not reach it. -/
def Occurrence.of (s : Subject) (trigger : String) (data : TriggerData) : Occurrence :=
  ⟨s.id, trigger, data, s.placeholders.merged data.placeholders⟩

end Ability

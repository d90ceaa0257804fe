import Ability.Kind

/-! The conditions that come with the engine. -/

namespace Ability.Builtin

def requirePair (args : Json) : Except EngineError Datum := do
  let _ ← args.requireText "placeholder"
  let _ ← args.requireText "value"
  return .nothing

def placeholderEquals : ConditionKind where
  id := "placeholder_equals"
  form := .nothing
  compile := requirePair
  holds _ e _ _ := do
    let x ← e.text "placeholder"
    let y ← e.text "value"
    return x = y

def placeholderGreaterThan : ConditionKind where
  id := "placeholder_greater_than"
  form := .nothing
  compile := requirePair
  holds _ e _ _ := do
    let x ← e.number "placeholder"
    let y ← e.number "value"
    return decide (y < x)

def placeholderLessThan : ConditionKind where
  id := "placeholder_less_than"
  form := .nothing
  compile := requirePair
  holds _ e _ _ := do
    let x ← e.number "placeholder"
    let y ← e.number "value"
    return decide (x < y)

/-- The permission is fixed when the condition is compiled. -/
def hasPermission : ConditionKind where
  id := "has_permission"
  form := .text
  compile args := .text <$> args.requireText "permission"
  holds s _ _ d :=
    match d with
    | .text p => pure (s.hasPermission p)
    | _ => pure false

/-- An attribute that is no number is not at least anything, and then the value is not looked at. -/
def attributeAtLeast : ConditionKind where
  id := "attribute_at_least"
  form := .text
  compile args := do
    let _ ← args.requireText "value"
    return .text (← args.requireText "attribute")
  holds s e _ d :=
    match d with
    | .text key =>
      match s.attribute? key with
      | some (.number n) => do
        let y ← e.number "value"
        return decide (y ≤ n.toFloat)
      | _ => pure false
    | _ => pure false

def conditions : List ConditionKind :=
  [placeholderEquals, placeholderGreaterThan, placeholderLessThan, hasPermission, attributeAtLeast]

end Ability.Builtin

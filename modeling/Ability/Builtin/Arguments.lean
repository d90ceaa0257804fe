import Ability.Kind

/-! The effect arguments that come with the engine. -/

namespace Ability.Builtin

/-- The number at `path`, with the placeholders of the occurrence. -/
def argumentNumber (site : Site) (o : Occurrence) (path : String) :
    ExceptT EngineError (StateT Dice Logged) Float :=
  fun dice => do
    let x ← ((site.evaluation o.placeholders).number path).run
    return (x, dice)

def require : ArgumentKind where
  name := "require"
  form := .nothing
  compile args := do
    let _ ← args.requireText "require"
    return .nothing
  holds site o _ := do
    let x ← argumentNumber site o "require"
    return x == 1.0

/-- Met in that many cases of a hundred. -/
def chance : ArgumentKind where
  name := "chance"
  form := .nothing
  compile args := do
    let _ ← args.requireText "chance"
    return .nothing
  holds site o _ := do
    let x ← argumentNumber site o "chance"
    let f ← ExceptT.lift fun dice => pure (Dice.fraction dice)
    return decide (f * 100.0 < x)

def arguments : List ArgumentKind := [require, chance]

end Ability.Builtin

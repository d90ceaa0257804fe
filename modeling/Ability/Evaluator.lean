import Ability.Error
import Ability.Expression.Lexer
import Ability.Expression.Parser
import Ability.Journal
import Ability.Template

/-!
The service that fills templates and values expressions. A host may put its own in place of the
arithmetic one.
-/

namespace Ability

abbrev Check (α : Type) := ExceptT EngineError Logged α

structure Evaluator where
  resolve : String → Placeholders → Logged String
  evaluate : String → Placeholders → Check Float

namespace Expression

/-- The value of a text without references. A failure quotes `shown`. -/
def value (shown text : String) : Except EngineError Float := do
  let ts ← (tokenize text.toList).mapError (.expression shown)
  let x ← (valueOf ts).mapError (.expression shown)
  if x.isFinite then return x else throw (.expression shown .notFinite)

/-- Fills in the placeholders, of which none may be left over, and values the text. A failure quotes
the text as it was before. -/
def evaluate (text : String) (p : Placeholders) : Except EngineError Float :=
  let filled := Template.fill p text
  match Template.references filled with
  | name :: _ => .error (.unresolvedPlaceholder name)
  | [] => value text filled

end Expression

/-- Placeholders, numbers, signs, arithmetic, comparisons and logic. -/
def Evaluator.arithmetic : Evaluator where
  resolve text p := pure (Template.fill p text)
  evaluate text p := ExceptT.mk (pure (Expression.evaluate text p))

end Ability

import Ability.Config.Path
import Ability.Evaluator
import Ability.Json.Printer

/-! Typed reads of an element's configuration. -/

namespace Ability.Json

def has (v : Json) (path : String) : Bool :=
  match v.get? path with
  | some w => !w.isNull
  | none => false

def text? (v : Json) (path : String) : Option String := (v.get? path).bind scalarText?

/-- A text that has to be there; null counts as missing. -/
def requireText (v : Json) (path : String) : Except EngineError String :=
  match v.get? path with
  | none | some null => .error (.missingKey path)
  | some w =>
    match w.scalarText? with
    | some s => .ok s
    | none => .error (.invalidType path "string")

/-- Whether a text is `true` in any letter case of ASCII. -/
def saysTrue (s : String) : Bool := s.toList.map Char.toLower = ['t', 'r', 'u', 'e']

def flagOr (v : Json) (path : String) (default : Bool) : Bool :=
  match v.get? path with
  | some (bool b) => b
  | some (text s) => saysTrue s
  | _ => default

def flag (v : Json) (path : String) : Bool := v.flagOr path false

/-- The texts and numbers of a list; a single text is a list of one. -/
def texts (v : Json) (path : String) : List String :=
  match v.get? path with
  | some (array items) => items.filterMap fun
    | text s => some s
    | number n => some n.toText
    | _ => none
  | some (text s) => [s]
  | _ => []

/-- The object at a path; an empty one if there is none. -/
def subsection (v : Json) (path : String) : Json :=
  match v.get? path with
  | some (object fields) => object fields
  | _ => emptyObject

/-- The objects of a list; what is not an object is left out. -/
def subsections (v : Json) (path : String) : List Json :=
  match v.get? path with
  | some (array items) => items.filter isObject
  | _ => []

theorem subsection_size (v : Json) (path : String) : (v.subsection path).size ≤ v.size := by
  unfold subsection
  split
  · next h => exact Nat.le_of_lt (get?_size h)
  · have := size_pos v
    simp [emptyObject, size, fieldsSize]; omega

theorem subsections_size (v : Json) (path : String) : totalSize (v.subsections path) < v.size := by
  unfold subsections
  split
  · next items h =>
    have h₁ := get?_size h
    have h₂ := totalSize_filter_le isObject items
    simp only [size] at h₁; omega
  · have := size_pos v
    simp [totalSize]; omega

end Ability.Json

namespace Ability

/-- One evaluation of an element: its configuration and the placeholders given to it this time. -/
structure Evaluation where
  evaluator : Evaluator
  args : Json
  placeholders : Placeholders

namespace Evaluation

/-- A number, or the value of a text as an expression; a truth value counts as one or zero. -/
def number (e : Evaluation) (path : String) : Check Float :=
  match e.args.get? path with
  | some (.number n) => pure n.toFloat
  | some (.text s) => e.evaluator.evaluate s e.placeholders
  | some (.bool b) => pure (if b then 1.0 else 0.0)
  | none | some .null => throw (.missingKey path)
  | some _ => throw (.invalidType path "number or expression")

/-- A text that has to be there, filled in. -/
def text (e : Evaluation) (path : String) : Check String := do
  let raw ← liftExcept (e.args.requireText path)
  e.evaluator.resolve raw e.placeholders
where
  liftExcept {α : Type} (x : Except EngineError α) : Check α := ExceptT.mk (pure x)

def text? (e : Evaluation) (path : String) : Logged (Option String) :=
  match e.args.text? path with
  | some raw => some <$> e.evaluator.resolve raw e.placeholders
  | none => pure none

def flag (e : Evaluation) (path : String) : Bool := e.args.flag path

end Evaluation

end Ability

import Ability.Json.Reader
import Ability.Settings.Toml.Document

/-!
Settings files: in TOML, and in JSON under a name that says so.
-/

namespace Ability.Settings

mutual

def Tree.ofJson : Json → Tree
  | .null => .nothing
  | .bool b => .value (.flag b)
  | .number (.integer i) => .value (.integer i)
  | .number (.decimal x) => .value (.decimal x)
  | .text s => .value (.text s)
  | .array items => .list (Tree.ofItems items)
  | .object fields => .table (Tree.ofFields fields)

def Tree.ofItems : List Json → List Tree
  | [] => []
  | v :: r => .ofJson v :: Tree.ofItems r

def Tree.ofFields : List (String × Json) → List (String × Tree)
  | [] => []
  | (k, v) :: r => (k, .ofJson v) :: Tree.ofFields r

end

def jsonLayer? (s : String) : Option Layer :=
  match Json.parse s with
  | .ok (.object fields) => some (Tree.ofFields fields)
  | _ => none

abbrev Files := List (String × String)

/-- The name of a file in the directory that a path leads to. Parts that are empty or a dot lead nowhere;
a path from the root, or one with several other parts, leads away. -/
def Files.nameAt? (path : String) : Option String :=
  match (path.toList.splitOn '/').filter fun part => part ≠ [] ∧ part ≠ ['.'] with
  | [part] => if path.startsWith "/" then none else some (String.ofList part)
  | _ => none

/-- The text of a file, which may have a mark of byte order before it. -/
def Files.text? (files : Files) (file : String) : Option String :=
  (files.lookup file).map fun s => String.ofList (Toml.dropMark s.toList)

/-- The layer of the settings file of a name. If it is not there, a file whose name has one ending more
is taken, and if there is none either, nothing is set. A file without a name before its ending sets
nothing. -/
def Files.layer? (files : Files) (name : String) : Option Layer :=
  match nameAt? (name ++ ".toml") with
  | none => some []
  | some file =>
    match files.text? file, files.text? (file ++ ".toml"), files.text? (file ++ ".json") with
    | some s, _, _ => if file = ".toml" then some [] else Toml.layer? s
    | none, some s, _ => Toml.layer? s
    | none, none, some s => jsonLayer? s
    | none, none, none => some []

end Ability.Settings

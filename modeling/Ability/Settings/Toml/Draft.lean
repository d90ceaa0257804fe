import Ability.Settings.Tree

/-!
Tables of TOML while they are being written. No key is given twice, and whether something may still be
put into a table depends on how the table came to be.
-/

namespace Ability.Settings.Toml

/-- How a table came to be: by its own header, on the way to another header, or on the way of keys
between dots. -/
inductive Origin
  | header
  | passed
  | dotted
deriving DecidableEq

/-- What stands under a key. A value is closed, lists and tables in braces among them; of a row of tables
only the last one is open. -/
inductive Node
  | closed (t : Tree)
  | table (origin : Origin) (entries : List (String × Node))
  | rows (before : List Tree) (last : List (String × Node))

namespace Node

mutual

def toTree : Node → Tree
  | closed t => t
  | table _ es => .table (toTrees es)
  | rows before last => .list (before ++ [.table (toTrees last)])

def toTrees : List (String × Node) → List (String × Tree)
  | [] => []
  | (k, n) :: r => (k, n.toTree) :: toTrees r

end

end Node

abbrev Entries := List (String × Node)

namespace Entries

def get? (es : Entries) (key : String) : Option Node := (es.find? (·.1 = key)).map (·.2)

def replace (es : Entries) (key : String) (n : Node) : Entries :=
  es.map fun e => if e.1 = key then (key, n) else e

/-- Changes the table at a path. What is missing on the way is made, as `made` tells; a table on the way
has to be one that may be `entered`, and of a row of tables the last one is taken. -/
def alter? (made : Origin) (entered : Origin → Bool) (f : Origin → Entries → Option Entries) :
    List String → Origin → Entries → Option Entries
  | [], origin, es => f origin es
  | key :: path, _, es =>
    match es.get? key with
    | none => (alter? made entered f path made []).map fun sub => es ++ [(key, .table made sub)]
    | some (.table origin sub) =>
      if entered origin then
        (alter? made entered f path origin sub).map fun sub => es.replace key (.table origin sub)
      else none
    | some (.rows before last) =>
      (alter? made entered f path .header last).map fun last => es.replace key (.rows before last)
    | some (.closed _) => none

/-- Puts a tree under keys between dots. A table with a header of its own does not take the last key,
unless it is this one, and is not entered unless it is in a row. -/
def bind? (path : List String) (t : Tree) (es : Entries) : Option Entries := do
  let key ← path.getLast?
  let way := path.dropLast
  let put (origin : Origin) (es : Entries) : Option Entries :=
    if (way.isEmpty ∨ origin ≠ .header) ∧ (es.get? key).isNone then some (es ++ [(key, .closed t)])
    else none
  es.alter? .dotted (· ≠ .header) put way .header

def alterUnder? (f : Entries → Option Entries) (path : List String) (es : Entries) : Option Entries :=
  es.alter? .passed (fun _ => true) (fun _ => f) path .header

/-- Opens the table of a header: a new one, or one that was passed on the way to another. -/
def openTable? (path : List String) (es : Entries) : Option Entries := do
  let key ← path.getLast?
  let put (es : Entries) : Option Entries :=
    match es.get? key with
    | none => some (es ++ [(key, .table .header [])])
    | some (.table .passed sub) => some (es.replace key (.table .header sub))
    | _ => none
  es.alterUnder? put path.dropLast

def openRow? (path : List String) (es : Entries) : Option Entries := do
  let key ← path.getLast?
  let put (es : Entries) : Option Entries :=
    match es.get? key with
    | none => some (es ++ [(key, .rows [] [])])
    | some (.rows before last) =>
      some (es.replace key (.rows (before ++ [.table (Node.toTrees last)]) []))
    | _ => none
  es.alterUnder? put path.dropLast

end Entries

/-- A document up to some line: its tables, and the header that the line is under. -/
structure Draft where
  entries : Entries := []
  header : List String := []

namespace Draft

def bind? (d : Draft) (path : List String) (t : Tree) : Option Draft :=
  (d.entries.alterUnder? (Entries.bind? path t) d.header).map fun es => { d with entries := es }

def openTable? (d : Draft) (path : List String) : Option Draft :=
  (d.entries.openTable? path).map (⟨·, path⟩)

def openRow? (d : Draft) (path : List String) : Option Draft :=
  (d.entries.openRow? path).map (⟨·, path⟩)

end Draft

end Ability.Settings.Toml

import Ability.Settings.Value

/-!
Trees of settings. A tree that is merged into another one joins its tables to those that are there, key
by key, and replaces everything else.
-/

namespace Ability.Settings

inductive Tree
  | nothing
  | value (v : Value)
  | list (items : List Tree)
  | table (entries : List (String × Tree))

namespace Tree

def empty : Tree := table []

/-- The entries of a table; anything else has none. -/
def entries : Tree → List (String × Tree)
  | table es => es
  | _ => []

/-- The items of a list; anything else has none. -/
def items : Tree → List Tree
  | list ts => ts
  | _ => []

def child? (t : Tree) (key : String) : Option Tree := (t.entries.find? (·.1 = key)).map (·.2)

/-- The members of a tree by name. Those of a list have the names in their order, and items beyond the
last name do not count. -/
def members (names : List String) : Tree → Option (String → Option Tree)
  | table es => some (table es).child?
  | list items => some (table (names.zip items)).child?
  | _ => none

def toText? : Tree → Option String
  | value v => some v.toText
  | _ => none

def toFlag? : Tree → Option Bool
  | value v => v.toFlag?
  | _ => none

def toCount? : Tree → Option Nat
  | value v => v.toCount?
  | _ => none

/-- Changes what is under a key; before, that may be nothing. -/
def alterEntry (f : Tree → Tree) (key : String) : List (String × Tree) → List (String × Tree)
  | [] => [(key, f nothing)]
  | e :: r => if e.1 = key then (key, f e.2) :: r else e :: alterEntry f key r

mutual

def merge (below : Tree) : Tree → Tree
  | table es => table (mergeEntries below.entries es)
  | t => t

def mergeEntries (below : List (String × Tree)) : List (String × Tree) → List (String × Tree)
  | [] => below
  | (key, t) :: r => mergeEntries (alterEntry (fun b => b.merge t) key below) r

end

end Tree

end Ability.Settings

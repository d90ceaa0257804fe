import Ability.Settings.Layer

/-!
Settings in environment variables: `REFORGE_` and an address in any letter case, where two underscores
may stand for a dot.
-/

namespace Ability.Settings

abbrev Environment := List (String × String)

namespace Environment

def get? (env : Environment) (name : String) : Option String :=
  (env.find? (·.1 = name)).map (·.2)

/-- Two underscores stand for a dot. -/
def dotted : List Char → List Char
  | '_' :: '_' :: r => '.' :: dotted r
  | c :: r => c :: dotted r
  | [] => []

def namePrefix : List Char := "reforge_".toList

def setting? (e : String × String) : Option (String × Tree) :=
  let name := (lowercase e.1).toList
  if namePrefix.isPrefixOf name then
    some (String.ofList (dotted (name.drop namePrefix.length)), .value (.ofText e.2))
  else none

def layer (env : Environment) : Layer := env.filterMap setting?

end Environment

end Ability.Settings

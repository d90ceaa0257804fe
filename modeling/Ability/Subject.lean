import Ability.Json.Basic
import Ability.Placeholders
import Ability.Uuid

/-! Subjects: those who hold abilities. -/

namespace Ability

/-- What a subject in memory keeps. A permission is had for its own sake, or from each source that
granted it and has not revoked since. -/
structure Sheet where
  attributes : Table String Json
  base : List String
  granted : List (Uuid × String)
  messages : List String

namespace Sheet

def empty : Sheet := ⟨.empty, [], [], []⟩

def hasPermission (s : Sheet) (p : String) : Bool :=
  s.base.contains p || s.granted.any (·.2 = p)

def addBase (s : Sheet) (p : String) : Sheet :=
  if s.base.contains p then s else { s with base := p :: s.base }

def removeBase (s : Sheet) (p : String) : Sheet := { s with base := s.base.filter (· ≠ p) }

def grant (s : Sheet) (source : Uuid) (p : String) : Sheet :=
  if s.granted.contains (source, p) then s else { s with granted := (source, p) :: s.granted }

def revoke (s : Sheet) (source : Uuid) : Sheet :=
  { s with granted := s.granted.filter (·.1 ≠ source) }

def setAttribute (s : Sheet) (key : String) (v : Json) : Sheet :=
  { s with attributes := s.attributes.insert key v }

def removeAttribute (s : Sheet) (key : String) : Sheet :=
  { s with attributes := s.attributes.erase key }

end Sheet

/-- A subject keeps a sheet, or nothing beyond its name: then it has no attribute and no permission,
and what is done to it leaves no trace. -/
structure Subject where
  id : Uuid
  name : String
  sheet : Option Sheet

namespace Subject

def inMemory (id : Uuid) (name : String) : Subject := ⟨id, name, some .empty⟩

def idOfName (name : String) : Uuid := .ofName .objectSpace name.toUTF8.toList

def attribute? (s : Subject) (key : String) : Option Json := s.sheet.bind (·.attributes.get? key)

def hasPermission (s : Subject) (p : String) : Bool := s.sheet.any (·.hasPermission p)

def modify (s : Subject) (f : Sheet → Sheet) : Subject := { s with sheet := s.sheet.map f }

def grant (s : Subject) (source : Uuid) (p : String) : Subject := s.modify (·.grant source p)

def revoke (s : Subject) (source : Uuid) : Subject := s.modify (·.revoke source)

def send (s : Subject) (message : String) : Subject :=
  s.modify fun sh => { sh with messages := sh.messages ++ [message] }

/-- The messages since the last time they were taken. -/
def takeMessages (s : Subject) : List String × Subject :=
  ((s.sheet.map (·.messages)).getD [], s.modify fun sh => { sh with messages := [] })

/-- The attributes that have a text; lists, objects and null have none. -/
def attributePairs (s : Sheet) : List (String × String) :=
  s.attributes.entries.filterMap fun e => e.2.scalarText?.map (e.1, ·)

/-- Name and identifier, and over them the attributes that have a text. -/
def placeholders (s : Subject) : Placeholders :=
  (Placeholders.ofPairs [("subject_name", s.name), ("subject_id", s.id.toText)]).insertAll
    ((s.sheet.map attributePairs).getD [])

end Subject

end Ability

import Ability.Placeholders

/-!
Texts with references `%name%`. A text is cut into pieces in one pass from the left: a percent sign, a
name and the next percent sign make a reference, and everything else stands for itself. Texts put in
place of references are not looked at again.
-/

namespace Ability.Template

inductive Piece
  | literal (c : Char)
  | reference (name : List Char)
deriving DecidableEq

/-- Names are made of ASCII letters and digits and of `_`, `:`, `.` and `-`. -/
def isNameChar (c : Char) : Bool :=
  c.isAlphanum ∨ c = '_' ∨ c = ':' ∨ c = '.' ∨ c = '-'

def literals (cs : List Char) : List Piece := cs.map .literal

/-- What a percent sign and the name characters after it are when no reference comes of them. -/
def released : Option (List Char) → List Piece
  | none => []
  | some name => literals ('%' :: name)

/-- The pieces of a text behind an open percent sign and the name characters since, if there is one. -/
def pieces : Option (List Char) → List Char → List Piece
  | pending, [] => released pending
  | none, c :: r => if c = '%' then pieces (some []) r else .literal c :: pieces none r
  | some name, c :: r =>
    if c = '%' then
      if name = [] then .literal '%' :: pieces (some []) r
      else .reference name :: pieces none r
    else if isNameChar c then pieces (some (name ++ [c])) r
    else released (some name) ++ .literal c :: pieces none r

def ofText (text : String) : List Piece := pieces none text.toList

/-- The text of a piece: a known name gives its value, an unknown one stays as it is written. -/
def Piece.fill (p : Placeholders) : Piece → List Char
  | literal c => [c]
  | reference name =>
    match p.get? (String.ofList name) with
    | some value => value.toList
    | none => '%' :: name ++ ['%']

def fill (p : Placeholders) (text : String) : String :=
  String.ofList ((ofText text).flatMap (Piece.fill p))

def references (text : String) : List String :=
  (ofText text).filterMap fun
    | .literal _ => none
    | .reference name => some (String.ofList name)

end Ability.Template

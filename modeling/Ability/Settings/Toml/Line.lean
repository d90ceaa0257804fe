/-!
Lines of a TOML text: the blanks, comments and line ends between its parts.
-/

namespace Ability.Settings.Toml

/-- Reads from the front of a text, and gives what is left. -/
abbrev Reader (α : Type) := List Char → Option (α × List Char)

def isBlank (c : Char) : Bool := c = ' ' ∨ c = '\t'

/-- Characters that stand nowhere in a line, escaped or not at all. -/
def isControl (c : Char) : Bool := (c.toNat < 32 ∧ c ≠ '\t') ∨ c.toNat = 127

def skipBlanks (cs : List Char) : List Char := cs.dropWhile isBlank

/-- A mark of byte order at the front of a text is not part of it. -/
def dropMark : List Char → List Char
  | '\ufeff' :: r => r
  | r => r

/-- What is after a line end: a line feed, perhaps with a carriage return before it. -/
def lineEnd? : List Char → Option (List Char)
  | '\n' :: r | '\r' :: '\n' :: r => some r
  | _ => none

def skipLines : List Char → List Char
  | '\n' :: r | '\r' :: '\n' :: r => skipLines r
  | c :: r => if isBlank c then skipLines r else c :: r
  | [] => []

/-- Passes over blanks, line ends and comments; the flag tells whether a comment has begun. -/
def skipGap? : Bool → List Char → Option (List Char)
  | _, [] => some []
  | _, '\n' :: r | _, '\r' :: '\n' :: r => skipGap? false r
  | true, c :: r => if isControl c then none else skipGap? true r
  | false, c :: r =>
    if isBlank c then skipGap? false r
    else if c = '#' then skipGap? true r
    else some (c :: r)

def endComment? : List Char → Option (List Char)
  | [] => some []
  | '\n' :: r | '\r' :: '\n' :: r => some r
  | c :: r => if isControl c then none else endComment? r

/-- The lines after this one, if nothing but a comment is left of it. -/
def endLine? (cs : List Char) : Option (List Char) :=
  match skipBlanks cs with
  | [] => some []
  | '#' :: r => endComment? r
  | r => lineEnd? r

end Ability.Settings.Toml

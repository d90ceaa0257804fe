import Ability.Json.Basic
import Ability.Number.Hexadecimal

/-!
The compact text of a JSON value: no blanks, fields in the order they have, text outside ASCII as it
is.
-/

namespace Ability.Json

/-- Quotes, backslashes and control characters are escaped; all else stands for itself. -/
def escapeChar (c : Char) : List Char :=
  if c = '"' then ['\\', '"']
  else if c = '\\' then ['\\', '\\']
  else if c = '\x08' then ['\\', 'b']
  else if c = '\t' then ['\\', 't']
  else if c = '\n' then ['\\', 'n']
  else if c = '\x0c' then ['\\', 'f']
  else if c = '\r' then ['\\', 'r']
  else if c.toNat < 32 then '\\' :: 'u' :: Hexadecimal.digits 4 c.toNat
  else [c]

def writeText (s : String) : List Char := '"' :: s.toList.flatMap escapeChar ++ ['"']

mutual

def write : Json → List Char
  | null => ['n', 'u', 'l', 'l']
  | bool b => if b then ['t', 'r', 'u', 'e'] else ['f', 'a', 'l', 's', 'e']
  | number n => n.write
  | text s => writeText s
  | array items => '[' :: writeItems items ++ [']']
  | object fields => '{' :: writeFields fields ++ ['}']

def writeItems : List Json → List Char
  | [] => []
  | [v] => v.write
  | v :: r => v.write ++ ',' :: writeItems r

def writeFields : List (String × Json) → List Char
  | [] => []
  | [(k, v)] => writeText k ++ ':' :: v.write
  | (k, v) :: r => writeText k ++ ':' :: v.write ++ ',' :: writeFields r

end

def compact (v : Json) : String := String.ofList v.write

end Ability.Json

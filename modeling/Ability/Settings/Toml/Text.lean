import Ability.Number.Hexadecimal
import Ability.Settings.Toml.Line

/-!
Texts and keys of TOML. A text stands in quotes, where a backslash escapes, or between apostrophes, where
everything stands for itself; in threes of its mark it may go over several lines, whose ends are part of
it as they are written.
-/

namespace Ability.Settings.Toml

/-- The character whose code the first `n` hexadecimal digits give. -/
def readCode? (n : Nat) : Reader Char := fun cs => do
  let code ← Hexadecimal.number? (cs.take n)
  if n ≤ cs.length ∧ code.isValidChar then some (Char.ofNat code, cs.drop n) else none

def readEscape? : Reader Char
  | '"' :: r => some ('"', r)
  | '\\' :: r => some ('\\', r)
  | 'b' :: r => some ('\x08', r)
  | 't' :: r => some ('\t', r)
  | 'n' :: r => some ('\n', r)
  | 'f' :: r => some ('\x0c', r)
  | 'r' :: r => some ('\r', r)
  | 'e' :: r => some ('\x1b', r)
  | 'x' :: r => readCode? 2 r
  | 'u' :: r => readCode? 4 r
  | 'U' :: r => readCode? 8 r
  | _ => none

/-- A backslash at the end of a line joins the line to what follows, without the blanks between. -/
def joinLine? (cs : List Char) : Option (List Char) := (lineEnd? (skipBlanks cs)).map skipLines

structure Quoting where
  mark : Char
  long : Bool

def Quoting.escapes (q : Quoting) : Bool := q.mark = '"'

/-- Text after its opening marks, up to and with the closing ones; up to two marks may stand before three
that close. Each round takes a character, so `fuel` rounds are enough for that many. -/
def readMarked? (q : Quoting) : Nat → List Char → Reader String
  | 0, _, _ | _, _, [] => none
  | fuel + 1, done, c :: r =>
    if c = q.mark then
      let marks := (c :: r).takeWhile (· = q.mark)
      if ¬ q.long then some (String.ofList done.reverse, r)
      else if marks.length < 3 then readMarked? q fuel (marks ++ done) ((c :: r).drop marks.length)
      else
        let kept := min (marks.length - 3) 2
        some (String.ofList (marks.take kept ++ done).reverse, (c :: r).drop (kept + 3))
    else if c = '\\' ∧ q.escapes then
      match if q.long then joinLine? r else none with
      | some r => readMarked? q fuel done r
      | none => do
        let (c, r) ← readEscape? r
        readMarked? q fuel (c :: done) r
    else if isControl c ∧ ¬ (q.long ∧ (lineEnd? (c :: r)).isSome) then none
    else readMarked? q fuel (c :: done) r

def isMark (c : Char) : Bool := c = '"' ∨ c = '\''

def readShortText? : Reader String
  | c :: r => if isMark c then readMarked? ⟨c, false⟩ r.length [] r else none
  | [] => none

/-- A text; a line end right after three marks is not part of it. -/
def readText? : Reader String
  | a :: b :: c :: r =>
    if isMark a ∧ b = a ∧ c = a then
      readMarked? ⟨a, true⟩ r.length [] ((lineEnd? r).getD r)
    else readShortText? (a :: b :: c :: r)
  | cs => readShortText? cs

def isKeyChar (c : Char) : Bool := c.isAlphanum ∨ c = '_' ∨ c = '-'

def readKey? : Reader String := fun cs =>
  if cs.head?.any isMark then readShortText? cs
  else
    let key := cs.takeWhile isKeyChar
    if key.isEmpty then none else some (String.ofList key, cs.dropWhile isKeyChar)

/-- At most `keys` keys between dots, with the blanks after them. -/
def readDotted? : Nat → Reader (List String)
  | 0, _ => none
  | keys + 1, cs => do
    let (key, r) ← readKey? cs
    match skipBlanks r with
    | '.' :: r =>
      let (path, r) ← readDotted? keys (skipBlanks r)
      return (key :: path, r)
    | r => return ([key], r)

def maxKeys : Nat := 80

def readPath? : Reader (List String) := readDotted? maxKeys

end Ability.Settings.Toml

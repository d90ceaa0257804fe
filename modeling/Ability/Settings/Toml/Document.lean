import Ability.Settings.Layer
import Ability.Settings.Toml.Draft
import Ability.Settings.Toml.Moment
import Ability.Settings.Toml.Number
import Ability.Settings.Toml.Text

/-!
Documents in TOML: keys with values, under the headers of their tables.
-/

namespace Ability.Settings.Toml

/-- A value without marks around it. -/
def scalar? (cs : List Char) : Option Value :=
  if cs = ['t', 'r', 'u', 'e'] then some (.flag true)
  else if cs = ['f', 'a', 'l', 's', 'e'] then some (.flag false)
  else ((whole? cs).map .integer).or (((decimal? cs).map .decimal).or ((moment? cs).map .text))

def isWordEnd (c : Char) : Bool := isBlank c ∨ c = '\n' ∨ c = '\r' ∨ c = '#' ∨ c = ',' ∨ c = ']' ∨ c = '}'

/-- A word; a blank may stand between a date and a time. -/
def readWord (cs : List Char) : List Char × List Char :=
  let word := cs.takeWhile (!isWordEnd ·)
  let isDate := (readDate? word).any (·.2.isEmpty)
  match cs.dropWhile (!isWordEnd ·) with
  | ' ' :: r =>
    if isDate ∧ r.head?.any Char.isDigit then
      (word ++ ' ' :: r.takeWhile (!isWordEnd ·), r.dropWhile (!isWordEnd ·))
    else (word, ' ' :: r)
  | r => (word, r)

def readSingle? : Reader Tree := fun cs =>
  if cs.head?.any isMark then (readText? cs).map fun (s, r) => (.value (.text s), r)
  else
    let (word, r) := readWord cs
    (scalar? word).map fun v => (.value v, r)

/-- Items up to and with the closing bracket: a comma stands between two of them and may stand after the
last. Each round takes a character, so `fuel` rounds are enough for that many. -/
def readItems? {α : Type} (close : Char) (item : Reader α) : Nat → List α → Reader (List α)
  | 0, _, _ => none
  | fuel + 1, done, cs => do
    let cs ← skipGap? false cs
    if cs.head? = some close then some (done.reverse, cs.drop 1)
    else
      let (a, r) ← item cs
      match ← skipGap? false r with
      | ',' :: r => readItems? close item fuel (a :: done) r
      | c :: r => if c = close then some ((a :: done).reverse, r) else none
      | [] => none

/-- A key and the value after its equals sign, on both sides of which stands what `gap?` passes over. -/
def readBinding? (gap? : List Char → Option (List Char)) (value : Reader Tree) :
    Reader (List String × Tree) := fun cs => do
  let (path, r) ← readPath? cs
  match ← gap? r with
  | '=' :: r =>
    let (t, r) ← value (← gap? r)
    return ((path, t), r)
  | _ => none

/-- A value with at most `levels` lists and tables around one another. Between their brackets lines may
end wherever there may be blanks, but not within a key. -/
def readValue? : Nat → Reader Tree
  | 0, cs => readSingle? cs
  | levels + 1, cs =>
    match cs with
    | '[' :: r => (readItems? ']' (readValue? levels) cs.length [] r).map fun (ts, r) => (.list ts, r)
    | '{' :: r => do
      let (bindings, r) ← readItems? '}' (readBinding? (skipGap? false) (readValue? levels)) cs.length [] r
      let es ← bindings.foldlM (fun (es : Entries) b => es.bind? b.1 b.2) []
      return (.table (Node.toTrees es), r)
    | _ => readSingle? cs

def maxLevels : Nat := 80

def readStatement? (d : Draft) : Reader Draft
  | '[' :: '[' :: r => do
    let (path, r) ← readPath? (skipBlanks r)
    match r with
    | ']' :: ']' :: r => return (← d.openRow? path, r)
    | _ => none
  | '[' :: r => do
    let (path, r) ← readPath? (skipBlanks r)
    match r with
    | ']' :: r => return (← d.openTable? path, r)
    | _ => none
  | cs => do
    let ((path, t), r) ← readBinding? (some ∘ skipBlanks) (readValue? maxLevels) cs
    return (← d.bind? path t, r)

/-- All statements, each on lines of its own. Each takes a character, so `fuel` rounds are enough for
fewer than that. -/
def readStatements? : Nat → Draft → List Char → Option Draft
  | 0, _, _ => none
  | fuel + 1, d, cs => do
    let cs ← skipGap? false cs
    if cs.isEmpty then some d
    else
      let (d, r) ← readStatement? d cs
      readStatements? fuel d (← endLine? r)

/-- The layer of a document, if the document can be read. -/
def layer? (s : String) : Option Layer := do
  let cs := dropMark s.toList
  let d ← readStatements? (cs.length + 1) {} cs
  return Node.toTrees d.entries

end Ability.Settings.Toml

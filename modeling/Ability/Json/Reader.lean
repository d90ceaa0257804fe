import Ability.Table
import Ability.Json.Basic
import Ability.Number.Digits
import Ability.Number.Hexadecimal

/-!
Reading JSON text against a shape. The first fault in reading order is the answer: text that is not
JSON is malformed, a value that is JSON but not of the shape is unfit, and which of the two is reported
depends only on how far the reader has come.
-/

namespace Ability.Json

inductive Fault
  | malformed
  | unfit
deriving DecidableEq

inductive Shape
  | any
  | text
  | list (item : Shape)
  | dictionary
  | record (fields : List (String × Bool × Shape))

/-- Whether a value of the shape may begin with this bracket. -/
def Shape.opens : Shape → Char → Bool
  | .any, c => c = '[' ∨ c = '{'
  | .text, _ => false
  | .list _, c => c = '['
  | .dictionary, c => c = '{'
  | .record _, c => c = '[' ∨ c = '{'

abbrev Reader (α : Type) := List Char → Except Fault (α × List Char)

def isBlank (c : Char) : Bool := c = ' ' ∨ c = '\n' ∨ c = '\t' ∨ c = '\r'

def skipBlanks (cs : List Char) : List Char := cs.dropWhile isBlank

/-- The characters of a word, all of which must be there. -/
def readWord : List Char → List Char → Except Fault (List Char)
  | [], cs => .ok cs
  | w :: ws, c :: cs => if w = c then readWord ws cs else .error .malformed
  | _ :: _, [] => .error .malformed

structure Numeral where
  negative : Bool
  whole : List Char
  fraction : Option (List Char)
  exponent : Option (Bool × List Char)

def readFraction (cs : List Char) : Except Fault (Option (List Char) × List Char) :=
  match cs with
  | '.' :: r =>
    let ds := r.takeWhile Char.isDigit
    if ds.isEmpty then .error .malformed else .ok (some ds, r.dropWhile Char.isDigit)
  | _ => .ok (none, cs)

def readExponent (cs : List Char) : Except Fault (Option (Bool × List Char) × List Char) :=
  match cs with
  | e :: r =>
    if e = 'e' ∨ e = 'E' then
      let (negative, r) := match r with
        | '+' :: r => (false, r)
        | '-' :: r => (true, r)
        | _ => (false, r)
      let ds := r.takeWhile Char.isDigit
      if ds.isEmpty then .error .malformed
      else .ok (some (negative, ds), r.dropWhile Char.isDigit)
    else .ok (none, cs)
  | [] => .ok (none, cs)

/-- The digits before the point; a leading zero stands alone. -/
def readWhole : Reader (List Char)
  | '0' :: r =>
    match r with
    | c :: _ => if c.isDigit then .error .malformed else .ok (['0'], r)
    | [] => .ok (['0'], [])
  | cs =>
    let ds := cs.takeWhile Char.isDigit
    if ds.isEmpty then .error .malformed else .ok (ds, cs.dropWhile Char.isDigit)

def readNumeral (negative : Bool) : Reader Numeral := fun cs => do
  let (whole, cs) ← readWhole cs
  let (fraction, cs) ← readFraction cs
  let (exponent, cs) ← readExponent cs
  return (⟨negative, whole, fraction, exponent⟩, cs)

/-- A whole number stays whole between the least signed and the greatest unsigned word of 64 bits;
minus zero, a point or an exponent makes a double, and a double must be finite. -/
def Numeral.toNumber (n : Numeral) : Except Fault Number :=
  let whole := Digits.value n.whole
  let isInteger := n.fraction.isNone ∧ n.exponent.isNone
  if isInteger ∧ ¬ n.negative ∧ whole < UInt64.size then .ok (.integer whole)
  else if isInteger ∧ n.negative ∧ 0 < whole ∧ 2 * whole ≤ UInt64.size then .ok (.integer (-whole))
  else
    let places := n.fraction.getD []
    let shift : Int := match n.exponent with
      | some (true, ds) => -(Digits.value ds : Int)
      | some (false, ds) => Digits.value ds
      | none => 0
    let x := Binary64.ofDecimal n.negative (Digits.value (n.whole ++ places)) (shift - places.length)
    if x.isFinite then .ok (.decimal x) else .error .malformed

def readHex4 : List Char → Except Fault (Nat × List Char)
  | a :: b :: c :: d :: r =>
    match Hexadecimal.number? [a, b, c, d] with
    | some n => .ok (n, r)
    | none => .error .malformed
  | _ => .error .malformed

/-- The character of an escape after `\u`; a high surrogate needs its low one behind it. -/
def readUnicode (cs : List Char) : Except Fault (Char × List Char) := do
  let (n, r) ← readHex4 cs
  if 0xdc00 ≤ n ∧ n ≤ 0xdfff then .error .malformed
  else if 0xd800 ≤ n ∧ n ≤ 0xdbff then
    match r with
    | '\\' :: 'u' :: r =>
      let (m, r) ← readHex4 r
      if 0xdc00 ≤ m ∧ m ≤ 0xdfff then
        .ok (Char.ofNat (0x10000 + (n - 0xd800) * 1024 + (m - 0xdc00)), r)
      else .error .malformed
    | _ => .error .malformed
  else .ok (Char.ofNat n, r)

/-- One escape after its backslash. In text that is passed over, surrogates need no partner. -/
def readEscape (strict : Bool) : List Char → Except Fault (Char × List Char)
  | 'u' :: r => if strict then readUnicode r else (readHex4 r).map fun (_, r) => ('?', r)
  | c :: r =>
    match c with
    | '"' | '\\' | '/' => .ok (c, r)
    | 'b' => .ok ('\x08', r)
    | 'f' => .ok ('\x0c', r)
    | 'n' => .ok ('\n', r)
    | 'r' => .ok ('\r', r)
    | 't' => .ok ('\t', r)
    | _ => .error .malformed
  | [] => .error .malformed

/-- Text after its opening quote, up to and with the closing one. -/
def readChars (strict : Bool) : Nat → List Char → List Char → Except Fault (List Char × List Char)
  | 0, _, _ => .error .malformed
  | _ + 1, _, [] => .error .malformed
  | n + 1, acc, c :: r =>
    if c = '"' then .ok (acc.reverse, r)
    else if c = '\\' then do
      let (c, r) ← readEscape strict r
      readChars strict n (c :: acc) r
    else if c.toNat < 32 then .error .malformed
    else readChars strict n (c :: acc) r

def readText (strict : Bool) : Reader String := fun cs =>
  (readChars strict (cs.length + 1) [] cs).map fun (s, r) => (String.ofList s, r)

/-- The items of an array after the first, up to and with the bracket. -/
def readMoreItems (item : Reader α) : Nat → List α → Reader (List α)
  | 0, _, _ => .error .malformed
  | n + 1, acc, cs =>
    match skipBlanks cs with
    | ']' :: r => .ok (acc.reverse, r)
    | ',' :: r =>
      match skipBlanks r with
      | ']' :: _ => .error .malformed
      | r => do
        let (v, r) ← item r
        readMoreItems item n (v :: acc) r
    | _ => .error .malformed

/-- The items of an array after its opening bracket. -/
def readItems (item : Reader α) : Reader (List α) := fun cs =>
  match skipBlanks cs with
  | ']' :: r => .ok ([], r)
  | r => do
    let (v, r') ← item r
    readMoreItems item (r.length + 1) [v] r'

def readColon (cs : List Char) : Except Fault (List Char) :=
  match skipBlanks cs with
  | ':' :: r => .ok r
  | _ => .error .malformed

/-- The name of a field with its colon, and the value that `value` reads under that name. -/
def readField (strict : Bool) (value : String → Reader α) : Reader (String × α)
  | '"' :: r => do
    let (k, r) ← readText strict r
    let (v, r) ← value k r
    return ((k, v), r)
  | _ => .error .malformed

def readMoreFields (strict : Bool) (value : List (String × α) → String → Reader α) :
    Nat → List (String × α) → Reader (List (String × α))
  | 0, _, _ => .error .malformed
  | n + 1, acc, cs =>
    match skipBlanks cs with
    | '}' :: r => .ok (acc.reverse, r)
    | ',' :: r => do
      let (e, r) ← readField strict (value acc) (skipBlanks r)
      readMoreFields strict value n (e :: acc) r
    | _ => .error .malformed

/-- The fields of an object after its opening brace, in reading order; `value` sees the fields before
it, the latest first, and reads the colon too. -/
def readFields (strict : Bool) (value : List (String × α) → String → Reader α) :
    Reader (List (String × α)) := fun cs =>
  match skipBlanks cs with
  | '}' :: r => .ok ([], r)
  | r => do
    let (e, r') ← readField strict (value []) r
    readMoreFields strict value (r.length + 1) [e] r'

/-- An object from fields in reading order, where a later one of a name replaces an earlier one. -/
def ofFields (fields : List (String × Json)) : Json := object (Table.ofList fields).entries

/-- A value without parts, or the refusal of what cannot begin one. -/
def readScalar (strict : Bool) : Reader Json
  | 'n' :: r => (readWord ['u', 'l', 'l'] r).map (null, ·)
  | 't' :: r => (readWord ['r', 'u', 'e'] r).map (bool true, ·)
  | 'f' :: r => (readWord ['a', 'l', 's', 'e'] r).map (bool false, ·)
  | '"' :: r => (readText strict r).map fun (s, r) => (text s, r)
  | '-' :: r => do
    let (n, r) ← readNumeral true r
    if strict then return (number (← n.toNumber), r) else return (null, r)
  | r => do
    let (n, r) ← readNumeral false r
    if strict then return (number (← n.toNumber), r) else return (null, r)

/-- Any value with at most `levels` arrays and objects around one another. A reader that is not strict
passes over text: it decodes no number and no surrogate. -/
def readAny (strict : Bool) : Nat → Reader Json
  | 0, cs =>
    match skipBlanks cs with
    | '[' :: _ | '{' :: _ => .error .malformed
    | r => readScalar strict r
  | levels + 1, cs =>
    match skipBlanks cs with
    | '[' :: r => (readItems (readAny strict levels) r).map fun (vs, r) => (array vs, r)
    | '{' :: r => do
      let (fields, r) ← readFields strict (fun _ _ cs => do readAny strict levels (← readColon cs)) r
      return (ofFields fields, r)
    | r => readScalar strict r

/-- The answer to a value of a wrong kind: a scalar is still read to its end. -/
def refuse (cs : List Char) : Fault :=
  match cs with
  | '[' :: _ | '{' :: _ => .unfit
  | _ =>
    match readScalar true cs with
    | .ok _ => .unfit
    | .error e => e

/-- A record given as an array: the values stand in field order, and optional fields at the end may be
missing. -/
def readPositions (read : Shape → Reader Json) :
    Bool → List (String × Bool × Shape) → List (String × Json) → Reader Json
  | _, [], acc, cs =>
    match skipBlanks cs with
    | ']' :: r => .ok (ofFields acc.reverse, r)
    | _ => .error .malformed
  | first, (k, required, shape) :: fields, acc, cs =>
    match skipBlanks cs with
    | ']' :: r =>
      if required ∨ fields.any (·.2.1) then .error .unfit else .ok (ofFields acc.reverse, r)
    | r => do
      let r ← if first then .ok r else
        match r with
        | ',' :: r =>
          match skipBlanks r with
          | ']' :: _ => .error .malformed
          | r => .ok r
        | _ => .error .malformed
      let (v, r) ← read shape r
      readPositions read false fields ((k, v) :: acc) r

/-- The value of one field of a record given as an object. A field that occurs again is unfit at its
name; a field that is not the record's is passed over, to any depth. -/
def readMember (read : Shape → Reader Json) (fields : List (String × Bool × Shape))
    (before : List (String × Json)) (k : String) : Reader Json := fun cs =>
  match fields.find? (·.1 = k) with
  | some (_, _, shape) =>
    if before.any (·.1 = k) then .error .unfit else do read shape (← readColon cs)
  | none => do readAny false cs.length (← readColon cs)

/-- The fields of a record that are there; the required ones must be. -/
def checkMembers (fields : List (String × Bool × Shape)) (found : List (String × Json)) :
    Except Fault Json :=
  if fields.all fun (k, required, _) => !required || found.any (·.1 = k) then
    .ok (ofFields (found.filter fun e => fields.any (·.1 = e.1)))
  else .error .unfit

/-- A value of a shape with at most `levels` arrays and objects around one another. -/
def readShape : Nat → Shape → Reader Json
  | levels, .any, cs => readAny true levels cs
  | _, .text, cs =>
    match skipBlanks cs with
    | '"' :: r => (readText true r).map fun (s, r) => (text s, r)
    | r => .error (refuse r)
  | 0, shape, cs =>
    let r := skipBlanks cs
    .error (if r.head?.any shape.opens then .malformed else refuse r)
  | levels + 1, .list item, cs =>
    match skipBlanks cs with
    | '[' :: r => (readItems (readShape levels item) r).map fun (vs, r) => (array vs, r)
    | r => .error (refuse r)
  | levels + 1, .dictionary, cs =>
    match skipBlanks cs with
    | '{' :: r => do
      let (fields, r) ← readFields true (fun _ _ cs => do readAny true levels (← readColon cs)) r
      return (ofFields fields, r)
    | r => .error (refuse r)
  | levels + 1, .record fields, cs =>
    match skipBlanks cs with
    | '[' :: r => readPositions (readShape levels) true fields [] r
    | '{' :: r => do
      let (found, r) ← readFields true (readMember (readShape levels) fields) r
      return (← checkMembers fields found, r)
    | r => .error (refuse r)

def maxLevels : Nat := 127

/-- A whole document of a shape, with nothing but blanks behind it. -/
def readDocument (shape : Shape) (s : String) : Except Fault Json := do
  let (v, r) ← readShape maxLevels shape s.toList
  if (skipBlanks r).isEmpty then return v else .error .malformed

def parse (s : String) : Except Fault Json := readDocument .any s

end Ability.Json

import Ability.Json.Basic
import Ability.Number.Digits

/-! Values of settings, which stand for one another where that makes sense. -/

namespace Ability.Settings

inductive Value
  | flag (value : Bool)
  | integer (value : Int)
  | decimal (value : Float)
  | text (value : String)

def lowercase (s : String) : String := String.ofList (s.toList.map Char.toLower)

def readInteger? (s : String) : Option Int :=
  let digits? (ds : List Char) : Option Nat :=
    if ds ≠ [] ∧ ds.all Char.isDigit then some (Digits.value ds) else none
  match s.toList with
  | '+' :: r => (digits? r).map fun n => (n : Int)
  | '-' :: r => (digits? r).map fun n => -(n : Int)
  | r => (digits? r).map fun n => (n : Int)

/-- An unsigned decimal numeral, with a digit before or after the point. -/
def readUnsigned? (negative : Bool) (cs : List Char) : Option Float :=
  let whole := cs.takeWhile Char.isDigit
  let r := cs.dropWhile Char.isDigit
  let places := match r with
    | '.' :: r => r.takeWhile Char.isDigit
    | _ => []
  let r := match r with
    | '.' :: r => r.dropWhile Char.isDigit
    | _ => r
  let exponent? : Option Int := match r with
    | [] => some 0
    | c :: r => if c = 'e' ∨ c = 'E' then readInteger? (String.ofList r) else none
  if whole.isEmpty ∧ places.isEmpty then none
  else exponent?.map fun e =>
    Binary64.ofDecimal negative (Digits.value (whole ++ places)) (e - places.length)

/-- A decimal numeral, or the name of infinity or of no number, perhaps after a sign. -/
def readDecimal? (s : String) : Option Float :=
  let (negative, cs) := match s.toList with
    | '+' :: r => (false, r)
    | '-' :: r => (true, r)
    | r => (false, r)
  let word := lowercase (String.ofList cs)
  if word = "inf" ∨ word = "infinity" then some (if negative then -(1.0 / 0.0) else 1.0 / 0.0)
  else if word = "nan" then some (0.0 / 0.0)
  else readUnsigned? negative cs

/-- The value that a text most likely means: a truth value, a whole number of 64 bits, a number, or
itself. -/
def Value.ofText (s : String) : Value :=
  let word := lowercase s
  if word = "true" then .flag true
  else if word = "false" then .flag false
  else
    match readInteger? s with
    | some i =>
      if Int64.minValue.toInt ≤ i ∧ i ≤ Int64.maxValue.toInt then .integer i
      else match readDecimal? s with
        | some x => .decimal x
        | none => .text s
    | none =>
      match readDecimal? s with
      | some x => .decimal x
      | none => .text s

def Value.toText : Value → String
  | flag b => if b then "true" else "false"
  | integer i => String.ofList (Number.integer i).write
  | decimal x => Binary64.Layout.plain.text x
  | text s => s

def Value.toFlag? : Value → Option Bool
  | flag b => some b
  | integer i => some (i ≠ 0)
  | decimal x => some (x != 0.0)
  | text s =>
    let word := lowercase s
    if word = "1" ∨ word = "true" ∨ word = "on" ∨ word = "yes" then some true
    else if word = "0" ∨ word = "false" ∨ word = "off" ∨ word = "no" then some false
    else none

/-- A count of 64 bits. Fractions are rounded away from the half, and what is out of range is brought
to the nearest end. -/
def roundToCount (x : Float) : Nat :=
  match Binary64.parts x with
  | .nan | .infinite true | .finite true .. => 0
  | .infinite false => UInt64.size - 1
  | .finite false m q =>
    let den := 2 * Binary64.exp2 (-q).toNat
    min (UInt64.size - 1) ((2 * m * Binary64.exp2 q.toNat + Binary64.exp2 (-q).toNat) / den)

def Value.toCount? : Value → Option Nat
  | flag b => some b.toNat
  | integer i => if 0 ≤ i then some i.toNat else none
  | decimal x => some (roundToCount x)
  | text s =>
    let word := lowercase s
    if word = "true" ∨ word = "on" ∨ word = "yes" then some 1
    else if word = "false" ∨ word = "off" ∨ word = "no" then some 0
    else if s.startsWith "-" then none
    else match readInteger? s with
      | some i => if i.toNat < UInt64.size then some i.toNat else none
      | none => none

end Ability.Settings

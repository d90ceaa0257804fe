import Ability.Number.Hexadecimal
import Ability.Settings.Value

/-!
Numbers of TOML. An underscore may stand between two digits, a number in decimal digits has no zero to
spare before its point, and a whole number has 64 bits with a sign.
-/

namespace Ability.Settings.Toml

/-- Digits in groups, without the underscores; the flag tells whether a digit is just before. -/
def ungroup? (isDigit : Char → Bool) : Bool → List Char → Option (List Char)
  | true, [] => some []
  | false, [] => none
  | afterDigit, c :: r =>
    if isDigit c then (ungroup? isDigit true r).map (c :: ·)
    else if c = '_' ∧ afterDigit then ungroup? isDigit false r
    else none

def readSign : List Char → Bool × List Char
  | '+' :: r => (false, r)
  | '-' :: r => (true, r)
  | r => (false, r)

/-- The digits before a point; a zero at the front stands alone. -/
def wholeDigits? (cs : List Char) : Option (List Char) := do
  let ds ← ungroup? Char.isDigit false cs
  if ds.length > 1 ∧ ds.head? = some '0' then none else some ds

/-- The digits after a mark for another base than ten. -/
def radix? : List Char → Option (Nat × List Char)
  | '0' :: 'x' :: r => some (16, r)
  | '0' :: 'o' :: r => some (8, r)
  | '0' :: 'b' :: r => some (2, r)
  | _ => none

def isDigitOf (radix : Nat) (c : Char) : Bool := (Hexadecimal.value? c).any (· < radix)

def valueOf (radix : Nat) (ds : List Char) : Nat :=
  ds.foldl (fun n c => radix * n + (Hexadecimal.value? c).getD 0) 0

def whole? (cs : List Char) : Option Int := do
  let i : Int ← match radix? cs with
    | some (radix, r) => (ungroup? (isDigitOf radix) false r).map (valueOf radix ·)
    | none =>
      let (negative, r) := readSign cs
      (wholeDigits? r).map fun ds => if negative then -(Digits.value ds : Int) else Digits.value ds
  if Int64.minValue.toInt ≤ i ∧ i ≤ Int64.maxValue.toInt then some i else none

def isGrouped (c : Char) : Bool := c.isDigit ∨ c = '_'

def readPlaces? : List Char → Option (Option (List Char) × List Char)
  | '.' :: r => (ungroup? Char.isDigit false (r.takeWhile isGrouped)).map (some ·, r.dropWhile isGrouped)
  | r => some (none, r)

def exponent? : List Char → Option Int
  | c :: r =>
    let (negative, ds) := readSign r
    if c = 'e' ∨ c = 'E' then
      (ungroup? Char.isDigit false ds).map fun ds =>
        if negative then -(Digits.value ds : Int) else Digits.value ds
    else none
  | [] => some 0

/-- A number with a point or an exponent, or the name of infinity or of no number. It is finite unless
it is named otherwise. -/
def decimal? (cs : List Char) : Option Float := do
  let (negative, cs) := readSign cs
  if cs = ['i', 'n', 'f'] then some (if negative then -(1.0 / 0.0) else 1.0 / 0.0)
  else if cs = ['n', 'a', 'n'] then some (0.0 / 0.0)
  else
    let whole ← wholeDigits? (cs.takeWhile isGrouped)
    let (places, r) ← readPlaces? (cs.dropWhile isGrouped)
    if places.isNone ∧ r.isEmpty then none
    else
      let places := places.getD []
      let x := Binary64.ofDecimal negative (Digits.value (whole ++ places))
        ((← exponent? r) - places.length)
      if x.isFinite then some x else none

end Ability.Settings.Toml

import Ability.Number.Digits
import Ability.Settings.Toml.Line

/-!
Dates and times of TOML. They are read as the text in which they are written out: a `T` between date and
time, `Z` for no offset, and at most nine digits of a second without zeros to spare.
-/

namespace Ability.Settings.Toml

/-- As many digits as `n`, for a number between two bounds. -/
def readDigits? (n low high : Nat) : Reader (List Char) := fun cs =>
  let ds := cs.take n
  if ds.length = n ∧ ds.all Char.isDigit ∧ low ≤ Digits.value ds ∧ Digits.value ds ≤ high then
    some (ds, cs.drop n)
  else none

def readMarkedDigits? (mark : Char) (low high : Nat) : Reader (List Char)
  | c :: r => if c = mark then readDigits? 2 low high r else none
  | [] => none

def isLeap (year : Nat) : Bool := year % 4 = 0 ∧ (year % 100 ≠ 0 ∨ year % 400 = 0)

def daysIn (year month : Nat) : Nat :=
  if month = 2 then if isLeap year then 29 else 28
  else if [4, 6, 9, 11].contains month then 30
  else 31

def readDate? : Reader (List Char) := fun cs => do
  let (year, r) ← readDigits? 4 0 9999 cs
  let (month, r) ← readMarkedDigits? '-' 1 12 r
  let (day, r) ← readMarkedDigits? '-' 1 (daysIn (Digits.value year) (Digits.value month)) r
  return (year ++ '-' :: month ++ '-' :: day, r)

def readFraction? : Reader (List Char) := fun cs =>
  let ds := cs.takeWhile Char.isDigit
  let kept := ((ds.take 9).reverse.dropWhile (· = '0')).reverse
  if ds.isEmpty then none
  else some ('.' :: if kept.isEmpty then ['0'] else kept, cs.dropWhile Char.isDigit)

/-- A time of day. Seconds may be left out; a minute may have one more than sixty. -/
def readTime? : Reader (List Char) := fun cs => do
  let (hour, r) ← readDigits? 2 0 23 cs
  let (minute, r) ← readMarkedDigits? ':' 0 59 r
  let time := hour ++ ':' :: minute
  match r with
  | ':' :: _ =>
    let (second, r) ← readMarkedDigits? ':' 0 60 r
    let time := time ++ ':' :: second
    match r with
    | '.' :: r =>
      let (fraction, r) ← readFraction? r
      return (time ++ fraction, r)
    | _ => return (time, r)
  | _ => return (time, r)

/-- The offset of a time, which is all that is left; none at all is a local time. -/
def offset? : List Char → Option (List Char)
  | [] => some []
  | sign :: r =>
    if sign = 'Z' ∨ sign = 'z' then if r.isEmpty then some ['Z'] else none
    else if sign = '+' ∨ sign = '-' then do
      let (hour, r) ← readDigits? 2 0 23 r
      let (minute, r) ← readMarkedDigits? ':' 0 59 r
      let sign := if Digits.value (hour ++ minute) = 0 then '+' else sign
      if r.isEmpty then some (sign :: hour ++ ':' :: minute) else none
    else none

/-- A date, a time, or both with or without an offset. -/
def moment? (cs : List Char) : Option String :=
  String.ofList <$>
    match readDate? cs with
    | some (date, []) => some date
    | some (date, mark :: r) =>
      if mark = 'T' ∨ mark = 't' ∨ mark = ' ' then do
        let (time, r) ← readTime? r
        return date ++ 'T' :: time ++ (← offset? r)
      else none
    | none =>
      match readTime? cs with
      | some (time, []) => some time
      | _ => none

end Ability.Settings.Toml

import Ability.Number.Binary64

/-!
The decimal text of a double: the fewest digits that read back as the same double, the nearest of those
to its value, and three ways of writing them down.
-/

namespace Ability.Binary64

/-- The number `digits · 10 ^ exponent`. -/
structure Decimal where
  digits : Nat
  exponent : Int
deriving DecidableEq

/-- The reals that round to one double, over a common denominator. -/
structure Interval where
  low : Nat
  value : Nat
  high : Nat
  den : Nat
  closed : Bool

/-- The interval of `m · 2 ^ q`, in quarters of its unit; below a power of two it is half as wide. -/
def Interval.of (m : Nat) (q : Int) : Interval :=
  let low := if m = leadingBit ∧ -1074 < q then 4 * m - 1 else 4 * m - 2
  let num := exp2 (q - 2).toNat
  ⟨low * num, 4 * m * num, (4 * m + 2) * num, exp2 (2 - q).toNat, m % 2 = 0⟩

def Interval.holds (i : Interval) (d : Nat) (e : Int) : Bool :=
  let x := d * exp10 e.toNat * i.den
  let s := exp10 (-e).toNat
  if i.closed then i.low * s ≤ x ∧ x ≤ i.high * s else i.low * s < x ∧ x < i.high * s

/-- The distance of `d · 10 ^ e` to the value, times a factor that depends on `e` alone. -/
def Interval.distance (i : Interval) (d : Nat) (e : Int) : Nat :=
  let x := d * exp10 e.toNat * i.den
  let v := i.value * exp10 (-e).toNat
  (x - v) + (v - x)

/-- Which of two decimals stands for the value just between them: the one with an even last digit, or
the greater one. -/
inductive Tie
  | even
  | up
deriving DecidableEq

/-- The value's two neighbours on the grid of multiples of `10 ^ e`: the one in the interval, or the
nearer of two. -/
def Interval.onGrid? (tie : Tie) (i : Interval) (e : Int) : Option Nat :=
  let d := i.value * exp10 (-e).toNat / (i.den * exp10 e.toNat)
  match i.holds d e, i.holds (d + 1) e with
  | true, true =>
    let below := i.distance d e
    let above := i.distance (d + 1) e
    some (if below < above ∨ (below = above ∧ tie = .even ∧ d % 2 = 0) then d else d + 1)
  | true, false => some d
  | false, true => some (d + 1)
  | false, false => none

def decimalLength (n : Nat) : Nat := (Nat.toDigits 10 n).length

/-- The position of the decimal point: the least `p` with value `< 10 ^ p`. -/
def Interval.point (i : Interval) : Int :=
  if i.den ≤ i.value then decimalLength (i.value / i.den)
  else
    match (List.range 400).find? fun k => i.den ≤ i.value * exp10 (k + 1) with
    | some k => -(k : Int)
    | none => 0

def stripZeros : Nat → Decimal → Decimal
  | 0, d => d
  | n + 1, d =>
    if d.digits ≠ 0 ∧ d.digits % 10 = 0 then stripZeros n ⟨d.digits / 10, d.exponent + 1⟩ else d

/-- The shortest decimal that rounds to `m · 2 ^ q`, for `m` not zero. -/
def shortest (tie : Tie) (m : Nat) (q : Int) : Decimal :=
  let i := Interval.of m q
  let p := i.point
  match (List.range 17).findSome? fun (k : Nat) =>
    (i.onGrid? tie (p - (k + 1))).map (⟨·, p - (k + 1)⟩) with
  | some d => stripZeros 20 d
  | none => ⟨m, q⟩

/-- How a double is written: which way a tie goes, which positions of the point need no exponent, whether
a whole number shows a zero after the point, and whether a positive exponent shows its sign. -/
structure Layout where
  tie : Tie
  positional : Int → Bool
  wholeMark : Bool
  plus : Bool

/-- The full positional form; whole numbers have no point. -/
def Layout.plain : Layout := ⟨.up, fun _ => true, false, false⟩

/-- Positional from `1e-4` up to below `1e16`. -/
def Layout.diagnostic : Layout := ⟨.up, fun p => -3 ≤ p ∧ p ≤ 16, true, false⟩

/-- Positional from `1e-5` up to below `1e16`; a positive exponent has a sign, and a tie goes to the even
digit. -/
def Layout.document : Layout := ⟨.even, fun p => -4 ≤ p ∧ p ≤ 16, true, true⟩

def Layout.positionalText (l : Layout) (ds : List Char) (p : Int) : List Char :=
  if p ≤ 0 then '0' :: '.' :: List.replicate (-p).toNat '0' ++ ds
  else if (ds.length : Int) ≤ p then
    ds ++ List.replicate (p - ds.length).toNat '0' ++ (if l.wholeMark then ['.', '0'] else [])
  else ds.take p.toNat ++ '.' :: ds.drop p.toNat

def Layout.exponentText (l : Layout) (ds : List Char) (p : Int) : List Char :=
  let e := p - 1
  ds.take 1 ++ (if ds.length ≤ 1 then [] else '.' :: ds.drop 1) ++ 'e' ::
    (if e < 0 then ['-'] else if l.plus then ['+'] else []) ++ Nat.toDigits 10 e.natAbs

def Layout.write (l : Layout) (x : Float) : List Char :=
  match parts x with
  | .nan => ['N', 'a', 'N']
  | .infinite s => (if s then ['-'] else []) ++ ['i', 'n', 'f']
  | .finite s m q =>
    (if s then ['-'] else []) ++
      if m = 0 then '0' :: (if l.wholeMark then ['.', '0'] else [])
      else
        let d := shortest l.tie m q
        let ds := Nat.toDigits 10 d.digits
        let p := ds.length + d.exponent
        if l.positional p then l.positionalText ds p else l.exponentText ds p

def Layout.text (l : Layout) (x : Float) : String := String.ofList (l.write x)

end Ability.Binary64

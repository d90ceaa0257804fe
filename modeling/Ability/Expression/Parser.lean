import Ability.Expression.Token
import Ability.Number.Power

/-!
Reading and valuing a token list in one pass. From the loosest to the tightest: `||`, `&&`, one
comparison, sums, products, signs, powers. Every sign, parenthesis and exponent passes through `unary`,
whose budget bounds how deep they nest.
-/

namespace Ability.Expression

/-- Reads a value off the front of a token list. -/
abbrev Parser := List Token → Except Fault (Float × List Token)

def truthy (x : Float) : Bool := x != 0.0

def ofBool (b : Bool) : Float := if b then 1.0 else 0.0

/-- Numbers closer than this count as equal. -/
def tolerance : Float := Float.ofBits 0x3cb0000000000000

def Operator.apply : Operator → Float → Float → Except Fault Float
  | or, x, y => .ok (ofBool (truthy x || truthy y))
  | and, x, y => .ok (ofBool (truthy x && truthy y))
  | eq, x, y => .ok (ofBool (decide ((x - y).abs < tolerance)))
  | ne, x, y => .ok (ofBool (decide (tolerance ≤ (x - y).abs)))
  | le, x, y => .ok (ofBool (decide (x ≤ y)))
  | ge, x, y => .ok (ofBool (decide (y ≤ x)))
  | lt, x, y => .ok (ofBool (decide (x < y)))
  | gt, x, y => .ok (ofBool (decide (y < x)))
  | add, x, y => .ok (x + y)
  | sub, x, y => .ok (x - y)
  | mul, x, y => .ok (x * y)
  | div, x, y => if y == 0.0 then .error .divisionByZero else .ok (x / y)
  | mod, x, y => if y == 0.0 then .error .divisionByZero else .ok (Binary64.remainder x y)
  | pow, x, y => .ok (Binary64.power x y)
  | not, x, _ => .ok x

def Operator.isSum (o : Operator) : Bool := o = add ∨ o = sub

def Operator.isProduct (o : Operator) : Bool := o = mul ∨ o = div ∨ o = mod

def Operator.isComparison (o : Operator) : Bool :=
  o = eq ∨ o = ne ∨ o = le ∨ o = ge ∨ o = lt ∨ o = gt

/-- Operands joined by operators of one level, from the left. Each round takes an operator, so `fuel`
rounds are enough for that many tokens. -/
def joinMore (level : Operator → Bool) (operand : Parser) : Nat → Float → Parser
  | 0, x, ts => .ok (x, ts)
  | fuel + 1, x, ts =>
    match ts with
    | .op o :: r =>
      if level o then do
        let (y, r) ← operand r
        joinMore level operand fuel (← o.apply x y) r
      else .ok (x, ts)
    | _ => .ok (x, ts)

def join (level : Operator → Bool) (operand : Parser) : Parser := fun ts => do
  let (x, r) ← operand ts
  joinMore level operand r.length x r

/-- At most one comparison: its result is not compared again. -/
def comparison (operand : Parser) : Parser := fun ts => do
  let (x, r) ← operand ts
  match r with
  | .op o :: r' =>
    if o.isComparison then do
      let (y, r') ← operand r'
      return (← o.apply x y, r')
    else return (x, r)
  | _ => return (x, r)

/-- Everything above the signs. -/
def disjunction (unary : Parser) : Parser :=
  join (· = .or) <| join (· = .and) <| comparison <| join (·.isSum) <| join (·.isProduct) unary

def primary (unary : Parser) : Parser
  | .number x :: r => .ok (x, r)
  | .lparen :: r => do
    let (x, r) ← disjunction unary r
    match r with
    | .rparen :: r => return (x, r)
    | _ => throw .unclosed
  | t :: _ => .error (.unexpected t)
  | [] => .error .unfinished

/-- A primary with at most one exponent, which may itself have a sign and an exponent. -/
def power (unary : Parser) : Parser := fun ts => do
  let (x, r) ← primary unary ts
  match r with
  | .op .pow :: r => do
    let (y, r) ← unary r
    return (← Operator.pow.apply x y, r)
  | _ => return (x, r)

/-- A value with its signs, nested at most `budget` deep. -/
def unary : Nat → Parser
  | 0, _ => .error .tooDeep
  | budget + 1, .op .sub :: r => do
    let (x, r) ← unary budget r
    return (-x, r)
  | budget + 1, .op .not :: r => do
    let (x, r) ← unary budget r
    return (ofBool !(truthy x), r)
  | budget + 1, ts => power (unary budget) ts

def maxNesting : Nat := 128

def valueOf (ts : List Token) : Except Fault Float :=
  if ts.isEmpty then .error .empty
  else do
    let (x, r) ← disjunction (unary maxNesting) ts
    match r with
    | [] => return x
    | t :: _ => throw (.surplus t)

end Ability.Expression

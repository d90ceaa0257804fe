import Ability.Number.Binary64

/-!
Powers of doubles. With a small whole exponent a power that is a double is that double; every other
power is the platform's.
-/

namespace Ability.Binary64

/-- The value of a double that is a whole number from zero up to below 64. -/
def smallWhole? (y : Float) : Option Nat :=
  match parts y with
  | .finite negative m q =>
    let num := m * exp2 q.toNat
    let den := exp2 (-q).toNat
    if (m = 0 ∨ ¬ negative) ∧ num % den = 0 ∧ num / den < 64 then some (num / den) else none
  | _ => none

def hasMagnitude (x : Float) (m : Nat) (q : Int) : Bool :=
  match parts x with
  | .finite _ m' q' => m' * exp2 (q' - min q q').toNat = m * exp2 (q - min q q').toNat
  | _ => false

def exactPower? (x y : Float) : Option Float :=
  match parts x, smallWhole? y with
  | .finite negative m q, some n =>
    let e := q * n
    let r := nearest (negative && n % 2 = 1) (Nat.pow m n * exp2 e.toNat) (exp2 (-e).toNat)
    if hasMagnitude r (Nat.pow m n) e then some r else none
  | _, _ => none

def power (x y : Float) : Float := (exactPower? x y).getD (x.pow y)

end Ability.Binary64

/-!
Doubles as exact numbers `m · 2 ^ q`: taking them apart, rounding a quotient to the nearest one, and
the exact remainder of a division.
-/

namespace Ability.Binary64

def exp2 (n : Nat) : Nat := Nat.pow 2 n

def exp10 (n : Nat) : Nat := Nat.pow 10 n

/-- The fraction of a double has 52 bits; this one stands above them. -/
def leadingBit : Nat := 0x10000000000000

def signBit : Nat := 0x8000000000000000

/-- What a double stands for; `negative` is the sign bit. -/
inductive Parts
  | nan
  | infinite (negative : Bool)
  | finite (negative : Bool) (m : Nat) (q : Int)

def parts (x : Float) : Parts :=
  let bits : Nat := x.toBits.toNat
  let negative := signBit ≤ bits
  let exponent : Nat := bits / leadingBit % 2048
  let fraction := bits % leadingBit
  if exponent = 2047 then if fraction = 0 then .infinite negative else .nan
  else if exponent = 0 then .finite negative fraction (-1074)
  else .finite negative (leadingBit + fraction) ((exponent : Int) - 1075)

/-- Rounds `num / den` to the nearest whole number, a half going to the even neighbour. -/
def roundDiv (num den : Nat) : Nat :=
  let d := num / den
  let r := 2 * (num % den)
  if r < den ∨ (r = den ∧ d % 2 = 0) then d else d + 1

/-- The exponent of the unit in which `num / den` has at most 53 binary digits. -/
def unitExponent (num den : Nat) : Int :=
  let l : Int := (num.log2 : Int) - den.log2
  let atLeast := if 0 ≤ l then den * exp2 l.toNat ≤ num else den ≤ num * exp2 (-l).toNat
  max (-1074) ((if atLeast then l else l - 1) - 52)

/-- The bit pattern of the double nearest to `num / den`, ties to even; what is too large becomes
infinite. -/
def nearestBits (num den : Nat) : Nat :=
  if num = 0 then 0
  else
    let q := unitExponent num den
    let m := if 0 ≤ q then roundDiv num (den * exp2 q.toNat) else roundDiv (num * exp2 (-q).toNat) den
    min ((q + 1074).toNat * leadingBit + m) (2047 * leadingBit)

def nearest (negative : Bool) (num den : Nat) : Float :=
  Float.ofBits (UInt64.ofNat ((if negative then signBit else 0) + nearestBits num den))

/-- The double nearest to `digits · 10 ^ exponent`. Exponents far outside of its range are not worked
out. -/
def ofDecimal (negative : Bool) (digits : Nat) (exponent : Int) : Float :=
  if digits = 0 ∨ digits.log2 + exponent < -400 then nearest negative 0 1
  else if exponent > 400 then nearest negative (exp2 1024) 1
  else if 0 ≤ exponent then nearest negative (digits * exp10 exponent.toNat) 1
  else nearest negative digits (exp10 (-exponent).toNat)

def ofInt (i : Int) : Float := nearest (i < 0) i.natAbs 1

def isNegative (x : Float) : Bool := decide (signBit ≤ x.toBits.toNat)

/-- The remainder of dividing `x` by `y` toward zero, which is exact and has the sign of `x`. -/
def remainder (x y : Float) : Float :=
  match parts x, parts y with
  | .finite s m p, .finite _ n q =>
    if n = 0 then 0.0 / 0.0
    else
      let u := min p q
      let r := (m * exp2 (p - u).toNat) % (n * exp2 (q - u).toNat)
      if 0 ≤ u then nearest s (r * exp2 u.toNat) 1 else nearest s r (exp2 (-u).toNat)
  | .finite .., .infinite _ => x
  | _, _ => 0.0 / 0.0

end Ability.Binary64

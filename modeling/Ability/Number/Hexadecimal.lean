/-! Hexadecimal digits: written in lower case, read in either. -/

namespace Ability.Hexadecimal

def digit (n : Nat) : Char := if n < 10 then Char.ofNat (48 + n) else Char.ofNat (87 + n)

def value? (c : Char) : Option Nat :=
  if '0' ≤ c ∧ c ≤ '9' then some (c.toNat - 48)
  else if 'a' ≤ c ∧ c ≤ 'f' then some (c.toNat - 87)
  else if 'A' ≤ c ∧ c ≤ 'F' then some (c.toNat - 55)
  else none

def digits : Nat → Nat → List Char
  | 0, _ => []
  | n + 1, v => digits n (v / 16) ++ [digit (v % 16)]

def number? (ds : List Char) : Option Nat :=
  ds.foldlM (fun n c => (value? c).map (16 * n + ·)) 0

theorem value?_digit : ∀ n < 16, value? (digit n) = some n := by decide

theorem number?_append (ds : List Char) (d : Char) :
    number? (ds ++ [d]) = (number? ds).bind fun n => (value? d).map (16 * n + ·) := by
  simp [number?, List.foldlM_append]

/-- The low digits of a number read back as the number, if they are all of it. -/
theorem number?_digits (n v : Nat) : number? (digits n v) = some (v % Nat.pow 16 n) := by
  induction n generalizing v with
  | zero => simp [digits, number?, Nat.mod_one]
  | succ n ih =>
    have h := Nat.mod_mul (x := v) (a := 16) (b := Nat.pow 16 n)
    have hp : Nat.pow 16 (n + 1) = 16 * Nat.pow 16 n := Nat.mul_comm ..
    rw [digits, number?_append, ih, hp, h]
    simp [value?_digit _ (Nat.mod_lt v (by decide)), Nat.add_comm]

end Ability.Hexadecimal

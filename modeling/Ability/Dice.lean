/-! Random draws: a fixed stream of words, and how many of them have been taken. -/

namespace Ability

structure Dice where
  words : Nat → UInt64
  taken : Nat

namespace Dice

def scramble (x : UInt64) : UInt64 :=
  let x := (x ^^^ (x >>> 30)) * 0xbf58476d1ce4e5b9
  let x := (x ^^^ (x >>> 27)) * 0x94d049bb133111eb
  x ^^^ (x >>> 31)

def ofSeed (seed : UInt64) : Dice :=
  ⟨fun i => scramble (seed + UInt64.ofNat (i + 1) * 0x9e3779b97f4a7c15), 0⟩

def word : StateM Dice UInt64 := fun d => (d.words d.taken, { d with taken := d.taken + 1 })

def fraction : StateM Dice Float := do
  let w ← word
  return (w >>> 11).toFloat * Float.ofBits 0x3ca0000000000000

def below (n : Nat) : StateM Dice Nat := do
  let w ← word
  return w.toNat % n

end Dice

end Ability

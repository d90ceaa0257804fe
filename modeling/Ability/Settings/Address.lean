import Ability.Settings.Tree

/-!
Addresses in a tree of settings: keys between dots, and positions in brackets, which count from the end
if they are negative.
-/

namespace Ability.Settings

inductive Step
  | key (name : String)
  | index (position : Int)

abbrev Address := List Step

namespace Address

def isKeyChar (c : Char) : Bool := c.isAlphanum ∨ c = '_' ∨ c = '-'

def isBlank (c : Char) : Bool := c = ' ' ∨ c = '\t'

def readKey? (cs : List Char) : Option (Step × List Char) :=
  let name := cs.takeWhile isKeyChar
  if name.isEmpty then none else some (.key (String.ofList name), cs.dropWhile isKeyChar)

/-- A position after its opening bracket, a word of 64 bits with a sign. -/
def readIndex? (cs : List Char) : Option (Step × List Char) :=
  let (negative, cs) := match cs.dropWhile isBlank with
    | '-' :: r => (true, r)
    | r => (false, r)
  let ds := cs.takeWhile Char.isDigit
  let i : Int := if negative then -(Digits.value ds : Int) else Digits.value ds
  match (cs.dropWhile Char.isDigit).dropWhile isBlank with
  | ']' :: r =>
    if ds.isEmpty ∨ i < Int64.minValue.toInt ∨ Int64.maxValue.toInt < i then none
    else some (.index i, r)
  | _ => none

/-- The steps after the first key. Each takes a character, so `fuel` rounds are enough for that many. -/
def readSteps? : Nat → List Char → Option Address
  | _, [] => some []
  | 0, _ => none
  | fuel + 1, c :: r => do
    let (s, r) ← if c = '.' then readKey? r else if c = '[' then readIndex? r else none
    return s :: (← readSteps? fuel r)

def read? (cs : List Char) : Option Address := do
  let (s, r) ← readKey? cs
  return s :: (← readSteps? r.length r)

/-- The address that a text stands for. A text that is none is one key. -/
def ofText (s : String) : Address := (read? s.toList).getD [.key s]

end Address

namespace Tree

/-- Changes the item at a position. A list that is too short gets more items, each nothing: behind the
others, or before them if the position counts from the end. -/
def alterItem (f : Tree → Tree) (i : Int) (items : List Tree) : List Tree :=
  if 0 ≤ i then (items.rightpad (i.toNat + 1) nothing).modify i.toNat f
  else
    let back := (-i).toNat
    (items.leftpad back nothing).modify (items.length - back) f

/-- Changes what is at an address. A step by a key makes a table of what is not one, and a step to a
position a list. -/
def alter (f : Tree → Tree) : Address → Tree → Tree
  | [], t => f t
  | .key k :: r, t => table (alterEntry (alter f r) k t.entries)
  | .index i :: r, t => list (alterItem (alter f r) i t.items)

def set (t : Tree) (a : Address) (v : Tree) : Tree := t.alter (·.merge v) a

end Tree

end Ability.Settings

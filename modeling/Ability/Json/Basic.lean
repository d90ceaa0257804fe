import Ability.Number.Shortest

/-! JSON values. The fields of an object ascend by name and no name occurs twice. -/

namespace Ability

/-- A whole number is kept apart from a double, also when both have the same value. -/
inductive Number
  | integer (value : Int)
  | decimal (value : Float)

namespace Number

def toFloat : Number → Float
  | integer i => Binary64.ofInt i
  | decimal x => x

def write : Number → List Char
  | integer i => (if i < 0 then ['-'] else []) ++ Nat.toDigits 10 i.natAbs
  | decimal x => Binary64.Layout.document.write x

def toText (n : Number) : String := String.ofList n.write

end Number

inductive Json
  | null
  | bool (value : Bool)
  | number (value : Number)
  | text (value : String)
  | array (items : List Json)
  | object (fields : List (String × Json))
deriving Inhabited

namespace Json

def emptyObject : Json := object []

def isNull : Json → Bool
  | null => true
  | _ => false

def isObject : Json → Bool
  | object _ => true
  | _ => false

/-- The text of a scalar other than null; numbers and truth values are written out. -/
def scalarText? : Json → Option String
  | text s => some s
  | number n => some n.toText
  | bool b => some (if b then "true" else "false")
  | _ => none

mutual

def size : Json → Nat
  | array items => 1 + totalSize items
  | object fields => 1 + fieldsSize fields
  | _ => 1

def totalSize : List Json → Nat
  | [] => 0
  | v :: r => v.size + totalSize r

def fieldsSize : List (String × Json) → Nat
  | [] => 0
  | (_, v) :: r => v.size + fieldsSize r

end

theorem size_pos (v : Json) : 0 < v.size := by
  cases v <;> simp only [size] <;> omega

theorem size_le_totalSize {v : Json} : ∀ {l : List Json}, v ∈ l → v.size ≤ totalSize l
  | w :: r, h => by
    rcases List.mem_cons.mp h with rfl | h
    · simp [totalSize]
    · have := size_le_totalSize h
      simp only [totalSize]; omega

theorem size_le_fieldsSize {e : String × Json} :
    ∀ {l : List (String × Json)}, e ∈ l → e.2.size ≤ fieldsSize l
  | w :: r, h => by
    rcases List.mem_cons.mp h with rfl | h
    · simp [fieldsSize]
    · have := size_le_fieldsSize h
      simp only [fieldsSize]; omega

theorem totalSize_filter_le (p : Json → Bool) :
    ∀ l : List Json, totalSize (l.filter p) ≤ totalSize l
  | [] => by simp [totalSize]
  | v :: r => by
    have := totalSize_filter_le p r
    by_cases h : p v <;> simp [h, totalSize] <;> omega

end Json

end Ability

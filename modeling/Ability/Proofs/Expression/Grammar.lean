import Ability.Expression.Parser

/-! The grammar of numeric expressions, with one type of syntax trees for each of its parts. An operand
followed by any number of others is kept as it is read, from the left; how operators associate is told by
the value of a tree and not by its shape. -/

namespace Ability.Expression

/-- The levels on which operators join any number of operands. -/
inductive Join
  | or | and | sum | product

inductive Part
  | join (j : Join)
  | comparison
  | sign
  | power
  | primary

namespace Join

def has : Join → Operator → Bool
  | or => (· = .or)
  | and => (· = .and)
  | sum => Operator.isSum
  | product => Operator.isProduct

def operand : Join → Part
  | or => .join .and
  | and => .comparison
  | sum => .join .product
  | product => .sign

end Join

mutual

inductive Tree : Part → Type
  | joined {j : Join} (first : Tree j.operand) (more : More j) : Tree (.join j)
  | alone (x : Tree (.join .sum)) : Tree .comparison
  | compared (x : Tree (.join .sum)) (o : Operator) (h : o.isComparison) (y : Tree (.join .sum)) :
      Tree .comparison
  | negative (x : Tree .sign) : Tree .sign
  | negated (x : Tree .sign) : Tree .sign
  | unsigned (x : Tree .power) : Tree .sign
  | base (x : Tree .primary) : Tree .power
  | raised (x : Tree .primary) (y : Tree .sign) : Tree .power
  | number (v : Float) : Tree .primary
  | group (x : Tree (.join .or)) : Tree .primary

/-- Further operands of a level, each behind its operator. -/
inductive More : Join → Type
  | none {j : Join} : More j
  | next {j : Join} (o : Operator) (h : j.has o) (y : Tree j.operand) (more : More j) : More j

end

mutual

def Tree.tokens {p : Part} : Tree p → List Token
  | .joined first more => first.tokens ++ more.tokens
  | .alone x => x.tokens
  | .compared x o _ y => x.tokens ++ .op o :: y.tokens
  | .negative x => .op .sub :: x.tokens
  | .negated x => .op .not :: x.tokens
  | .unsigned x => x.tokens
  | .base x => x.tokens
  | .raised x y => x.tokens ++ .op .pow :: y.tokens
  | .number v => [.number v]
  | .group x => .lparen :: (x.tokens ++ [.rparen])

def More.tokens {j : Join} : More j → List Token
  | .none => []
  | .next o _ y more => .op o :: (y.tokens ++ more.tokens)

end

mutual

/-- How many signed positions stand inside one another on the deepest way into a tree. -/
def Tree.depth {p : Part} : Tree p → Nat
  | .joined first more => max first.depth more.depth
  | .alone x => x.depth
  | .compared x _ _ y => max x.depth y.depth
  | .negative x => x.depth + 1
  | .negated x => x.depth + 1
  | .unsigned x => x.depth + 1
  | .base x => x.depth
  | .raised x y => max x.depth y.depth
  | .number _ => 0
  | .group x => x.depth

def More.depth {j : Join} : More j → Nat
  | .none => 0
  | .next _ _ y more => max y.depth more.depth

end

def Operator.value : Operator → Float → Float → Float
  | or, x, y => ofBool (truthy x || truthy y)
  | and, x, y => ofBool (truthy x && truthy y)
  | eq, x, y => ofBool (decide ((x - y).abs < tolerance))
  | ne, x, y => ofBool (decide (tolerance ≤ (x - y).abs))
  | le, x, y => ofBool (decide (x ≤ y))
  | ge, x, y => ofBool (decide (y ≤ x))
  | lt, x, y => ofBool (decide (x < y))
  | gt, x, y => ofBool (decide (y < x))
  | add, x, y => x + y
  | sub, x, y => x - y
  | mul, x, y => x * y
  | div, x, y => x / y
  | mod, x, y => Binary64.remainder x y
  | pow, x, y => Binary64.power x y
  | not, x, _ => x

/-- Division needs a right operand other than zero. -/
def Operator.Takes (o : Operator) (y : Float) : Prop := o = div ∨ o = mod → (y == 0.0) = false

mutual

def Tree.value {p : Part} : Tree p → Float
  | .joined first more => more.value first.value
  | .alone x => x.value
  | .compared x o _ y => o.value x.value y.value
  | .negative x => -x.value
  | .negated x => ofBool !(truthy x.value)
  | .unsigned x => x.value
  | .base x => x.value
  | .raised x y => Operator.pow.value x.value y.value
  | .number v => v
  | .group x => x.value

/-- What becomes of the operands so far, worth `acc`, when the further ones are joined to them. -/
def More.value {j : Join} : More j → Float → Float
  | .none, acc => acc
  | .next o _ y more, acc => more.value (o.value acc y.value)

end

mutual

/-- No division by zero anywhere in a tree, under `||` and `&&` no less than elsewhere. -/
def Tree.Defined {p : Part} : Tree p → Prop
  | .joined first more => first.Defined ∧ more.Defined
  | .alone x => x.Defined
  | .compared x _ _ y => x.Defined ∧ y.Defined
  | .negative x => x.Defined
  | .negated x => x.Defined
  | .unsigned x => x.Defined
  | .base x => x.Defined
  | .raised x y => x.Defined ∧ y.Defined
  | .number _ => True
  | .group x => x.Defined

def More.Defined {j : Join} : More j → Prop
  | .none => True
  | .next o _ y more => y.Defined ∧ o.Takes y.value ∧ more.Defined

end

attribute [simp] Tree.tokens More.tokens Tree.depth More.depth Tree.value More.value Tree.Defined More.Defined

theorem Operator.apply_eq_ok {o : Operator} {x y v : Float} :
    o.apply x y = .ok v ↔ o.Takes y ∧ o.value x y = v := by
  cases hy : y == 0.0 <;> cases o <;> simp [Operator.apply, Operator.Takes, Operator.value, hy]

theorem Operator.apply_of_takes {o : Operator} {x y : Float} (h : o.Takes y) :
    o.apply x y = .ok (o.value x y) :=
  Operator.apply_eq_ok.2 ⟨h, rfl⟩

theorem Operator.takes_of_isComparison {o : Operator} (h : o.isComparison) (y : Float) : o.Takes y := by
  rintro (rfl | rfl) <;> cases h

/-- How loosely an operator holds its operands; `!`, which has none on its left, more than any. -/
def Operator.looseness : Operator → Nat
  | pow => 1
  | mul | div | mod => 2
  | add | sub => 3
  | eq | ne | le | ge | lt | gt => 4
  | and => 5
  | or => 6
  | not => 7

/-- The looseness of the loosest operator outside of all parentheses and signs. -/
def Part.looseness : Part → Nat
  | .primary => 0
  | .power | .sign => 1
  | .join .product => 2
  | .join .sum => 3
  | .comparison => 4
  | .join .and => 5
  | .join .or => 6

theorem Part.looseness_join (j : Join) : (Part.join j).looseness = j.operand.looseness + 1 := by
  cases j <;> rfl

theorem Join.has_iff {j : Join} {o : Operator} :
    j.has o ↔ o.looseness = (Part.join j).looseness := by
  cases j <;> cases o <;> decide

theorem Operator.isComparison_iff {o : Operator} :
    o.isComparison ↔ o.looseness = Part.comparison.looseness := by
  cases o <;> decide

/-- Tokens before which a part is over: an operator that comes first holds looser than the part's own. -/
def Part.Stops (p : Part) (r : List Token) : Prop := ∀ o r', r = .op o :: r' → p.looseness < o.looseness

namespace Part.Stops

variable {p q : Part} {o : Operator} {r : List Token}

theorem nil : p.Stops [] := fun _ _ h => nomatch h

theorem rparen : p.Stops (.rparen :: r) := fun _ _ h => nomatch h

theorem op : p.Stops (.op o :: r) ↔ p.looseness < o.looseness := by
  constructor
  · intro h
    exact h o r rfl
  · rintro h o' r' ⟨⟩
    exact h

theorem of_le (h : p.Stops r) (hq : q.looseness ≤ p.looseness) : q.Stops r :=
  fun o r' hr => Nat.lt_of_le_of_lt hq (h o r' hr)

theorem op_comparison (h : o.isComparison) : (Part.join .sum).Stops (.op o :: r) := by
  rw [op, Operator.isComparison_iff.1 h]
  decide

theorem not_isComparison (h : Part.comparison.Stops (.op o :: r)) : ¬ o.isComparison := by
  intro ho
  have lt := op.1 h
  have eq := Operator.isComparison_iff.1 ho
  omega

theorem not_has {j : Join} (h : (Part.join j).Stops (.op o :: r)) : ¬ j.has o := by
  intro ho
  have lt := op.1 h
  have eq := Join.has_iff.1 ho
  omega

end Part.Stops

end Ability.Expression

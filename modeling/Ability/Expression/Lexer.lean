import Ability.Expression.Token
import Ability.Number.Digits

/-!
Cutting a text into tokens. Between tokens there may be ASCII blanks; numerals are runs of digits and
points, words are runs of letters and digits that begin with a letter, and the longer of two operators
is taken.
-/

namespace Ability.Expression

def isBlank (c : Char) : Bool := c = ' ' ∨ c = '\t' ∨ c = '\n' ∨ c = '\x0c' ∨ c = '\r'

def isNumeralChar (c : Char) : Bool := c.isDigit ∨ c = '.'

/-- The value of a run of digits and points: it has a digit and at most one point. -/
def numeralValue? (cs : List Char) : Option Float :=
  let whole := cs.takeWhile Char.isDigit
  let fraction := (cs.dropWhile Char.isDigit).drop 1
  if fraction.all Char.isDigit ∧ (cs.any Char.isDigit) then
    some (Binary64.ofDecimal false (Digits.value (whole ++ fraction)) (-(fraction.length : Int)))
  else none

def wordValue? (cs : List Char) : Option Float :=
  if cs = ['t', 'r', 'u', 'e'] then some 1.0
  else if cs = ['f', 'a', 'l', 's', 'e'] then some 0.0
  else none

def operator? : List Char → Option (Operator × List Char)
  | '=' :: '=' :: r => some (.eq, r)
  | '!' :: '=' :: r => some (.ne, r)
  | '<' :: '=' :: r => some (.le, r)
  | '>' :: '=' :: r => some (.ge, r)
  | '&' :: '&' :: r => some (.and, r)
  | '|' :: '|' :: r => some (.or, r)
  | '<' :: r => some (.lt, r)
  | '>' :: r => some (.gt, r)
  | '+' :: r => some (.add, r)
  | '-' :: r => some (.sub, r)
  | '*' :: r => some (.mul, r)
  | '/' :: r => some (.div, r)
  | '%' :: r => some (.mod, r)
  | '^' :: r => some (.pow, r)
  | '!' :: r => some (.not, r)
  | _ => none

/-- The character whose code is the first byte of `c` in UTF-8. -/
def leadByte (c : Char) : Char := Char.ofNat ((String.utf8EncodeChar c).headD 0).toNat

def lexeme (c : Char) (r : List Char) : Except Fault (Token × List Char) :=
  if isNumeralChar c then
    let run := c :: r.takeWhile isNumeralChar
    match numeralValue? run with
    | some x => .ok (.number x, r.dropWhile isNumeralChar)
    | none => .error (.badNumeral (String.ofList run))
  else if c.isAlpha then
    let run := c :: r.takeWhile Char.isAlphanum
    match wordValue? run with
    | some x => .ok (.number x, r.dropWhile Char.isAlphanum)
    | none => .error (.unknownWord (String.ofList run))
  else if c = '(' then .ok (.lparen, r)
  else if c = ')' then .ok (.rparen, r)
  else
    match operator? (c :: r) with
    | some (o, r) => .ok (.op o, r)
    | none => .error (.unknownCharacter (leadByte c))

theorem length_dropWhile_le (p : Char → Bool) (l : List Char) : (l.dropWhile p).length ≤ l.length :=
  (List.dropWhile_suffix p).length_le

theorem operator?_length {c : Char} {r r' : List Char} {o : Operator}
    (h : operator? (c :: r) = some (o, r')) : r'.length ≤ r.length := by
  unfold operator? at h
  split at h <;> simp_all

theorem lexeme_length {c : Char} {r r' : List Char} {t : Token} (h : lexeme c r = .ok (t, r')) :
    r'.length ≤ r.length := by
  have hd := length_dropWhile_le (l := r)
  have ho := @operator?_length c r
  unfold lexeme at h
  repeat' split at h
  all_goals grind

def tokenize (cs : List Char) : Except Fault (List Token) :=
  match cs with
  | [] => .ok []
  | c :: r =>
    if isBlank c then tokenize r
    else
      match _h : lexeme c r with
      | .error e => .error e
      | .ok (t, r') => (tokenize r').map (t :: ·)
termination_by cs.length
decreasing_by
  · simp
  · have := lexeme_length ‹_›; simp; omega

end Ability.Expression

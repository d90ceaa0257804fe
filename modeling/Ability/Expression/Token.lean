import Ability.Number.Shortest

/-! Tokens of numeric expressions, and what can go wrong with an expression. -/

namespace Ability.Expression

inductive Operator
  | eq | ne | le | ge | and | or | lt | gt | add | sub | mul | div | mod | pow | not
deriving DecidableEq

def Operator.symbol : Operator → List Char
  | eq => ['=', '=']
  | ne => ['!', '=']
  | le => ['<', '=']
  | ge => ['>', '=']
  | and => ['&', '&']
  | or => ['|', '|']
  | lt => ['<']
  | gt => ['>']
  | add => ['+']
  | sub => ['-']
  | mul => ['*']
  | div => ['/']
  | mod => ['%']
  | pow => ['^']
  | not => ['!']

inductive Token
  | number (value : Float)
  | op (o : Operator)
  | lparen
  | rparen

def Token.describe : Token → String
  | number x => "Number(" ++ Binary64.Layout.diagnostic.text x ++ ")"
  | op o => "Op(\"" ++ String.ofList o.symbol ++ "\")"
  | lparen => "LParen"
  | rparen => "RParen"

inductive Fault
  | badNumeral (text : String)
  | unknownWord (text : String)
  | unknownCharacter (shown : Char)
  | empty
  | surplus (token : Token)
  | unclosed
  | unexpected (token : Token)
  | unfinished
  | tooDeep
  | divisionByZero
  | notFinite

def Fault.message : Fault → String
  | badNumeral s => "无效数字 '" ++ s ++ "'"
  | unknownWord s => "未知标识符 '" ++ s ++ "'"
  | unknownCharacter c => "无法识别的字符 '" ++ String.singleton c ++ "'"
  | empty => "表达式为空"
  | surplus t => "多余的记号 " ++ t.describe
  | unclosed => "缺少右括号"
  | unexpected t => "意外的记号 " ++ t.describe
  | unfinished => "表达式意外结束"
  | tooDeep => "表达式嵌套过深"
  | divisionByZero => "除数为零"
  | notFinite => "结果不是有限数值"

end Ability.Expression

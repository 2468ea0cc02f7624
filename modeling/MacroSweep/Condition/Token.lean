/-! Tokens of conditional expressions. -/
namespace MacroSweep.Condition

/-- Binary operators. -/
inductive BinaryOp where
  | or | and | bitOr | bitXor | bitAnd | eq | ne | lt | gt | le | ge | shl | shr
  | add | sub | mul | div | rem
  deriving DecidableEq, Repr

namespace BinaryOp

def text : BinaryOp → String
  | or => "||" | and => "&&" | bitOr => "|" | bitXor => "^" | bitAnd => "&"
  | eq => "==" | ne => "!=" | lt => "<" | gt => ">" | le => "<=" | ge => ">="
  | shl => "<<" | shr => ">>" | add => "+" | sub => "-" | mul => "*" | div => "/" | rem => "%"

/-- How tightly an operator binds, from one for the loosest to ten. -/
def level : BinaryOp → Nat
  | or => 1
  | and => 2
  | bitOr => 3
  | bitXor => 4
  | bitAnd => 5
  | eq | ne => 6
  | lt | gt | le | ge => 7
  | shl | shr => 8
  | add | sub => 9
  | mul | div | rem => 10

end BinaryOp

/-- Operator signs: the binary ones, of which plus and minus are also unary, and the rest. -/
inductive Sign where
  | binary (op : BinaryOp)
  | not
  | complement
  | question
  | colon
  | comma
  deriving DecidableEq, Repr

def Sign.text : Sign → String
  | binary op => op.text
  | not => "!"
  | complement => "~"
  | question => "?"
  | colon => ":"
  | comma => ","

/-- A token: a number of 64 bits, a name, an operator sign or a parenthesis. -/
inductive Token where
  | num (value : Int64)
  | name (text : String)
  | sign (s : Sign)
  | opening
  | closing
  deriving DecidableEq

def Token.text : Token → String
  | num n => toString n.toInt
  | name s => s
  | sign s => s.text
  | opening => "("
  | closing => ")"

/-- Why a condition has no value. -/
inductive Error where
  | empty
  | unexpectedChar (c : Char)
  | invalidLiteral (text : String)
  | missingDefinedName
  | unexpectedToken (t : Token)
  | unexpectedEnd
  | divisionByZero
  | tooDeep (name : String)
  | argumentCount (name : String) (expected found : Nat)
  deriving DecidableEq

def Error.message : Error → String
  | empty => "empty expression"
  | unexpectedChar c => s!"unexpected character `{c}`"
  | invalidLiteral text => s!"invalid literal `{text}`"
  | missingDefinedName => "`defined` without a macro name"
  | unexpectedToken t => s!"unexpected `{t.text}`"
  | unexpectedEnd => "unexpected end of expression"
  | divisionByZero => "division by zero"
  | tooDeep name => s!"macro expansion of `{name}` is too deep"
  | argumentCount name expected found =>
    s!"macro `{name}` expects {expected} argument(s), got {found}"

end MacroSweep.Condition

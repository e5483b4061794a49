import Piecework.Blank
import Piecework.Decimal
import Piecework.Operator

/-!
# Postfix programs

A program is a row of tokens: known values, operators, and placeholders for
the results of tasks that are still out. Its text form writes the tokens in
canonical spelling with one space between them; reading accepts any blanks,
leading zeros and a plus sign on a placeholder's number.
-/

namespace Piecework

/-- The number of a task, counted from one. -/
abbrev TaskId := Nat

/-- The number of an expression, counted from one. -/
abbrev ExpressionId := Nat

/-- Why a program cannot be read or evaluated. -/
inductive ProgramError where
  | malformed
  | divisionByZero
  | unknownOperator (text : String)
  deriving DecidableEq, Repr

/-- The wording of a program error. -/
def ProgramError.message : ProgramError → String
  | malformed => "malformed reduction"
  | divisionByZero => "division by zero"
  | unknownOperator text => "unknown operator: " ++ text

/-- One element of a postfix program. -/
inductive Token where
  | number (value : Int64)
  | operator (op : Operator)
  | task (id : TaskId)
  deriving DecidableEq, Repr

/-- A row of tokens in postfix order. -/
abbrev Program := List Token

/-- The operator written by a text of exactly one symbol. -/
def Operator.ofText (cs : List Char) : Except ProgramError Operator :=
  match cs with
  | [c] =>
    match ofSymbol? c with
    | some op => .ok op
    | none => .error (.unknownOperator (String.ofList cs))
  | _ => .error (.unknownOperator (String.ofList cs))

namespace Token

/-- The characters before the number of a placeholder. -/
def taskMark : List Char := ['t', 'a', 's', 'k', ':']

/-- The canonical spelling of a token. -/
def spelling : Token → List Char
  | number v => Decimal.signedDigits v.toInt
  | operator op => [op.symbol]
  | task id => taskMark ++ Decimal.digits id

/-- The characters of a number: digits after at most one minus sign. -/
def isSignedNumeral : List Char → Bool
  | '-' :: cs => Decimal.isNumeral cs
  | cs => Decimal.isNumeral cs

/-- The token that a spelling writes. -/
def ofSpelling (cs : List Char) : Except ProgramError Token :=
  if taskMark.isPrefixOf cs then
    match Decimal.unsigned? wordMax (cs.drop taskMark.length) with
    | some id => .ok (task id)
    | none => .error .malformed
  else if isSignedNumeral cs then
    match Decimal.signedValue? cs with
    | some v => .ok (number v)
    | none => .error .malformed
  else
    (Operator.ofText cs).map operator

end Token

namespace Program

/-- The spellings of a program's tokens with one space between neighbours. -/
def spelling (p : Program) : List Char :=
  [' '].intercalate (p.map Token.spelling)

/-- A program in canonical text form. -/
def text (p : Program) : String := String.ofList p.spelling

/-- The program written by a text; the leftmost bad run of characters decides the error. -/
def ofSpelling (cs : List Char) : Except ProgramError Program :=
  (runs cs).mapM Token.ofSpelling

/-- The program written by a string. -/
def ofText (s : String) : Except ProgramError Program := ofSpelling s.toList

/-- The program with every placeholder of `id` replaced by a value. -/
def substitute (id : TaskId) (v : Int64) (p : Program) : Program :=
  p.map fun t => if t = .task id then .number v else t

/-- Whether a placeholder of `id` occurs in the program. -/
def mentions (p : Program) (id : TaskId) : Bool := p.contains (.task id)

/-- The number of operators that still wait in the program. -/
def operatorCount (p : Program) : Nat :=
  p.countP fun
    | .operator _ => true
    | _ => false

end Program

end Piecework

import Piecework.Token

/-!
# Compiling infix text

Text is cut into lexemes, and an operator stack puts them into postfix order:
an operator first releases those on top of the stack that bind at least as
tightly, and a closing parenthesis releases everything down to its opening
one. Whether the operands fit the operators is not checked here; a program
such as `1 +` is compiled and refused when it is first reduced.
-/

namespace Piecework

/-- Why infix text does not compile. -/
inductive InfixError where
  | mismatchedParentheses
  | unexpectedCharacter (c : Char) (position : Nat)
  | empty
  | invalidNumber (digits : String)
  deriving DecidableEq, Repr

/-- The wording of a compile error. -/
def InfixError.message : InfixError → String
  | mismatchedParentheses => "mismatched parentheses"
  | unexpectedCharacter c position =>
    "unexpected character '" ++ c.toString ++ "' at position " ++ Decimal.text position
  | empty => "empty expression"
  | invalidNumber digits => "invalid number: " ++ digits

namespace Infix

/-- A unit of infix text; the last two stop the compiler where they are read. -/
inductive Lexeme where
  | number (value : Int64)
  | operator (op : Operator)
  | opening
  | closing
  | oversized (digits : List Char)
  | stray (c : Char) (position : Nat)
  deriving DecidableEq, Repr

/-- The lexeme of a maximal run of digits. -/
def Lexeme.ofDigits (ds : List Char) : Lexeme :=
  (signed? (Decimal.value ds)).elim (.oversized ds) .number

/-- The lexeme of a character at a byte position that is neither a digit nor spacing. -/
def Lexeme.ofChar (position : Nat) (c : Char) : Lexeme :=
  if c = '(' then .opening
  else if c = ')' then .closing
  else match Operator.ofSymbol? c with
    | some op => .operator op
    | none => .stray c position

/-- The lexemes of a text that starts at a byte position. -/
def lexemes (position : Nat) : List Char → List Lexeme
  | [] => []
  | c :: cs =>
    if c.isDigit then
      let ds := c :: cs.takeWhile Char.isDigit
      .ofDigits ds :: lexemes (position + ds.length) (cs.dropWhile Char.isDigit)
    else if isSpacing c then lexemes (position + 1) cs
    else .ofChar position c :: lexemes (position + c.utf8Size) cs
termination_by cs => cs.length
decreasing_by
  all_goals simp only [List.length_cons]
  · exact Nat.lt_succ_of_le (List.dropWhile_sublist _).length_le
  all_goals exact Nat.lt_succ_self _

/-- What waits on the operator stack. -/
inductive Pending where
  | operator (op : Operator)
  | opening
  deriving DecidableEq, Repr

/-- The compiler between two lexemes: tokens emitted so far, latest first, and the stack. -/
structure State where
  emitted : List Token := []
  stack : List Pending := []
  deriving DecidableEq, Repr

namespace State

/-- Release the operators on top of the stack that bind at least as tightly as `op`. -/
def release (op : Operator) : List Token → List Pending → State
  | out, .operator top :: rest =>
    if op.precedence ≤ top.precedence then release op (.operator top :: out) rest
    else ⟨out, .operator top :: rest⟩
  | out, stack => ⟨out, stack⟩

/-- Release the operators down to the opening parenthesis that is closed here. -/
def close : List Token → List Pending → Except InfixError State
  | out, .operator top :: rest => close (.operator top :: out) rest
  | out, .opening :: rest => .ok ⟨out, rest⟩
  | _, [] => .error .mismatchedParentheses

/-- Read one lexeme. -/
def read (s : State) : Lexeme → Except InfixError State
  | .number v => .ok { s with emitted := .number v :: s.emitted }
  | .operator op =>
    let r := release op s.emitted s.stack
    .ok { r with stack := .operator op :: r.stack }
  | .opening => .ok { s with stack := .opening :: s.stack }
  | .closing => close s.emitted s.stack
  | .oversized ds => .error (.invalidNumber (String.ofList ds))
  | .stray c position => .error (.unexpectedCharacter c position)

/-- Release what is left on the stack when the text ends. -/
def drain : List Token → List Pending → Except InfixError (List Token)
  | out, .operator top :: rest => drain (.operator top :: out) rest
  | _, .opening :: _ => .error .mismatchedParentheses
  | out, [] => .ok out

/-- The program of a text that ends here. -/
def finish (s : State) : Except InfixError Program :=
  match drain s.emitted s.stack with
  | .error e => .error e
  | .ok [] => .error .empty
  | .ok out => .ok out.reverse

end State

/-- The state after a row of lexemes. -/
def readAll (s : State) : List Lexeme → Except InfixError State
  | [] => .ok s
  | x :: xs =>
    match s.read x with
    | .error e => .error e
    | .ok s' => readAll s' xs

/-- The postfix program of infix text; the first problem from the left decides the error. -/
def compile (text : String) : Except InfixError Program :=
  match readAll {} (lexemes 0 text.toList) with
  | .error e => .error e
  | .ok s => s.finish

end Infix

end Piecework

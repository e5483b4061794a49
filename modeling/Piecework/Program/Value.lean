import Piecework.Token

/-!
# What a program denotes

A program is run on a stack of values, with the results of outstanding tasks
taken from an assignment. How an operator is answered is a parameter, so the
same run also serves workers that answer something other than the exact result.
Whether a program is postfix at all depends on the number of operands alone:
every operator takes two and leaves one, and one is left at the end. The
operands are parts of the program, and which parts they are is said without
counting.
-/

namespace Piecework

/-- How an operation on two known values is answered. -/
abbrev Answering := Operator → Int64 → Int64 → Option Int64

namespace Program

/-- The stack after a program, if every operation in it has an answer. -/
def stackBy? (answer : Answering) (results : TaskId → Option Int64) :
    List Int64 → Program → Option (List Int64)
  | s, [] => some s
  | s, .number v :: p => stackBy? answer results (v :: s) p
  | s, .task id :: p =>
    match results id with
    | some v => stackBy? answer results (v :: s) p
    | none => none
  | b :: a :: s, .operator op :: p =>
    match answer op a b with
    | some v => stackBy? answer results (v :: s) p
    | none => none
  | _, .operator _ :: _ => none

/-- The value of a program under an assignment of results and a way of answering. -/
def valueBy? (answer : Answering) (results : TaskId → Option Int64) (p : Program) : Option Int64 :=
  match stackBy? answer results [] p with
  | some [v] => some v
  | _ => none

/-- The value of a program under an assignment of results, with exact arithmetic. -/
def value? (results : TaskId → Option Int64) (p : Program) : Option Int64 :=
  p.valueBy? Operator.apply results

/-- The number of operands after a program that starts with `n` of them. -/
def operands? : Nat → Program → Option Nat
  | n, [] => some n
  | n, .operator _ :: p => if n < 2 then none else operands? (n - 1) p
  | n, _ :: p => operands? (n + 1) p

/-- A program that denotes exactly one operand. -/
def IsPostfix (p : Program) : Prop := operands? 0 p = some 1

/-- A row of tokens that writes one operand: a known value, a placeholder, or two operands with an
operator behind them. -/
inductive IsOperand : Program → Prop where
  | number (v : Int64) : IsOperand [.number v]
  | task (id : TaskId) : IsOperand [.task id]
  | operation {left right : Program} (op : Operator) : IsOperand left → IsOperand right →
      IsOperand (left ++ right ++ [.operator op])

/-- Operands that make up a program one behind the other. -/
structure ConsistsOf (p : Program) (operands : List Program) : Prop where
  flatten_eq : operands.flatten = p
  operand : ∀ q ∈ operands, IsOperand q

/-- The part of a program between two others is an operand, and no larger part around it is one. -/
structure IsWholeOperand (before q behind : Program) : Prop where
  operand : IsOperand q
  maximal : ∀ left right, left <:+ before → right <+: behind → IsOperand (left ++ q ++ right) →
    left = [] ∧ right = []

/-- The tasks whose results a program waits for, in order. -/
def tasks (p : Program) : List TaskId :=
  p.filterMap fun
    | .task id => some id
    | _ => none

/-- A program in which no operator directly follows two known values. -/
def IsWindowless (p : Program) : Prop :=
  ∀ a b op, ¬ [.number a, .number b, .operator op] <:+: p

end Program

end Piecework

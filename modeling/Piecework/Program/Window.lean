import Mathlib.Data.List.Infix
import Piecework.Program.Value
import Piecework.Task

/-!
# Operations that stand ready

An operator directly behind two known values stands ready, whatever surrounds it. Here such
windows are listed and replaced by looking at the program itself, three tokens at a time and
without a stack. No two windows share a token, so all of them can be replaced at once. The
other definitions say where a program goes wrong, by the operands that stand before an operator.
-/

namespace Piecework.Program

/-- The operation on two known values with which a program begins. -/
def window? : Program → Option (Operator × Int64 × Int64)
  | .number a :: .number b :: .operator op :: _ => some (op, a, b)
  | _ => none

/-- The operations on two known values in a program, from left to right. -/
def windows (p : Program) : List (Operator × Int64 × Int64) := p.tails.filterMap window?

/-- The operations on two known values in a program as drafts for an expression. -/
def drafts (costs : Costs) (expression : ExpressionId) (p : Program) : List Draft :=
  p.windows.map fun (op, a, b) => ⟨expression, op, a, b, costs.cost op⟩

/-- The program with every operation on two known values replaced by one placeholder, which
carries the next number of a row, and with every other token kept. -/
def collapse : Program → List TaskId → Program
  | .number _ :: .number _ :: .operator _ :: p, id :: ids => .task id :: collapse p ids
  | t :: p, ids => t :: collapse p ids
  | [], _ => []

/-- Some operator of a program stands behind fewer than two operands. -/
def IsStarved (p : Program) : Prop :=
  ∃ (before : Program) (op : Operator) (behind : Program) (n : Nat),
    p = before ++ .operator op :: behind ∧ operands? 0 before = some n ∧ n < 2

/-- A program divides a known value by a known zero, and no operator before that lacks operands. -/
def DividesByZero (p : Program) : Prop :=
  ∃ (before : Program) (a : Int64) (behind : Program),
    p = before ++ .number a :: .number 0 :: .operator .div :: behind ∧ ¬ before.IsStarved

/-- A program that no pass accepts: nothing at all, a placeholder or an operator alone, or several
tokens in which no known division by zero comes first and some operator lacks operands or the whole
leaves other than one. -/
def IsMalformed (p : Program) : Prop :=
  p = [] ∨ (∃ id, p = [.task id]) ∨ (∃ op, p = [.operator op]) ∨
    2 ≤ p.length ∧ ¬ p.DividesByZero ∧ (p.IsStarved ∨ ∃ n, operands? 0 p = some n ∧ n ≠ 1)

end Piecework.Program

import Piecework.Word

/-!
# The four binary operators

Each operator has one symbol and one of two binding strengths. Application is
exact on 64-bit integers: it fails when the mathematical result does not fit,
and on division by zero.
-/

namespace Piecework

/-- The binary operators of an expression. -/
inductive Operator where
  | add
  | sub
  | mul
  | div
  deriving DecidableEq, Repr

namespace Operator

/-- The symbol that writes an operator. -/
def symbol : Operator → Char
  | add => '+'
  | sub => '-'
  | mul => '*'
  | div => '/'

/-- The operator that a symbol writes. -/
def ofSymbol? : Char → Option Operator
  | '+' => some add
  | '-' => some sub
  | '*' => some mul
  | '/' => some div
  | _ => none

/-- Binding strength: products and quotients bind tighter than sums and differences. -/
def precedence : Operator → Nat
  | add | sub => 1
  | mul | div => 2

/-- The exact result, or nothing when it does not fit or the divisor is zero. -/
def apply : Operator → Int64 → Int64 → Option Int64
  | add, a, b => signed? (a.toInt + b.toInt)
  | sub, a, b => signed? (a.toInt - b.toInt)
  | mul, a, b => signed? (a.toInt * b.toInt)
  | div, a, b => if b = 0 then none else signed? (a.toInt.tdiv b.toInt)

/-- Reading a written symbol gives the operator back. -/
@[simp] theorem ofSymbol?_symbol (op : Operator) : ofSymbol? op.symbol = some op := by
  cases op <;> rfl

/-- Only its symbol is read as an operator. -/
theorem eq_symbol_of_ofSymbol? {c : Char} {op : Operator} (h : ofSymbol? c = some op) :
    c = op.symbol := by
  unfold ofSymbol? at h
  split at h
  case h_5 => contradiction
  all_goals
    obtain rfl := Option.some.inj h
    rfl

end Operator

end Piecework

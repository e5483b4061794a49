import Piecework.Token

/-!
# The language of program texts

A token is spelled by an operator's symbol, by digits after at most one minus sign, or by the mark
of a placeholder and digits after at most one plus sign; leading zeros are allowed. Each spelling
is said by its characters and the number that they denote, without saying how they are read.
-/

namespace Piecework.Token

/-- A row of characters spells a token. The number of a signed 64-bit value lies in its range. -/
inductive Spells : Token → List Char → Prop where
  | operator (op : Operator) : Spells (.operator op) [op.symbol]
  | number {v : Int64} {ds : List Char} :
      Decimal.isNumeral ds = true → v.toInt = Decimal.value ds → Spells (.number v) ds
  | negative {v : Int64} {ds : List Char} :
      Decimal.isNumeral ds = true → v.toInt = -(Decimal.value ds : Int) →
      Spells (.number v) ('-' :: ds)
  | task {ds : List Char} : Decimal.isNumeral ds = true → Decimal.value ds ≤ wordMax →
      Spells (.task (Decimal.value ds)) (taskMark ++ ds)
  | plusTask {ds : List Char} : Decimal.isNumeral ds = true → Decimal.value ds ≤ wordMax →
      Spells (.task (Decimal.value ds)) (taskMark ++ '+' :: ds)

/-- A row of characters begins like a placeholder, or it is made like a number. -/
def IsNumeric (cs : List Char) : Prop :=
  taskMark <+: cs ∨ ∃ ds, Decimal.isNumeral ds = true ∧ (cs = ds ∨ cs = '-' :: ds)

end Piecework.Token

import Piecework.Token

/-!
# Infix expressions as trees

A tree has literals as leaves and operators as nodes. Its program lists the
nodes in post-order, and its value is computed directly, failing as soon as one
operation has no result. Parentheses and spacing belong to the spelling of a
tree and not to the tree.
-/

namespace Piecework.Infix

/-- An expression over literals. -/
inductive Tree where
  | literal (v : Int64)
  | node (op : Operator) (left right : Tree)
  deriving DecidableEq, Repr

namespace Tree

/-- The tokens of a tree in post-order. -/
def program : Tree → Program
  | literal v => [.number v]
  | node op left right => left.program ++ right.program ++ [.operator op]

/-- A tree whose literals are not negative, as they are in every infix text. -/
def IsUnsigned : Tree → Prop
  | literal v => 0 ≤ v.toInt
  | node _ left right => left.IsUnsigned ∧ right.IsUnsigned

/-- The characters of a tree with every operation in parentheses. -/
def spelling : Tree → List Char
  | literal v => Decimal.signedDigits v.toInt
  | node op left right => '(' :: (left.spelling ++ op.symbol :: right.spelling) ++ [')']

/-- The value of a tree, if every operation in it has a result. -/
def value? : Tree → Option Int64
  | literal v => some v
  | node op left right =>
    match left.value?, right.value? with
    | some a, some b => op.apply a b
    | _, _ => none

end Tree

end Piecework.Infix

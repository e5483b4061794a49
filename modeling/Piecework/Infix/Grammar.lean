import Piecework.Infix.Tree

/-!
# The infix language

Sums are made of products and products of factors, both from the left; a factor
is a row of digits or a sum in parentheses, and spacing may stand around every
phrase. `Spells` relates a phrase to all its texts, so it says which texts are
sentences of the language without saying how they are read.
-/

namespace Piecework.Infix

/-- The kinds of phrase. -/
inductive Phrase where
  | sum
  | product
  | factor
  deriving DecidableEq, Repr

/-- A text spells a tree as a phrase. -/
inductive Spells : Phrase → Tree → List Char → Prop where
  | digits {ds : List Char} {v : Int64} :
      Decimal.isNumeral ds → signed? (Decimal.value ds) = some v → Spells .factor (.literal v) ds
  | parentheses {t : Tree} {cs : List Char} :
      Spells .sum t cs → Spells .factor t ('(' :: cs ++ [')'])
  | factor {t : Tree} {cs : List Char} : Spells .factor t cs → Spells .product t cs
  | product {t : Tree} {cs : List Char} : Spells .product t cs → Spells .sum t cs
  | multiplied {op : Operator} {left right : Tree} {cs ds : List Char} :
      op = .mul ∨ op = .div → Spells .product left cs → Spells .factor right ds →
      Spells .product (.node op left right) (cs ++ op.symbol :: ds)
  | added {op : Operator} {left right : Tree} {cs ds : List Char} :
      op = .add ∨ op = .sub → Spells .sum left cs → Spells .product right ds →
      Spells .sum (.node op left right) (cs ++ op.symbol :: ds)
  | spaced {p : Phrase} {t : Tree} {cs before behind : List Char} :
      before.all isSpacing → behind.all isSpacing → Spells p t cs →
      Spells p t (before ++ cs ++ behind)

/-- A text that spells some tree. -/
def IsSentence (text : String) : Prop := ∃ t, Spells .sum t text.toList

end Piecework.Infix

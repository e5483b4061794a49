import Piecework.Infix

/-!
# Faults of infix text

A text can go wrong at some place in three ways: a number there is too large, a parenthesis is
closed that was never opened, or a character has no meaning. Each is said here by the characters
before and behind the place, without cutting the text into lexemes and without a stack. An opening
parenthesis that is never closed is no fault of a place: it shows only at the end of the text.
-/

namespace Piecework.Infix

/-- The number of unmatched opening parentheses after one more character; a closing parenthesis
matches the last of them, if there is any. -/
def matchParenthesis (n : Nat) (c : Char) : Nat :=
  if c = '(' then n + 1 else if c = ')' then n - 1 else n

/-- The number of opening parentheses of a text that it does not close. -/
def unmatched (cs : List Char) : Nat := cs.foldl matchParenthesis 0

/-- A character stands for an operand or an operator, or for a part of one. -/
def IsMaterial (c : Char) : Prop := c.isDigit = true ∨ ∃ op : Operator, c = op.symbol

/-- What is wrong where the characters `before` end and others begin: a maximal run of digits with
too large a value, a parenthesis that closes none, or a character that is neither material, nor
spacing, nor a parenthesis, with its position in bytes. -/
inductive Fault (before : List Char) : List Char → InfixError → Prop where
  | oversized {ds behind : List Char} :
      (∀ c ∈ before.getLast?, c.isDigit = false) → Decimal.isNumeral ds = true →
      (∀ c ∈ behind.head?, c.isDigit = false) → Int64.maxValue.toInt < Decimal.value ds →
      Fault before (ds ++ behind) (.invalidNumber (String.ofList ds))
  | closing {behind : List Char} : unmatched before = 0 →
      Fault before (')' :: behind) .mismatchedParentheses
  | stray {c : Char} {behind : List Char} : ¬ IsMaterial c → isSpacing c = false → c ≠ '(' → c ≠ ')' →
      Fault before (c :: behind) (.unexpectedCharacter c (String.ofList before).utf8ByteSize)

/-- A text has no fault at any place before its first `n` characters end. -/
def IsSoundUpTo (n : Nat) (cs : List Char) : Prop :=
  ∀ before rest e, cs = before ++ rest → before.length < n → ¬ Fault before rest e

/-- What is wrong at the first place of a text, from the left, where something is. -/
def FirstFault (cs : List Char) (e : InfixError) : Prop :=
  ∃ before rest, cs = before ++ rest ∧ Fault before rest e ∧ IsSoundUpTo before.length cs

/-- A text has no fault at any place. -/
def IsFaultless (cs : List Char) : Prop := ∀ before rest e, cs = before ++ rest → ¬ Fault before rest e

end Piecework.Infix

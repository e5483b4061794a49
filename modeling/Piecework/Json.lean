import Piecework.Decimal

/-!
# JSON values and their text

Values have integers only, which is all that is ever written here. A record
keeps its members in order. The text is compact: no blanks, control characters
and the two reserved characters escaped, everything else as it is.
-/

namespace Piecework

/-- A value that can be written as JSON text. -/
inductive Json where
  | null
  | bool (b : Bool)
  | integer (i : Int)
  | text (s : String)
  | list (items : List Json)
  | record (members : List (String × Json))
  deriving Repr

namespace Json

/-- The digit of a number below sixteen, in lower case. -/
def hexDigit (n : Nat) : Char :=
  if n < 10 then Char.ofNat ('0'.toNat + n) else Char.ofNat ('a'.toNat + (n - 10))

/-- A character between quotes. -/
def escape (c : Char) : List Char :=
  if c = '"' then ['\\', '"']
  else if c = '\\' then ['\\', '\\']
  else if c = '\n' then ['\\', 'n']
  else if c = '\r' then ['\\', 'r']
  else if c = '\t' then ['\\', 't']
  else if c = '\x08' then ['\\', 'b']
  else if c = '\x0c' then ['\\', 'f']
  else if c.toNat < 0x20 then
    ['\\', 'u', '0', '0', hexDigit (c.toNat / 16), hexDigit (c.toNat % 16)]
  else [c]

/-- A string with its quotes. -/
def quote (s : String) : List Char := '"' :: s.toList.flatMap escape ++ ['"']

mutual

/-- The characters of a value. -/
def render : Json → List Char
  | null => ['n', 'u', 'l', 'l']
  | bool true => ['t', 'r', 'u', 'e']
  | bool false => ['f', 'a', 'l', 's', 'e']
  | integer i => Decimal.signedDigits i
  | text s => quote s
  | list items => '[' :: renderItems items ++ [']']
  | record members => '\x7b' :: renderMembers members ++ ['\x7d']

/-- The characters between the brackets of a list. -/
def renderItems : List Json → List Char
  | [] => []
  | [v] => render v
  | v :: w :: rest => render v ++ ',' :: renderItems (w :: rest)

/-- The characters between the braces of a record. -/
def renderMembers : List (String × Json) → List Char
  | [] => []
  | [(k, v)] => quote k ++ ':' :: render v
  | (k, v) :: m :: rest => quote k ++ ':' :: (render v ++ ',' :: renderMembers (m :: rest))

end

/-- The text of a value. -/
def compact (v : Json) : String := String.ofList v.render

/-- A natural number as a value. -/
def natural (n : Nat) : Json := integer n

end Json

end Piecework

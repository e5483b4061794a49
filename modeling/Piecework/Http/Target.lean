import Piecework.Json.Scan

/-!
# Request targets

A target is a path and a query. Path segments are percent-decoded; query fields
are form-decoded, where a plus sign is a space. Bytes that are not UTF-8 have no
text, and such a text names nothing and is no number.
-/

namespace Piecework.Http

/-- The bytes of a character row. -/
def utf8 (cs : List Char) : List UInt8 := (String.ofList cs).toUTF8.toList

/-- The value of a byte as a hexadecimal digit. -/
def hexByte? (b : UInt8) : Option Nat := Json.hexValue? (Char.ofNat b.toNat)

/-- Bytes with every percent sign and two hexadecimal digits replaced by the byte they stand for;
a percent sign without them stays. -/
def percentDecode : List UInt8 → List UInt8
  | b :: h :: l :: rest =>
    if b.toNat = '%'.toNat then
      match hexByte? h, hexByte? l with
      | some high, some low => UInt8.ofNat (16 * high + low) :: percentDecode rest
      | _, _ => b :: percentDecode (h :: l :: rest)
    else b :: percentDecode (h :: l :: rest)
  | bytes => bytes

/-- The characters of bytes that are UTF-8. -/
def characters? (bytes : List UInt8) : Option (List Char) :=
  (String.fromUTF8? ⟨bytes.toArray⟩).map String.toList

/-- A path segment as text. -/
def segmentText? (cs : List Char) : Option (List Char) := characters? (percentDecode (utf8 cs))

/-- A name or value of a query as text. -/
def fieldText? (cs : List Char) : Option (List Char) :=
  characters? (percentDecode (utf8 (cs.map fun c => if c = '+' then ' ' else c)))

/-- The parts of a row of characters between separators. -/
def splitAt (separator : Char) : List Char → List (List Char)
  | [] => [[]]
  | c :: cs =>
    if c = separator then [] :: splitAt separator cs
    else match splitAt separator cs with
      | [] => [[c]]
      | p :: ps => (c :: p) :: ps

/-- The characters before the first separator and those behind it. -/
def cut (separator : Char) (cs : List Char) : List Char × List Char :=
  (cs.takeWhile (· ≠ separator), (cs.dropWhile (· ≠ separator)).drop 1)

/-- The names and values of a query; empty fields are left out. -/
def fields (query : List Char) : List (Option (List Char) × Option (List Char)) :=
  ((splitAt '&' query).filter (! ·.isEmpty)).map fun field =>
    let (name, value) := cut '=' field
    (fieldText? name, fieldText? value)

/-- A request target, cut into path and query. -/
structure Target where
  path : List Char
  query : List Char
  deriving DecidableEq, Repr

/-- The target without the scheme and the authority that may stand before its path. -/
def originForm (cs : List Char) : List Char :=
  match cs.dropWhile fun c => c.isAlphanum with
  | ':' :: '/' :: '/' :: rest => if cs.head? == some '/' then cs else rest.dropWhile (· ≠ '/')
  | _ => cs

/-- Cut a written target; a fragment is dropped and an empty path is the root. -/
def Target.ofString (s : String) : Target :=
  let (path, query) := cut '?' (cut '#' (originForm s.toList)).1
  ⟨if path.isEmpty then ['/'] else path, query⟩

/-- The segments of an absolute path. -/
def Target.segments? (t : Target) : Option (List (List Char)) :=
  match t.path with
  | '/' :: rest => some (splitAt '/' rest)
  | _ => none

end Piecework.Http

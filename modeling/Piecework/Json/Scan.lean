import Piecework.Document
import Piecework.Json

/-!
# JSON text as a document

Scanning a text gives its tree and the text behind it, or no rest where the
text is damaged. A string is scanned twice, once for its content and once for
its end, because content may be at fault (a lone surrogate) where the end is
well marked.
-/

namespace Piecework.Json

/-- A character that may stand between the units of JSON text. -/
def isSpace (c : Char) : Bool := c == ' ' || c == '\n' || c == '\t' || c == '\r'

/-- The text without leading space. -/
def skipSpace (cs : List Char) : List Char := cs.dropWhile isSpace

/-- The value of a hexadecimal digit. -/
def hexValue? (c : Char) : Option Nat :=
  if c.isDigit then some (c.toNat - '0'.toNat)
  else if 'a' ≤ c ∧ c ≤ 'f' then some (c.toNat - 'a'.toNat + 10)
  else if 'A' ≤ c ∧ c ≤ 'F' then some (c.toNat - 'A'.toNat + 10)
  else none

/-- The number written by four hexadecimal digits. -/
def hex4? (a b c d : Char) : Option Nat := do
  let a ← hexValue? a
  let b ← hexValue? b
  let c ← hexValue? c
  let d ← hexValue? d
  return ((a * 16 + b) * 16 + c) * 16 + d

/-- The fault of a text that does not go on with four hexadecimal digits: it is truncated when
fewer than four bytes are left. -/
def hexFault (cs : List Char) : Fault :=
  if (String.ofList (cs.take 4)).utf8ByteSize < 4 then .truncated else .malformed

/-- The character after a backslash that stands for one character. -/
def unescape? : Char → Option Char
  | '"' => some '"'
  | '\\' => some '\\'
  | '/' => some '/'
  | 'b' => some '\x08'
  | 'f' => some '\x0c'
  | 'n' => some '\n'
  | 'r' => some '\r'
  | 't' => some '\t'
  | _ => none

/-- The text behind the closing quote of a string whose opening quote has been read. -/
def afterString : List Char → Except Fault (List Char)
  | [] => .error .truncated
  | '"' :: rest => .ok rest
  | '\\' :: 'u' :: a :: b :: c :: d :: rest =>
    match hex4? a b c d with
    | some _ => afterString rest
    | none => .error (hexFault (a :: b :: c :: d :: rest))
  | '\\' :: 'u' :: rest => .error (hexFault rest)
  | '\\' :: c :: rest => if (unescape? c).isSome then afterString rest else .error .malformed
  | '\\' :: [] => .error .truncated
  | c :: rest => if c.toNat < 0x20 then .error .malformed else afterString rest

/-- Put a character in front of a content that may be at fault. -/
def withChar (c : Char) (content : Except Fault (List Char)) : Except Fault (List Char) :=
  content.map (c :: ·)

/-- The character of a surrogate pair. -/
def joined (high low : Nat) : Char :=
  Char.ofNat (0x10000 + (high - 0xD800) * 0x400 + (low - 0xDC00))

/-- The content of a string whose opening quote has been read. -/
def stringContent : List Char → Except Fault (List Char)
  | [] => .error .truncated
  | '"' :: _ => .ok []
  | '\\' :: 'u' :: a :: b :: c :: d :: rest =>
    match hex4? a b c d with
    | none => .error (hexFault (a :: b :: c :: d :: rest))
    | some n =>
      if 0xDC00 ≤ n ∧ n ≤ 0xDFFF then .error .malformed
      else if 0xD800 ≤ n ∧ n ≤ 0xDBFF then
        match rest with
        | '\\' :: 'u' :: e :: f :: g :: h :: rest' =>
          match hex4? e f g h with
          | none => .error (hexFault (e :: f :: g :: h :: rest'))
          | some m =>
            if 0xDC00 ≤ m ∧ m ≤ 0xDFFF then withChar (joined n m) (stringContent rest')
            else .error .malformed
        | '\\' :: 'u' :: rest' => .error (hexFault rest')
        | '\\' :: [] => .error .truncated
        | [] => .error .truncated
        | _ => .error .malformed
      else withChar (Char.ofNat n) (stringContent rest)
  | '\\' :: 'u' :: rest => .error (hexFault rest)
  | '\\' :: c :: rest =>
    match unescape? c with
    | some e => withChar e (stringContent rest)
    | none => .error .malformed
  | '\\' :: [] => .error .truncated
  | c :: rest => if c.toNat < 0x20 then .error .malformed else withChar c (stringContent rest)

/-- The digits at the start of a text and what follows them. -/
def digitRun (cs : List Char) : List Char × List Char :=
  (cs.takeWhile Char.isDigit, cs.dropWhile Char.isDigit)

/-- Whether a number of some digits, scaled by a power of ten, is too large for a double: it
reaches the middle between the largest double and the next power of two. -/
def isExcessive (digits : List Char) (scale : Int) : Bool :=
  let m := Decimal.value digits
  let size := (Decimal.digits m).length
  if m = 0 then false
  else if scale + size > 310 then true
  else if scale + size < 309 then false
  else
    let middle := Nat.pow 2 1024 - Nat.pow 2 970
    decide (middle * Nat.pow 10 (-scale).toNat ≤ m * Nat.pow 10 scale.toNat)

/-- A damaged number: truncated for a reader who wants it when the text ends there. -/
def brokenNumber (rest : List Char) : Node × Option (List Char) :=
  (.damaged (if rest.isEmpty then .truncated else .malformed) .malformed, none)

/-- The finite or excessive number of some digits, scaled by a power of ten. -/
def scaled (digits : List Char) (scale : Int) : Node :=
  .number (if isExcessive digits scale then .excessive else .fraction)

/-- The end of a number, from its exponent mark on. -/
def exponent (digits : List Char) (scale : Int) (cs : List Char) : Node × Option (List Char) :=
  let (negative, cs) := match cs with
    | '+' :: rest => (false, rest)
    | '-' :: rest => (true, rest)
    | _ => (false, cs)
  let (ds, rest) := digitRun cs
  if ds.isEmpty then brokenNumber rest
  else
    let e : Int := Decimal.value ds
    (scaled digits (scale + if negative then -e else e), some rest)

/-- The end of a number, after its integer digits. -/
def fraction (negative : Bool) (digits : List Char) : List Char → Node × Option (List Char)
  | '.' :: cs =>
    let (ds, rest) := digitRun cs
    if ds.isEmpty then brokenNumber rest
    else
      let scale : Int := -(ds.length : Int)
      match rest with
      | 'e' :: rest => exponent (digits ++ ds) scale rest
      | 'E' :: rest => exponent (digits ++ ds) scale rest
      | rest => (scaled (digits ++ ds) scale, some rest)
  | 'e' :: rest => exponent digits 0 rest
  | 'E' :: rest => exponent digits 0 rest
  | rest =>
    let n := Decimal.value digits
    if isExcessive digits 0 then (.number .excessive, some rest)
    else if negative then
      (.number (if n = 0 then .fraction else .integer (-(n : Int))), some rest)
    else (.number (.integer n), some rest)

/-- A number, after its sign. -/
def magnitude (negative : Bool) (cs : List Char) : Node × Option (List Char) :=
  match digitRun cs with
  | ([], rest) => brokenNumber rest
  | ('0' :: _ :: _, _) => (.damaged .malformed .malformed, none)
  | (ds, rest) => fraction negative ds rest

/-- A value with a fixed spelling. -/
def literal (v : Node) : List Char → List Char → Node × Option (List Char)
  | [], rest => (v, some rest)
  | _ :: _, [] => (.damaged .truncated .truncated, none)
  | e :: es, c :: cs => if e = c then literal v es cs else (.damaged .malformed .malformed, none)

/-- A string, after its opening quote. -/
def quoted (cs : List Char) : Node × Option (List Char) :=
  let content := (stringContent cs).map String.ofList
  match afterString cs with
  | .ok rest => (.text content, some rest)
  | .error passed =>
    (.damaged (match content with | .error f => f | .ok _ => passed) passed, none)

mutual

/-- A value and the text behind it. -/
def scan : Nat → List Char → Node × Option (List Char)
  | 0, _ => (.damaged .truncated .truncated, none)
  | fuel + 1, cs =>
    match skipSpace cs with
    | [] => (.damaged .truncated .truncated, none)
    | 'n' :: rest => literal .null ['u', 'l', 'l'] rest
    | 't' :: rest => literal (.bool true) ['r', 'u', 'e'] rest
    | 'f' :: rest => literal (.bool false) ['a', 'l', 's', 'e'] rest
    | '"' :: rest => quoted rest
    | '-' :: rest => magnitude true rest
    | '[' :: rest =>
      let (items, atEnd, rest) := scanItems fuel true rest
      (.list items atEnd, rest)
    | '\x7b' :: rest =>
      let (members, atEnd, rest) := scanMembers fuel true rest
      (.record members atEnd, rest)
    | c :: rest =>
      if c.isDigit then magnitude false (c :: rest) else (.damaged .malformed .malformed, none)

/-- The items of a list up to its closing bracket. -/
def scanItems : Nat → Bool → List Char → List Node × Option Fault × Option (List Char)
  | 0, _, _ => ([], some .truncated, none)
  | fuel + 1, first, cs =>
    match skipSpace cs, first with
    | [], _ => ([], some .truncated, none)
    | ']' :: rest, _ => ([], none, some rest)
    | ',' :: rest, false => scanItem fuel rest
    | cs, true => scanItem fuel cs
    | _, false => ([], some .malformed, none)

/-- An item of a list and those behind it. -/
def scanItem : Nat → List Char → List Node × Option Fault × Option (List Char)
  | 0, _ => ([], some .truncated, none)
  | fuel + 1, cs =>
    match scan fuel cs with
    | (v, none) => ([v], none, none)
    | (v, some rest) =>
      let (items, atEnd, rest) := scanItems fuel false rest
      (v :: items, atEnd, rest)

/-- The members of a record up to its closing brace. -/
def scanMembers : Nat → Bool → List Char →
    List (Except Fault String × Node) × Option Fault × Option (List Char)
  | 0, _, _ => ([], some .truncated, none)
  | fuel + 1, first, cs =>
    match skipSpace cs, first with
    | [], _ => ([], some .truncated, none)
    | '\x7d' :: rest, _ => ([], none, some rest)
    | ',' :: rest, false =>
      match skipSpace rest with
      | [] => ([], some .truncated, none)
      | '"' :: rest => scanMember fuel rest
      | _ => ([], some .malformed, none)
    | '"' :: rest, true => scanMember fuel rest
    | _, _ => ([], some .malformed, none)

/-- A member of a record, after the opening quote of its name, and those behind it. -/
def scanMember : Nat → List Char →
    List (Except Fault String × Node) × Option Fault × Option (List Char)
  | 0, _ => ([], some .truncated, none)
  | fuel + 1, cs =>
    match quoted cs with
    | (.text name, some rest) =>
      match skipSpace rest with
      | [] => ([(name, .damaged .truncated .truncated)], none, none)
      | ':' :: rest =>
        match scan fuel rest with
        | (v, none) => ([(name, v)], none, none)
        | (v, some rest) =>
          let (members, atEnd, rest) := scanMembers fuel false rest
          ((name, v) :: members, atEnd, rest)
      | _ => ([(name, .damaged .malformed .malformed)], none, none)
    | (.damaged wanted passed, _) => ([(.error wanted, .damaged wanted passed)], none, none)
    | _ => ([], some .malformed, none)

end

/-- The tree of a text and the text behind it; each call consumes a character before it goes
deeper, so the budget never runs out. -/
def document (text : String) : Node × Option (List Char) :=
  scan (4 * text.length + 4) text.toList

/-- Read the value that a text starts with, whatever follows it. -/
def readLeading {α : Type} (read : Node → Except DecodeError α) (text : String) :
    Except DecodeError α :=
  read (document text).1

/-- Read a text that is one value. -/
def readWhole {α : Type} (read : Node → Except DecodeError α) (text : String) :
    Except DecodeError α :=
  match document text with
  | (n, rest) =>
    match read n with
    | .error e => .error e
    | .ok v => if (skipSpace (rest.getD [])).isEmpty then .ok v else .error (.fault .malformed)

end Piecework.Json

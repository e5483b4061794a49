import Piecework.Document
import Piecework.Json.Scan

/-!
# Configuration files

The part of YAML that configuration files use: block mappings and sequences,
flow collections and quoted scalars on one line, plain scalars that may go on
over deeper lines, comments, and one document with or without its marker. Block
scalars, anchors, tags, complex keys and several documents are refused. A file
is a document or nothing; where it goes wrong is not told.
-/

namespace Piecework.Yaml

/-- A line that is neither empty nor a comment: its indentation and its characters. -/
structure Line where
  indent : Nat
  chars : List Char
  deriving DecidableEq, Repr

/-- Space inside a line. -/
def isSpace (c : Char) : Bool := c == ' ' || c == '\t'

/-- The characters without leading space. -/
def skipSpace (cs : List Char) : List Char := cs.dropWhile isSpace

/-- The characters without space at their end. -/
def trimEnd (cs : List Char) : List Char := (cs.reverse.dropWhile isSpace).reverse

/-- Whether nothing but space and a comment is left. A comment stands at the start or after
space. -/
def isSpent (cs : List Char) : Bool :=
  match skipSpace cs with
  | [] => true
  | '#' :: _ => decide (cs.length ≠ (skipSpace cs).length)
  | _ => false

/-- The lines of a text, cut at line feeds, carriage returns, or both together. -/
def split : List Char → List (List Char)
  | [] => [[]]
  | '\r' :: '\n' :: cs => [] :: split cs
  | '\n' :: cs => [] :: split cs
  | '\r' :: cs => [] :: split cs
  | c :: cs =>
    match split cs with
    | [] => [[c]]
    | l :: ls => (c :: l) :: ls

/-- Whether a line holds nothing but space and a comment. -/
def isIdle (cs : List Char) : Bool :=
  match skipSpace cs with
  | [] => true
  | '#' :: _ => true
  | _ => false

/-- The indented line of a row of characters; a tab may not indent. -/
def line? (cs : List Char) : Option Line :=
  let rest := cs.dropWhile (· = ' ')
  match rest with
  | '\t' :: _ => none
  | _ => some ⟨cs.length - rest.length, rest⟩

/-- The value of a plain scalar as a natural number: decimal without needless zeros, or
hexadecimal, octal or binary, after at most one plus sign. -/
def natural? (cs : List Char) : Option Nat :=
  let radix (base : Nat) (ds : List Char) : Option Nat :=
    if ds.isEmpty then none
    else ds.foldl (fun n c => do
      let n ← n
      let d ← Json.hexValue? c
      if d < base then some (n * base + d) else none) (some 0)
  let body := match cs with
    | '+' :: rest => rest
    | _ => cs
  match body with
  | '0' :: 'x' :: ds => radix 16 ds
  | '0' :: 'o' :: ds => radix 8 ds
  | '0' :: 'b' :: ds => radix 2 ds
  | '0' :: _ :: _ => none
  | ds => if Decimal.isNumeral ds then some (Decimal.value ds) else none

/-- What a plain scalar stands for. -/
def sense (cs : List Char) : Sense :=
  if cs = [] ∨ cs = ['~'] ∨ cs = ['n', 'u', 'l', 'l'] ∨ cs = ['N', 'u', 'l', 'l']
      ∨ cs = ['N', 'U', 'L', 'L'] then .nothing
  else match natural? cs with
    | some n => .natural n
    | none => .word

/-- A plain scalar as a value. -/
def plain (cs : List Char) : Node := .plain (String.ofList cs) (sense cs)

/-- A character that brackets or separates flow collections. -/
def isFlowMark (c : Char) : Bool :=
  c == ',' || c == '[' || c == ']' || c == '\x7b' || c == '\x7d'

/-- Whether a plain scalar may start here: not with an indicator, and with one of `-?:` only when
something follows at once. -/
def startsPlain (flow : Bool) : List Char → Bool
  | [] => false
  | c :: cs =>
    if c == '-' || c == '?' || c == ':' then
      match cs with
      | [] => false
      | d :: _ => !isSpace d && !(flow && isFlowMark d)
    else !(isFlowMark c || c == '#' || c == '&' || c == '*' || c == '!' || c == '|' || c == '>'
      || c == '\'' || c == '"' || c == '%' || c == '@' || c == '\x60')

/-- The characters of a plain scalar and what ends it: a colon before space or the end, a comment,
or inside a flow collection one of its marks. -/
def plainRun (flow : Bool) : List Char → List Char × List Char
  | [] => ([], [])
  | ':' :: cs =>
    let ends := match cs with
      | [] => true
      | d :: _ => isSpace d || (flow && isFlowMark d)
    if ends then ([], ':' :: cs)
    else
      let r := plainRun flow cs
      (':' :: r.1, r.2)
  | c :: cs =>
    if flow && isFlowMark c then ([], c :: cs)
    else if isSpace c && cs.head? == some '#' then ([], c :: cs)
    else
      let r := plainRun flow cs
      (c :: r.1, r.2)

/-- The content of a scalar in single quotes, after the first, and what follows. -/
def singleQuoted : List Char → Option (List Char × List Char)
  | [] => none
  | '\'' :: '\'' :: cs => (singleQuoted cs).map fun r => ('\'' :: r.1, r.2)
  | '\'' :: cs => some ([], cs)
  | c :: cs => (singleQuoted cs).map fun r => (c :: r.1, r.2)

/-- The character of an escape letter in double quotes. -/
def unescape? : Char → Option Char
  | '0' => some '\x00'
  | 'a' => some '\x07'
  | 'b' => some '\x08'
  | 't' => some '\t'
  | '\t' => some '\t'
  | 'n' => some '\n'
  | 'v' => some '\x0b'
  | 'f' => some '\x0c'
  | 'r' => some '\r'
  | 'e' => some '\x1b'
  | ' ' => some ' '
  | '"' => some '"'
  | '/' => some '/'
  | '\\' => some '\\'
  | 'N' => some '\u0085'
  | '_' => some '\u00a0'
  | 'L' => some '\u2028'
  | 'P' => some '\u2029'
  | _ => none

/-- The number of hexadecimal digits after an escape letter. -/
def hexLength? : Char → Option Nat
  | 'x' => some 2
  | 'u' => some 4
  | 'U' => some 8
  | _ => none

/-- The character of a code point that is one. -/
def char? (n : Nat) : Option Char := if n.isValidChar then some (Char.ofNat n) else none

/-- The character written by hexadecimal digits. -/
def hexChar? (ds : List Char) : Option Char := do
  let n ← ds.foldl (fun n c => do
    let n ← n
    let d ← Json.hexValue? c
    return n * 16 + d) (some 0)
  char? n

/-- The content of a scalar in double quotes, after the first, and what follows. -/
def doubleQuoted : Nat → List Char → Option (List Char × List Char)
  | 0, _ => none
  | _ + 1, [] => none
  | _ + 1, '"' :: cs => some ([], cs)
  | fuel + 1, '\\' :: c :: cs =>
    match unescape? c, hexLength? c with
    | some d, _ => (doubleQuoted fuel cs).map fun r => (d :: r.1, r.2)
    | none, some n =>
      if cs.length < n then none
      else match hexChar? (cs.take n) with
        | none => none
        | some d => (doubleQuoted fuel (cs.drop n)).map fun r => (d :: r.1, r.2)
    | none, none => none
  | _ + 1, '\\' :: [] => none
  | fuel + 1, c :: cs => (doubleQuoted fuel cs).map fun r => (c :: r.1, r.2)

/-- A scalar in quotes, if one starts here, and what follows. -/
def quoted? : List Char → Option (List Char × List Char)
  | '\'' :: cs => singleQuoted cs
  | '"' :: cs => doubleQuoted (cs.length + 1) cs
  | _ => none

/-- Whether a scalar in quotes starts here. -/
def startsQuoted : List Char → Bool
  | '\'' :: _ => true
  | '"' :: _ => true
  | _ => false

/-- A scalar on one line as a value, and what follows. -/
def scalar? (flow : Bool) (cs : List Char) : Option (Node × List Char) :=
  if startsQuoted cs then (quoted? cs).map fun r => (.text (.ok (String.ofList r.1)), r.2)
  else if startsPlain flow cs then
    let r := plainRun flow cs
    some (plain (trimEnd r.1), r.2)
  else none

mutual

/-- A value inside a flow collection, and what follows. -/
def flowValue : Nat → List Char → Option (Node × List Char)
  | 0, _ => none
  | fuel + 1, cs =>
    match skipSpace cs with
    | '[' :: rest => (flowItems fuel rest).map fun r => (.unusable, r)
    | '\x7b' :: rest => (flowMembers fuel rest).map fun r => (.record r.1 none, r.2)
    | rest => scalar? true rest

/-- The items of a flow sequence, read over. -/
def flowItems : Nat → List Char → Option (List Char)
  | 0, _ => none
  | fuel + 1, cs =>
    match skipSpace cs with
    | ']' :: rest => some rest
    | rest =>
      match flowValue fuel rest with
      | none => none
      | some (_, rest) =>
        match skipSpace rest with
        | ',' :: rest => flowItems fuel rest
        | ']' :: rest => some rest
        | ':' :: rest =>
          match flowValue fuel rest with
          | none => none
          | some (_, rest) =>
            match skipSpace rest with
            | ',' :: rest => flowItems fuel rest
            | ']' :: rest => some rest
            | _ => none
        | _ => none

/-- The members of a flow mapping, and what follows its closing brace. -/
def flowMembers : Nat → List Char → Option (List (Except Fault String × Node) × List Char)
  | 0, _ => none
  | fuel + 1, cs =>
    match skipSpace cs with
    | '\x7d' :: rest => some ([], rest)
    | rest =>
      match scalar? true rest with
      | some (.text name, rest) => flowMember fuel name rest
      | some (.plain name _, rest) => flowMember fuel (.ok name) rest
      | _ => none

/-- A member of a flow mapping after its name, and those behind it. -/
def flowMember : Nat → Except Fault String → List Char →
    Option (List (Except Fault String × Node) × List Char)
  | 0, _, _ => none
  | fuel + 1, name, cs =>
    let value := match skipSpace cs with
      | ':' :: rest =>
        match skipSpace rest with
        | ',' :: rest => some (plain [], ',' :: rest)
        | '\x7d' :: rest => some (plain [], '\x7d' :: rest)
        | rest => flowValue fuel rest
      | rest => some (plain [], rest)
    match value with
    | none => none
    | some (v, rest) =>
      match skipSpace rest with
      | ',' :: rest => (flowMembers fuel rest).map fun r => ((name, v) :: r.1, r.2)
      | '\x7d' :: rest => some ([(name, v)], rest)
      | _ => none

end

/-- Whether a flow collection starts here. -/
def startsFlow : List Char → Bool
  | '[' :: _ => true
  | '\x7b' :: _ => true
  | _ => false

/-- The name of a block member and what follows its colon, if the line is one. -/
def member? (cs : List Char) : Option (String × List Char) :=
  match scalar? false cs with
  | some (.text (.ok name), rest) =>
    match skipSpace rest with
    | ':' :: rest => if rest.isEmpty || rest.head?.any isSpace then some (name, rest) else none
    | _ => none
  | some (.plain name _, ':' :: rest) => some (name, rest)
  | _ => none

/-- Whether the line is an item of a block sequence. -/
def isItem : List Char → Bool
  | ['-'] => true
  | '-' :: c :: _ => isSpace c
  | _ => false

/-- Join a plain scalar with the deeper lines that go on with it. -/
def goOn (indent : Nat) (soFar : List Char) : List Line → Option (List Char × List Line)
  | [] => some (soFar, [])
  | l :: ls =>
    if l.indent ≤ indent then some (soFar, l :: ls)
    else
      let r := plainRun false l.chars
      if isSpent r.2 then goOn indent (soFar ++ ' ' :: trimEnd r.1) ls else none

/-- A value on the rest of a line at an indentation, and the lines behind it. -/
def inlineValue (indent : Nat) (cs : List Char) (ls : List Line) : Option (Node × List Line) :=
  if startsFlow cs then
    match flowValue (4 * cs.length + 4) cs with
    | some (v, rest) => if isSpent rest then some (v, ls) else none
    | none => none
  else if startsQuoted cs then
    match scalar? false cs with
    | some (v, rest) => if isSpent rest then some (v, ls) else none
    | none => none
  else if startsPlain false cs then
    let r := plainRun false cs
    if r.2.isEmpty then (goOn indent (trimEnd r.1) ls).map fun r => (plain r.1, r.2)
    else if isSpent r.2 then some (plain (trimEnd r.1), ls)
    else none
  else none

mutual

/-- The block that starts with the first line, at that line's indentation, and the lines behind
it. -/
def block : Nat → List Line → Option (Node × List Line)
  | 0, _ => none
  | _ + 1, [] => some (plain [], [])
  | fuel + 1, l :: ls =>
    if isItem l.chars then (blockItems fuel l.indent (l :: ls)).map fun r => (.unusable, r)
    else if (member? l.chars).isSome then
      (blockMembers fuel l.indent (l :: ls)).map fun r => (.record r.1 none, r.2)
    else match l.indent with
      | 0 => inlineValue 0 l.chars ls
      | n + 1 => inlineValue n l.chars ls

/-- The value after a member's colon or an item's dash, which may stand on deeper lines. -/
def blockValue : Nat → Nat → Bool → List Char → List Line → Option (Node × List Line)
  | 0, _, _, _, _ => none
  | fuel + 1, indent, inMember, cs, ls =>
    if isSpent cs || cs.isEmpty then
      match ls with
      | [] => some (plain [], [])
      | l :: _ =>
        if indent < l.indent || (inMember && decide (indent = l.indent) && isItem l.chars) then
          block fuel ls
        else some (plain [], ls)
    else inlineValue indent (skipSpace cs) ls

/-- The members of a block mapping at an indentation, and the lines behind it. -/
def blockMembers : Nat → Nat → List Line →
    Option (List (Except Fault String × Node) × List Line)
  | 0, _, _ => none
  | _ + 1, _, [] => some ([], [])
  | fuel + 1, indent, l :: ls =>
    if l.indent < indent then some ([], l :: ls)
    else if indent < l.indent then none
    else match member? l.chars with
      | none => none
      | some (name, rest) =>
        match blockValue fuel indent true rest ls with
        | none => none
        | some (v, ls) =>
          (blockMembers fuel indent ls).map fun r => ((.ok name, v) :: r.1, r.2)

/-- The items of a block sequence at an indentation, read over. -/
def blockItems : Nat → Nat → List Line → Option (List Line)
  | 0, _, _ => none
  | _ + 1, _, [] => some []
  | fuel + 1, indent, l :: ls =>
    if l.indent < indent then some (l :: ls)
    else if indent < l.indent then none
    else if isItem l.chars then
      let rest := l.chars.drop 1
      let inner := skipSpace rest
      let value :=
        if !inner.isEmpty && ((member? inner).isSome || isItem inner) then
          block fuel (⟨indent + (l.chars.length - inner.length), inner⟩ :: ls)
        else blockValue fuel indent false rest ls
      match value with
      | none => none
      | some (_, ls) => blockItems fuel indent ls
    else some (l :: ls)

end

/-- Whether a line is a document marker, and what follows it. -/
def afterMarker? (mark : Char) (cs : List Char) : Option (List Char) :=
  match cs with
  | a :: b :: c :: rest =>
    if a = mark ∧ b = mark ∧ c = mark ∧ (rest.isEmpty || rest.head?.any isSpace) then some rest
    else none
  | _ => none

/-- The lines of the one document of a file, between its markers. -/
def body? (rows : List (List Char)) : Option (List (List Char)) :=
  let rows := rows.dropWhile isIdle
  let rows := match rows with
    | [] => []
    | r :: rest =>
      match afterMarker? '-' r with
      | some tail => tail :: rest
      | none => r :: rest
  let content := rows.takeWhile fun r => (afterMarker? '.' r).isNone
  let behind := rows.drop (content.length + 1)
  if content.any (fun r => (afterMarker? '-' r).isSome) || !behind.all isIdle then none
  else some content

/-- A character that a file may contain. -/
def isAllowed (c : Char) : Bool :=
  let n := c.toNat
  n == 0x9 || n == 0xA || n == 0xD || (0x20 ≤ n && n ≤ 0x7E) || n == 0x85
    || (0xA0 ≤ n && n ≠ 0xFFFE && n ≠ 0xFFFF)

/-- The text without a byte order mark at its start. -/
def withoutMark : List Char → List Char
  | '\ufeff' :: cs => cs
  | cs => cs

/-- The document of a file, if the file is well formed. -/
def document? (text : String) : Option Node := do
  let cs := withoutMark text.toList
  if !cs.all isAllowed then none
  let rows ← body? (split cs)
  let lines ← (rows.filter fun r => !isIdle r).mapM line?
  match ← block (4 * cs.length + 4) lines with
  | (v, []) => some v
  | _ => none

/-- Read a file. -/
def read? {α : Type} (decode : Node → Except DecodeError α) (text : String) : Option α := do
  let n ← document? text
  (decode n).toOption

end Piecework.Yaml

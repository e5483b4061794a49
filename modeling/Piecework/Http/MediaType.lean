/-!
# Media types

A media type is a type, a subtype and parameters, all of token characters;
parameter values may be quoted. Only the question whether a body is JSON is
asked of it: `application/json`, or a subtype that ends in `+json`.
-/

namespace Piecework.Http

/-- A character of a token. -/
def isTokenChar (c : Char) : Bool :=
  (decide (c.toNat < 128) && c.isAlphanum)
    || ['!', '#', '$', '%', '&', '\'', '*', '+', '-', '.', '^', '_', '\x60', '|', '~'].contains c

/-- A character that a header value may contain to be looked at: visible ASCII, space or tab. -/
def isVisible (c : Char) : Bool := c == '\t' || (32 ≤ c.toNat && c.toNat < 127)

/-- Whether the rest of a quoted value, after some characters, is well formed; an empty value is
not one. -/
def quotedEnd (nonempty : Bool) : List Char → Option (List Char)
  | [] => none
  | c :: cs =>
    if c = '"' ∧ nonempty then
      match cs.dropWhile (· = ' ') with
      | [] => some []
      | ';' :: rest => some rest
      | _ => none
    else if 31 < c.toNat ∧ c.toNat ≠ 127 then quotedEnd true cs
    else none

/-- Read over one parameter, after the spaces before it. -/
def parameter? (cs : List Char) : Option (List Char) :=
  let name := cs.takeWhile isTokenChar
  match cs.dropWhile isTokenChar with
  | '=' :: '"' :: rest => if name.isEmpty then none else quotedEnd false rest
  | '=' :: rest =>
    if name.isEmpty then none
    else
      let value := rest.takeWhile isTokenChar
      match rest.dropWhile isTokenChar with
      | [] => some []
      | ';' :: rest => if value.isEmpty then none else some rest
      | _ => none
  | _ => none

/-- Whether a row of parameters is well formed. -/
def areParameters : Nat → List Char → Bool
  | 0, _ => false
  | fuel + 1, cs =>
    match cs.dropWhile (· = ' ') with
    | [] => true
    | rest =>
      match parameter? rest with
      | none => false
      | some rest => areParameters fuel rest

/-- The subtype before its last plus sign and the suffix behind it. -/
def suffixCut (subtype : List Char) : List Char × Option (List Char) :=
  match subtype with
  | [] => ([], none)
  | c :: cs =>
    if cs.contains '+' then
      let suffix := (cs.reverse.takeWhile (· ≠ '+')).reverse
      (c :: cs.take (cs.length - suffix.length - 1), some suffix)
    else (subtype, none)

/-- Whether a content type says that a body is JSON. -/
def isJsonType (contentType : String) : Bool :=
  let cs := contentType.toList
  let lower := (cs.map Char.toLower)
  let top := lower.takeWhile isTokenChar
  match lower.dropWhile isTokenChar with
  | '/' :: rest =>
    let subtype := rest.takeWhile isTokenChar
    let wellFormed := match rest.dropWhile isTokenChar with
      | [] => true
      | ';' :: parameters => !subtype.isEmpty && areParameters (parameters.length + 1) parameters
      | _ => false
    let json := ['j', 's', 'o', 'n']
    let (base, suffix) := suffixCut subtype
    cs.all isVisible && wellFormed && top == ['a', 'p', 'p', 'l', 'i', 'c', 'a', 't', 'i', 'o', 'n']
      && (base == json || suffix == some json)
  | _ => false

end Piecework.Http

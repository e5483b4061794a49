import Piecework.Decimal

/-!
# Documents and how they are read

A document is the tree of a text, as far as the text goes: where it is damaged
the tree holds a damaged leaf. Readers walk the tree in the order of the text
and stop at the first problem, so what stands behind a problem is never looked
at. A reader that passes over a value is more lenient inside strings and numbers
than one that wants it, and damaged leaves keep both answers.
-/

namespace Piecework

/-- What is wrong with a text. -/
inductive Fault where
  | malformed
  | truncated
  deriving DecidableEq, Repr

/-- Why a document cannot be read: its text is at fault, or it does not fit what is wanted. -/
inductive DecodeError where
  | fault (f : Fault)
  | unsuitable
  deriving DecidableEq, Repr

/-- A written number: a plain integer, another finite number, or one too large to hold. -/
inductive Numeral where
  | integer (i : Int)
  | fraction
  | excessive
  deriving DecidableEq, Repr

/-- What a scalar without quotes stands for where no text is wanted. -/
inductive Sense where
  | nothing
  | natural (n : Nat)
  | word
  deriving DecidableEq, Repr

/-- The tree of a text. A closed list or record has no fault at its end. A damaged leaf has the
faults that a reader who wants it and one who passes over it find. -/
inductive Node where
  | null
  | bool (b : Bool)
  | number (n : Numeral)
  | text (content : Except Fault String)
  | plain (s : String) (sense : Sense)
  | unusable
  | list (items : List Node) (atEnd : Option Fault)
  | record (members : List (Except Fault String × Node)) (atEnd : Option Fault)
  | damaged (wanted passed : Fault)

namespace Node

/-- The error of a reader that wanted something else. -/
def refusal : Node → DecodeError
  | number .excessive => .fault .malformed
  | text (.error f) => .fault f
  | damaged wanted _ => .fault wanted
  | _ => .unsuitable

mutual

/-- The fault found by passing over a value. -/
def passFault? : Node → Option Fault
  | damaged _ passed => some passed
  | list items atEnd => (passItems? items).or atEnd
  | record members atEnd => (passMembers? members).or atEnd
  | _ => none

/-- The first fault found by passing over a row of values. -/
def passItems? : List Node → Option Fault
  | [] => none
  | v :: rest => (passFault? v).or (passItems? rest)

/-- The first fault found by passing over a row of members, whatever their names. -/
def passMembers? : List (Except Fault String × Node) → Option Fault
  | [] => none
  | (_, v) :: rest => (passFault? v).or (passMembers? rest)

end

mutual

/-- The fault found by reading a value of any shape, at most `depth` containers deep. -/
def wantFault? (depth : Nat) : Node → Option Fault
  | number .excessive => some .malformed
  | text (.error f) => some f
  | damaged wanted _ => some wanted
  | list items atEnd =>
    match depth with
    | 0 => some .malformed
    | d + 1 => (wantItems? d items).or atEnd
  | record members atEnd =>
    match depth with
    | 0 => some .malformed
    | d + 1 => (wantMembers? d members).or atEnd
  | _ => none

/-- The first fault found by reading a row of values. -/
def wantItems? (depth : Nat) : List Node → Option Fault
  | [] => none
  | v :: rest => (wantFault? depth v).or (wantItems? depth rest)

/-- The first fault found by reading a row of members with their names. -/
def wantMembers? (depth : Nat) : List (Except Fault String × Node) → Option Fault
  | [] => none
  | (.error f, _) :: _ => some f
  | (.ok _, v) :: rest => (wantFault? depth v).or (wantMembers? depth rest)

end

/-- A natural number of at most `limit`. -/
def natural (limit : Nat) : Node → Except DecodeError Nat
  | number (.integer i) => if 0 ≤ i ∧ i ≤ limit then .ok i.toNat else .error .unsuitable
  | plain _ (.natural n) => if n ≤ limit then .ok n else .error .unsuitable
  | n => .error n.refusal

/-- A signed 64-bit number. -/
def signed : Node → Except DecodeError Int64
  | number (.integer i) =>
    match signed? i with
    | some v => .ok v
    | none => .error .unsuitable
  | n => .error n.refusal

/-- A string. -/
def string : Node → Except DecodeError String
  | text (.ok s) => .ok s
  | plain s _ => .ok s
  | n => .error n.refusal

/-- A value that may be absent. -/
def optional {α : Type} (read : Node → Except DecodeError α) :
    Node → Except DecodeError (Option α)
  | null => .ok none
  | plain _ .nothing => .ok none
  | n => (read n).map some

end Node

/-- A named part of a record and the check that its value must pass when it is met. -/
structure Part where
  name : String
  check : Node → Except DecodeError Unit

/-- A part that is read in a certain way. -/
def Part.of {α : Type} (name : String) (read : Node → Except DecodeError α) : Part :=
  ⟨name, fun n => (read n).map fun _ => ()⟩

/-- The parts found in a document with their values. -/
abbrev Parts := List (String × Node)

namespace Parts

/-- Read the members of a record: unknown names are passed over, a known name may come once. -/
def ofMembers (known : List Part) (found : Parts) (atEnd : Option Fault) :
    List (Except Fault String × Node) → Except DecodeError Parts
  | [] =>
    match atEnd with
    | none => .ok found
    | some f => .error (.fault f)
  | (.error f, _) :: _ => .error (.fault f)
  | (.ok name, v) :: rest =>
    match known.find? (·.name = name) with
    | none =>
      match v.passFault? with
      | none => ofMembers known found atEnd rest
      | some f => .error (.fault f)
    | some part =>
      if (found.lookup name).isSome then .error .unsuitable
      else match part.check v with
        | .error e => .error e
        | .ok _ => ofMembers known ((name, v) :: found) atEnd rest

/-- Read the items of a list as the known parts in order; an item too many is malformed. -/
def ofItems (atEnd : Option Fault) : List Part → Parts → List Node → Except DecodeError Parts
  | _, found, [] =>
    match atEnd with
    | none => .ok found
    | some f => .error (.fault f)
  | [], _, _ :: _ => .error (.fault .malformed)
  | part :: known, found, v :: rest =>
    match part.check v with
    | .error e => .error e
    | .ok _ => ofItems atEnd known ((part.name, v) :: found) rest

/-- The known parts of a document that is a record or a list; nothing at all stands for an empty
record. -/
def ofNode (known : List Part) : Node → Except DecodeError Parts
  | .record members atEnd => ofMembers known [] atEnd members
  | .list items atEnd => ofItems atEnd known [] items
  | .plain _ .nothing => .ok []
  | n => .error n.refusal

/-- The value of a part that must be there. -/
def required {α : Type} (found : Parts) (name : String) (read : Node → Except DecodeError α) :
    Except DecodeError α :=
  match found.lookup name with
  | none => .error .unsuitable
  | some n => read n

/-- The value of a part that has a default. -/
def orElse {α : Type} (found : Parts) (name : String) (read : Node → Except DecodeError α)
    (default : α) : Except DecodeError α :=
  match found.lookup name with
  | none => .ok default
  | some n => read n

end Parts

end Piecework

import Piecework.Expression
import Piecework.Json.Scan
import Piecework.Task

/-!
# Wire formats

Tasks, reports and statuses as JSON. A task names its expression, operation,
two arguments and cost; a report leaves out an absent error; a status names its
variant and puts the content beside it. Reading takes records in any order of
members, or lists in the order of writing.
-/

namespace Piecework

namespace Operator

/-- An operator is written as its symbol. -/
def toJson (op : Operator) : Json := .text op.symbol.toString

/-- The operator of a string of one symbol. -/
def decode (n : Node) : Except DecodeError Operator :=
  match n.string with
  | .error e => .error e
  | .ok s =>
    match Operator.ofText s.toList with
    | .ok op => .ok op
    | .error _ => .error .unsuitable

end Operator

/-- An unsigned 64-bit number. -/
def Node.word (n : Node) : Except DecodeError Nat := n.natural wordMax

namespace Task

/-- A task on the wire. -/
def toJson (t : Task) : Json :=
  .record [("id", .natural t.id), ("expression", .natural t.expression),
    ("operation", t.operator.toJson), ("arg1", .integer t.left.toInt),
    ("arg2", .integer t.right.toInt), ("operation_time", .natural t.cost)]

/-- The parts of a task. -/
def parts : List Part :=
  [.of "id" Node.word, .of "expression" Node.word, .of "operation" Operator.decode,
    .of "arg1" Node.signed, .of "arg2" Node.signed, .of "operation_time" Node.word]

/-- Read a task. -/
def decode (n : Node) : Except DecodeError Task := do
  let found ← Parts.ofNode parts n
  let id ← found.required "id" Node.word
  let expression ← found.required "expression" Node.word
  let operator ← found.required "operation" Operator.decode
  let left ← found.required "arg1" Node.signed
  let right ← found.required "arg2" Node.signed
  let cost ← found.required "operation_time" Node.word
  return ⟨⟨expression, operator, left, right, cost⟩, id⟩

/-- A task as it is handed to a worker. -/
def envelope (t : Task) : Json := .record [("task", t.toJson)]

/-- Read the task that was handed to a worker. -/
def decodeEnvelope (n : Node) : Except DecodeError Task := do
  let found ← Parts.ofNode [.of "task" decode] n
  found.required "task" decode

end Task

namespace Report

/-- A report on the wire. -/
def toJson (r : Report) : Json :=
  .record ([("id", .natural r.id), ("result", .integer r.result.toInt)]
    ++ match r.error with
      | none => []
      | some e => [("error", .text e)])

/-- The parts of a report. -/
def parts : List Part :=
  [.of "id" Node.word, .of "result" Node.signed, .of "error" (Node.optional Node.string)]

/-- Read a report; a result that is not given is zero. -/
def decode (n : Node) : Except DecodeError Report := do
  let found ← Parts.ofNode parts n
  let id ← found.required "id" Node.word
  let result ← found.orElse "result" Node.signed 0
  let error ← found.orElse "error" (Node.optional Node.string) none
  return ⟨id, result, error⟩

end Report

namespace Status

/-- A status on the wire. -/
def toJson (s : Status) : Json :=
  .record (("status", .text s.name) :: match s with
    | processing => []
    | done v => [("value", .integer v.toInt)]
    | failed reason => [("value", .text reason)])

/-- The variants of a status without their content. -/
inductive Variant where
  | processing
  | done
  | failed
  deriving DecidableEq, Repr

/-- The variant with a name. -/
def Variant.ofName (s : String) : Except DecodeError Variant :=
  if s = "processing" then .ok processing
  else if s = "done" then .ok done
  else if s = "error" then .ok failed
  else .error .unsuitable

/-- Read a variant: its name, or a record of its name with nothing in it. -/
def Variant.decode : Node → Except DecodeError Variant
  | .text (.ok s) => ofName s
  | .text (.error f) => .error (.fault f)
  | .damaged wanted _ => .error (.fault wanted)
  | .record [] (some f) => .error (.fault f)
  | .record ((.error f, _) :: _) _ => .error (.fault f)
  | .record ((.ok s, v) :: rest) atEnd =>
    match ofName s, v with
    | .error e, _ => .error e
    | .ok t, .null =>
      match rest, atEnd with
      | [], none => .ok t
      | [], some f => .error (.fault f)
      | _ :: _, _ => .error (.fault .malformed)
    | .ok _, v => .error v.refusal
  | _ => .error (.fault .malformed)

/-- Read the content of a variant. -/
def content : Variant → Node → Except DecodeError Status
  | .processing, .null => .ok processing
  | .processing, v => .error v.refusal
  | .done, v => v.signed.map done
  | .failed, v => v.string.map failed

/-- The number of containers that a content may be deep when it comes before its variant. -/
def contentDepth : Nat := 126

/-- What has been read of a status. -/
inductive Progress where
  | nothing
  | variant (t : Variant)
  | content (v : Node)
  | whole (s : Status)

/-- Read the members of a status, the variant and the content in any order. -/
def ofMembers (atEnd : Option Fault) :
    Progress → List (Except Fault String × Node) → Except DecodeError Status
  | p, [] =>
    match atEnd, p with
    | some f, _ => .error (.fault f)
    | none, .variant .processing => .ok processing
    | none, .whole s => .ok s
    | none, _ => .error .unsuitable
  | _, (.error f, _) :: _ => .error (.fault f)
  | p, (.ok name, v) :: rest =>
    if name = "status" then
      match p with
      | .nothing =>
        match Variant.decode v with
        | .error e => .error e
        | .ok t => ofMembers atEnd (.variant t) rest
      | .content c =>
        match Variant.decode v with
        | .error e => .error e
        | .ok t =>
          match content t c with
          | .error e => .error e
          | .ok s => ofMembers atEnd (.whole s) rest
      | _ => .error .unsuitable
    else if name = "value" then
      match p with
      | .nothing =>
        match v.wantFault? contentDepth with
        | some f => .error (.fault f)
        | none => ofMembers atEnd (.content v) rest
      | .variant t =>
        match content t v with
        | .error e => .error e
        | .ok s => ofMembers atEnd (.whole s) rest
      | _ => .error .unsuitable
    else
      match v.passFault? with
      | some f => .error (.fault f)
      | none => ofMembers atEnd p rest

/-- Read a status as a record, or as a list of variant and content. -/
def decode : Node → Except DecodeError Status
  | .record members atEnd => ofMembers atEnd .nothing members
  | .list items atEnd =>
    match items with
    | [] =>
      match atEnd with
      | some f => .error (.fault f)
      | none => .error .unsuitable
    | t :: rest =>
      match Variant.decode t, rest with
      | .error e, _ => .error e
      | .ok _, [] =>
        match atEnd with
        | some f => .error (.fault f)
        | none => .error .unsuitable
      | .ok t, v :: rest =>
        match content t v, rest, atEnd with
        | .error e, _, _ => .error e
        | .ok s, [], none => .ok s
        | .ok _, [], some f => .error (.fault f)
        | .ok _, _ :: _, _ => .error (.fault .malformed)
  | n => .error n.refusal

end Status

namespace Costs

/-- The costs of the operators by name. -/
def toJson (c : Costs) : Json :=
  .record [("addition_ms", .natural c.addition), ("subtraction_ms", .natural c.subtraction),
    ("multiplication_ms", .natural c.multiplication), ("division_ms", .natural c.division)]

/-- The parts of a table of costs. -/
def parts : List Part :=
  [.of "addition_ms" Node.word, .of "subtraction_ms" Node.word,
    .of "multiplication_ms" Node.word, .of "division_ms" Node.word]

/-- Read a table of costs; costs that are not given keep their defaults. -/
def decode (n : Node) : Except DecodeError Costs := do
  let found ← Parts.ofNode parts n
  let default : Costs := {}
  let addition ← found.orElse "addition_ms" Node.word default.addition
  let subtraction ← found.orElse "subtraction_ms" Node.word default.subtraction
  let multiplication ← found.orElse "multiplication_ms" Node.word default.multiplication
  let division ← found.orElse "division_ms" Node.word default.division
  return ⟨addition, subtraction, multiplication, division⟩

end Costs

end Piecework

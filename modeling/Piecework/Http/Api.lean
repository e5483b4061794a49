import Piecework.Broker
import Piecework.Http.MediaType
import Piecework.Http.Target
import Piecework.Wire

/-!
# The HTTP interface of a broker

A request is answered from the broker's state at a moment. A request that is
rejected before its handler runs, because of its path, method, content type,
body or query, leaves the broker as it was. A body is a text here: one that is
not UTF-8 has no counterpart, so nothing is said about such requests. Times of
creation and change come from a wall clock that is not modelled, so a stamp
stands for them. The wording of rejections is not modelled either.
-/

namespace Piecework.Http

/-- One request whose body is UTF-8. -/
structure Request where
  method : String
  target : Target
  contentType : Option String := none
  body : String := ""
  deriving DecidableEq, Repr

/-- What an answer carries: nothing, a value, a text, or the wording of a rejection. -/
inductive Body where
  | empty
  | json (v : Json)
  | text (s : String)
  | rejection

/-- An answer. -/
structure Response where
  status : Nat
  body : Body

/-- An answer without a body. -/
def Response.bare (status : Nat) : Response := ⟨status, .empty⟩

/-- An answer that carries an error message. -/
def Response.error (status : Nat) (message : String) : Response :=
  ⟨status, .json (.record [("error", .text message)])⟩

/-- The answer without its body. -/
def Response.head (r : Response) : Response := { r with body := .empty }

/-- The resources of the public interface. -/
inductive Resource where
  | calculate
  | expressions
  | expression (segment : List Char)
  | task
  | health
  deriving DecidableEq, Repr

/-- The resource of a path. -/
def resource? (t : Target) : Option Resource :=
  match t.segments? with
  | none => none
  | some segments =>
    match segments.map String.ofList with
    | ["api", "v1", "calculate"] => some .calculate
    | ["api", "v1", "expressions"] => some .expressions
    | ["api", "v1", "expressions", s] => if s.isEmpty then none else some (.expression s.toList)
    | ["internal", "task"] => some .task
    | ["health"] => some .health
    | _ => none

/-- What a method asks for; a method may ask for the answer without its body. -/
inductive Verb where
  | get (headOnly : Bool)
  | post
  | other
  deriving DecidableEq, Repr

/-- The verb of a method. -/
def Verb.ofMethod (method : String) : Verb :=
  if method = "GET" then .get false
  else if method = "HEAD" then .get true
  else if method = "POST" then .post
  else .other

/-- The body of a request to calculate. -/
structure Calculation where
  text : String
  owner : Nat := 0
  deriving DecidableEq, Repr

/-- Read a request to calculate. -/
def Calculation.decode (n : Node) : Except DecodeError Calculation := do
  let found ← Parts.ofNode [.of "expression" Node.string, .of "owner" Node.word] n
  let text ← found.required "expression" Node.string
  let owner ← found.orElse "owner" Node.word 0
  return ⟨text, owner⟩

/-- An expression with the stamp of its creation and of its last change. -/
def expressionJson (stamp : Json) (e : Expression) : Json :=
  .record ([("id", .natural e.id), ("owner", .natural e.owner), ("expression", .text e.text),
      ("status", .text e.status.name)]
    ++ (match e.status.result? with
      | some v => [("result", Json.integer v.toInt)]
      | none => [])
    ++ (match e.status.reason? with
      | some reason => [("error", Json.text reason)]
      | none => [])
    ++ [("postfix", .text e.program.text), ("created_at", stamp), ("updated_at", stamp)])

/-- The bytes that a body may have. -/
def bodyLimit : Nat := 2097152

/-- Read the body of a request, or the answer that rejects it. -/
def Request.read {α : Type} (decode : Node → Except DecodeError α) (r : Request) :
    Except Response α :=
  if r.contentType.any isJsonType then
    if bodyLimit < r.body.utf8ByteSize then .error ⟨413, .rejection⟩
    else match Json.readLeading decode r.body with
      | .ok v => .ok v
      | .error (.fault _) => .error ⟨400, .rejection⟩
      | .error .unsuitable => .error ⟨422, .rejection⟩
  else .error ⟨415, .rejection⟩

/-- The owner that a query asks for, if it asks for one; a repeated or unreadable owner is
rejected. -/
def ownerOf (query : List Char) : Except Response (Option Nat) :=
  match (fields query).filter (·.1 == some "owner".toList) with
  | [] => .ok none
  | [(_, value)] =>
    match value.bind (Decimal.unsigned? wordMax) with
    | some n => .ok (some n)
    | none => .error ⟨400, .rejection⟩
  | _ => .error ⟨400, .rejection⟩

/-- The number in a path segment. -/
def numberOf (segment : List Char) : Except Response Nat :=
  match (segmentText? segment).bind (Decimal.unsigned? wordMax) with
  | some n => .ok n
  | none => .error ⟨400, .rejection⟩

/-- Submit the expression of a request. -/
def calculate (r : Request) (b : Broker) : Response × Broker :=
  match r.read Calculation.decode with
  | .error a => (a, b)
  | .ok c =>
    match b.submit c.text c.owner with
    | .error e => (.error 400 ("Invalid expression: " ++ e.message), b)
    | .ok (id, b) => (⟨201, .json (.record [("id", .natural id)])⟩, b)

/-- Show the expressions of an owner, or all. -/
def showExpressions (stamp : Json) (r : Request) (b : Broker) : Response :=
  match ownerOf r.target.query with
  | .error a => a
  | .ok owner =>
    let shown := (b.table.list owner).map (expressionJson stamp)
    ⟨200, .json (.record [("expressions", .list shown)])⟩

/-- Show one expression. -/
def showExpression (stamp : Json) (segment : List Char) (b : Broker) : Response :=
  match numberOf segment with
  | .error a => a
  | .ok id =>
    match b.status id with
    | .error e => .error 404 e.message
    | .ok e => ⟨200, .json (expressionJson stamp e)⟩

/-- Offer a task to the client. -/
def offerTask (now : Time) (b : Broker) : Response × Broker :=
  match b.poll now with
  | (none, b) => (.error 404 "No task available", b)
  | (some t, b) => (⟨200, .json t.envelope⟩, b)

/-- Accept the report of a request. -/
def acceptReport (r : Request) (b : Broker) : Response × Broker :=
  match r.read Report.decode with
  | .error a => (a, b)
  | .ok report =>
    match b.report report with
    | (.error e, b) => (.error 404 e.message, b)
    | (.ok _, b) => (⟨200, .json (.record [])⟩, b)

/-- Show that the broker is alive. -/
def showHealth (b : Broker) : Response :=
  ⟨200, .json (.record [("status", .text "healthy"), ("queued_tasks", .natural b.queue.size),
    ("expressions", .natural b.table.size)])⟩

/-- Answer a request for a resource with its full body. -/
def answer (stamp : Json) (now : Time) (res : Resource) (v : Verb) (r : Request) (b : Broker) :
    Response × Broker :=
  match res, v with
  | .calculate, .post => calculate r b
  | .expressions, .get _ => (showExpressions stamp r b, b)
  | .expression s, .get _ => (showExpression stamp s b, b)
  | .task, .get _ => offerTask now b
  | .task, .post => acceptReport r b
  | .health, .get _ => (showHealth b, b)
  | _, _ => (.bare 405, b)

/-- Answer a request to the public interface; one that asks for the head alone is handled like the
whole. -/
def respond (stamp : Json) (now : Time) (r : Request) (b : Broker) : Response × Broker :=
  match resource? r.target with
  | none => (.bare 404, b)
  | some res =>
    let v := Verb.ofMethod r.method
    let a := answer stamp now res v r b
    if v = .get true then (a.1.head, a.2) else a

/-- Answer a request to the metrics interface, which only shows the metrics. -/
def respondMetrics (r : Request) (b : Broker) : Response :=
  if r.target.path = "/metrics".toList then
    match Verb.ofMethod r.method with
    | .get headOnly => ⟨200, if headOnly then .empty else .text b.metrics.text⟩
    | _ => .bare 405
  else .bare 404

end Piecework.Http

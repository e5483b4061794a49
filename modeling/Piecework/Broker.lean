import Piecework.Expression
import Piecework.Infix
import Piecework.Metrics
import Piecework.Queue

/-!
# The broker

The broker owns the queue and the table and drives each expression from
submission to a final status. Every operation is one step on the whole state.
Time is an argument; what happens between operations, such as a watchdog
firing, is a step of its own and decided elsewhere.
-/

namespace Piecework

/-- The broker's state, with the costs it puts on new tasks. -/
structure Broker where
  costs : Costs := {}
  queue : Queue := {}
  table : Table := {}
  metrics : Metrics := {}
  deriving DecidableEq, Repr

namespace Broker

/-- The reason of an expression whose claim lapsed. -/
def timeoutReason : String := "timeout"

/-- Count one expression event. -/
def noteExpression (event : ExpressionEvent) (b : Broker) : Broker :=
  { b with metrics := b.metrics.countExpression event.label }

/-- Count task events. -/
def noteTasks (event : TaskEvent) (n : Nat) (b : Broker) : Broker :=
  { b with metrics := b.metrics.countTasks event.label n }

/-- Set the gauges to the queue as it is now. -/
def gauge (b : Broker) : Broker :=
  { b with metrics := b.metrics.setDepth b.queue.size b.queue.claimed }

/-- Whether an expression exists and has not finished. -/
def isOpen (b : Broker) (id : ExpressionId) : Bool := (b.table.get? id).any (! ·.isFinal)

/-- Drop every queued task of an expression. -/
def dropTasks (id : ExpressionId) (b : Broker) : Broker :=
  let r := b.queue.discard id
  { b with queue := r.2 }.noteTasks .discarded r.1.length

/-- Finish an expression with a value. -/
def finish (id : ExpressionId) (v : Int64) (b : Broker) : Broker :=
  if b.isOpen id then
    { b with table := b.table.modify id (·.complete v) }.noteExpression .done
  else b

/-- Fail an expression, if it is still open, and drop its tasks in any case. -/
def abandon (id : ExpressionId) (reason : String) (b : Broker) : Broker :=
  let failed := if b.isOpen id then
      { b with table := b.table.modify id (·.fail reason) }.noteExpression .failed
    else b
  failed.dropTasks id

/-- Take over the result of a pass. -/
def applyReduction (id : ExpressionId) (r : Reduction) (b : Broker) : Broker :=
  let counted := b.noteTasks .created r.spawned.length
  match r.outcome with
  | .pending => { counted with table := counted.table.modify id (·.advance r.program) }
  | .completed v => counted.finish id v
  | .failed e => counted.abandon id e.message

/-- Run one pass over a program of an expression and take over its result. -/
def runPass (id : ExpressionId) (p : Program) (b : Broker) : Broker :=
  let r := p.reduce Queue.sink b.costs id b.queue
  { b with queue := r.2 }.applyReduction id r.1

/-- Submit infix text; text that does not compile changes nothing. -/
def submit (text : String) (owner : Nat) (b : Broker) :
    Except InfixError (ExpressionId × Broker) :=
  match Infix.compile text with
  | .error e => .error e
  | .ok p =>
    let r := b.table.insert owner text p
    .ok (r.1, (({ b with table := r.2 }.noteExpression .submitted).runPass r.1 p).gauge)

/-- Fail the expression of a task whose claim lapsed. -/
def timeOut (t : Task) (b : Broker) : Broker :=
  (b.noteTasks .timedOut 1).abandon t.expression timeoutReason

/-- Remove every lapsed claim and fail its expression. -/
def reap (now : Time) (b : Broker) : Broker :=
  let r := b.queue.takeExpired now
  r.1.foldl (fun b t => b.timeOut t) { b with queue := r.2 }

/-- Offer a task to a worker, after the claims that lapsed unnoticed are reaped. -/
def poll (now : Time) (b : Broker) : Option Task × Broker :=
  let b := b.reap now
  match b.queue.claim now with
  | none => (none, b.gauge)
  | some (t, _, q) => (some t, { b with queue := q }.gauge)

/-- The watchdog of a task: fail the expression if the claim has lapsed. -/
def reclaim (id : TaskId) (now : Time) (b : Broker) : Broker :=
  match b.queue.reclaim id now with
  | none => b
  | some (t, q) => ({ b with queue := q }.timeOut t).gauge

/-- Put a reported value into the task's expression and run the next pass. -/
def resume (e : Expression) (id : TaskId) (v : Int64) (b : Broker) : Broker :=
  let b := { b with table := b.table.modify e.id (·.substitute id v) }
  if e.program.mentions id then b.runPass e.id (e.program.substitute id v)
  else b.abandon e.id ProgramError.malformed.message

/-- Accept a worker's report for a queued task. -/
def report (r : Report) (b : Broker) : Except LookupError Unit × Broker :=
  match b.queue.complete r.id with
  | none => (.error (.taskNotFound r.id), b)
  | some (t, q) =>
    let b := { b with queue := q }.noteTasks .completed 1
    match b.table.get? t.expression with
    | none => (.error (.expressionNotFound t.expression), b)
    | some e =>
      if e.isFinal then (.ok (), b.gauge)
      else match r.failure with
        | some reason => (.ok (), (b.abandon e.id reason).gauge)
        | none => (.ok (), (b.resume e t.id r.result).gauge)

/-- The expression with a number. -/
def status (id : ExpressionId) (b : Broker) : Except LookupError Expression :=
  match b.table.get? id with
  | none => .error (.expressionNotFound id)
  | some e => .ok e

/-- The operators still waiting in open programs, and the tasks nobody holds: a bound on how
many tasks can be offered before a new expression comes. -/
def workload (b : Broker) : Nat :=
  ((b.table.expressions.filter (! ·.isFinal)).map (·.program.operatorCount)).foldr (· + ·) 0
    + b.queue.entries.countP (! ·.isClaimed)

/-- One task served on the spot: offered, computed and reported. -/
structure Service where
  task : Task
  report : Report
  answer : Except LookupError Unit

/-- Serve at most `limit` tasks with the clock standing still. -/
def serve (now : Time) : Nat → Broker → List Service × Broker
  | 0, b => ([], b)
  | limit + 1, b =>
    match b.poll now with
    | (none, b) => ([], b)
    | (some t, b) =>
      let a := b.report t.compute
      let rest := serve now limit a.2
      (⟨t, t.compute, a.1⟩ :: rest.1, rest.2)

/-- Serve tasks until none is offered. -/
def drain (now : Time) (b : Broker) : List Service × Broker := b.serve now (b.workload + 1)

end Broker

end Piecework

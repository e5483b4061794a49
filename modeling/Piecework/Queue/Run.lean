import Piecework.Queue

/-!
# Runs of the queue

A run is any sequence of queue operations with any arguments, where times may
go backwards. Each operation reports what it handed out and what it removed, and
the reports of a run make up its history.
-/

namespace Piecework

/-- One operation on a queue. -/
inductive QueueCall where
  | add (d : Draft)
  | claim (now : Time)
  | complete (id : TaskId)
  | reclaim (id : TaskId) (now : Time)
  | takeExpired (now : Time)
  | discard (expression : ExpressionId)
  deriving DecidableEq, Repr

namespace QueueCall

/-- What an operation adds to the queue. -/
def draft? : QueueCall → Option Draft
  | .add d => some d
  | _ => none

/-- Whether an operation takes an entry out of the queue. -/
def takes : QueueCall → Entry → Bool
  | .add _, _ | .claim _, _ => false
  | .complete id, e => e.task.id = id
  | .reclaim id now, e => e.hasLapsed now && e.task.id = id
  | .takeExpired now, e => e.hasLapsed now
  | .discard expression, e => e.task.expression = expression

/-- How an operation retires the watchdogs of the claimed entries that it takes: a watchdog that
reclaims its own task is released, and any other is cancelled. -/
def retirement : QueueCall → TaskId → Retirement
  | .reclaim _ _ => .released
  | _ => .cancelled

end QueueCall

/-- The tasks of a row of drafts, numbered on from a number that was given already. -/
def Draft.numbered : TaskId → List Draft → List Task
  | _, [] => []
  | n, d :: ds => ⟨d, n + 1⟩ :: numbered (n + 1) ds

/-- What an operation on a queue did: the task it handed out and the tasks it removed. -/
structure QueueEffect where
  claimed : Option Task := none
  removed : List Task := []
  deriving DecidableEq, Repr

namespace Queue

/-- Carry out an operation. -/
def perform (q : Queue) : QueueCall → QueueEffect × Queue
  | .add d => ({}, (q.add d).2)
  | .claim now =>
    match q.claim now with
    | none => ({}, q)
    | some (t, _, q) => ({ claimed := some t }, q)
  | .complete id =>
    match q.complete id with
    | none => ({}, q)
    | some (t, q) => ({ removed := [t] }, q)
  | .reclaim id now =>
    match q.reclaim id now with
    | none => ({}, q)
    | some (t, q) => ({ removed := [t] }, q)
  | .takeExpired now => ({ removed := (q.takeExpired now).1 }, (q.takeExpired now).2)
  | .discard expression => ({ removed := (q.discard expression).1 }, (q.discard expression).2)

/-- The queue after a row of operations. -/
def after (q : Queue) : List QueueCall → Queue
  | [] => q
  | c :: cs => (q.perform c).2.after cs

/-- The effects of a row of operations. -/
def effects (q : Queue) : List QueueCall → List QueueEffect
  | [] => []
  | c :: cs => (q.perform c).1 :: (q.perform c).2.effects cs

/-- The tasks that a row of operations hands out, in order. -/
def claims (q : Queue) (cs : List QueueCall) : List Task := (q.effects cs).filterMap (·.claimed)

/-- The tasks that a row of operations removes, in order. -/
def removals (q : Queue) (cs : List QueueCall) : List Task := (q.effects cs).flatMap (·.removed)

end Queue

end Piecework

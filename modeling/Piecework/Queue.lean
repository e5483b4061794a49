import Piecework.Reduction

/-!
# The task queue

Tasks are numbered from one and offered lowest number first. A claim is held
until a deadline and guarded by a watchdog. A claimed task is never offered
again: it leaves the queue when it is completed, when its own watchdog reclaims
it, or when a removal sweeps it up. Each departure retires the watchdog, and the
queue keeps the list of retirements.
-/

namespace Piecework

/-- A moment in milliseconds on the queue's clock. -/
abbrev Time := Nat

/-- Why a lookup by number fails. -/
inductive LookupError where
  | taskNotFound (id : TaskId)
  | expressionNotFound (id : ExpressionId)
  deriving DecidableEq, Repr

/-- The wording of a lookup error. -/
def LookupError.message : LookupError → String
  | taskNotFound id => "task not found: " ++ Decimal.text id
  | expressionNotFound id => "expression not found: " ++ Decimal.text id

/-- A queued task with the deadline of its claim. -/
structure Entry where
  task : Task
  deadline : Option Time := none
  deriving DecidableEq, Repr

namespace Entry

/-- Whether a worker holds the task, in time or not. -/
def isClaimed (e : Entry) : Bool := e.deadline.isSome

/-- Whether the claim's deadline has come. -/
def hasLapsed (now : Time) (e : Entry) : Bool := e.deadline.any (· ≤ now)

end Entry

/-- How a watchdog was retired: cancelled from outside, or released by its own reclaim. -/
inductive Retirement where
  | cancelled (id : TaskId)
  | released (id : TaskId)
  deriving DecidableEq, Repr

/-- The task whose watchdog was retired. -/
def Retirement.id : Retirement → TaskId
  | cancelled id | released id => id

/-- The queue: its tasks in order of their numbers, the tasks with a watchdog, the watchdogs
retired so far with the latest first, and the last number given. -/
structure Queue where
  entries : List Entry := []
  watchdogs : List TaskId := []
  retired : List Retirement := []
  lastId : TaskId := 0
  deriving DecidableEq, Repr

namespace Queue

/-- Add an unclaimed task under the next number. -/
def add (d : Draft) (q : Queue) : TaskId × Queue :=
  let id := q.lastId + 1
  (id, { q with entries := q.entries ++ [⟨⟨d, id⟩, none⟩], lastId := id })

/-- The queue as the place where a pass puts its tasks. -/
def sink : Sink Queue := ⟨add⟩

/-- Claim the first unclaimed entry of a row. -/
def claimFirst (now : Time) : List Entry → Option (Task × Time × List Entry)
  | [] => none
  | e :: es =>
    match e.deadline with
    | none =>
      let deadline := now + e.task.claimWindow
      some (e.task, deadline, { e with deadline := some deadline } :: es)
    | some _ =>
      match claimFirst now es with
      | none => none
      | some (t, deadline, es') => some (t, deadline, e :: es')

/-- Claim the lowest-numbered task that nobody holds and arm its watchdog. -/
def claim (now : Time) (q : Queue) : Option (Task × Time × Queue) :=
  match claimFirst now q.entries with
  | none => none
  | some (t, deadline, es) =>
    some (t, deadline, { q with entries := es, watchdogs := q.watchdogs ++ [t.id] })

/-- The entry with a number. -/
def get? (q : Queue) (id : TaskId) : Option Entry := q.entries.find? (·.task.id = id)

/-- The queue without a number, its watchdog retired as told. -/
def drop (id : TaskId) (how : Retirement) (q : Queue) : Queue :=
  { q with
    entries := q.entries.filter (·.task.id ≠ id)
    watchdogs := q.watchdogs.filter (· ≠ id)
    retired := if id ∈ q.watchdogs then how :: q.retired else q.retired }

/-- Remove a task whoever holds it, cancelling its watchdog. -/
def complete (id : TaskId) (q : Queue) : Option (Task × Queue) :=
  match q.get? id with
  | none => none
  | some e => some (e.task, q.drop id (.cancelled id))

/-- Remove a task whose claim has lapsed, on behalf of its own watchdog. -/
def reclaim (id : TaskId) (now : Time) (q : Queue) : Option (Task × Queue) :=
  match q.get? id with
  | none => none
  | some e => if e.hasLapsed now then some (e.task, q.drop id (.released id)) else none

/-- Complete the tasks of a row of numbers, skipping those not queued. -/
def completeAll : List TaskId → Queue → List Task × Queue
  | [], q => ([], q)
  | id :: ids, q =>
    match q.complete id with
    | none => completeAll ids q
    | some (t, q') =>
      let r := completeAll ids q'
      (t :: r.1, r.2)

/-- Remove every task whose claim has lapsed. -/
def takeExpired (now : Time) (q : Queue) : List Task × Queue :=
  completeAll ((q.entries.filter (·.hasLapsed now)).map (·.task.id)) q

/-- Remove every task of an expression. -/
def discard (expression : ExpressionId) (q : Queue) : List Task × Queue :=
  completeAll ((q.entries.filter (·.task.expression = expression)).map (·.task.id)) q

/-- Whether a number is queued. -/
def contains (q : Queue) (id : TaskId) : Bool := (q.get? id).isSome

/-- The number of queued tasks. -/
def size (q : Queue) : Nat := q.entries.length

/-- The number of claimed tasks, lapsed claims included. -/
def claimed (q : Queue) : Nat := q.entries.countP (·.isClaimed)

/-- The number of queued tasks of an expression. -/
def countOf (expression : ExpressionId) (q : Queue) : Nat :=
  q.entries.countP (·.task.expression = expression)

end Queue

end Piecework

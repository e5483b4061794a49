import Piecework.Decimal.Double

/-!
# Metrics and their text

Two counter families keyed by an event and two gauges. The text shows families
by name and samples by event, leaves out a counter family without samples, and
always shows the gauges. Counters wrap at 2 ^ 64 when shown.
-/

namespace Piecework

/-- Counts by event, in order of the events. -/
abbrev Counter := List (String × Nat)

namespace Counter

/-- Raise the count of an event, which from then on has a sample. -/
def add (event : String) (n : Nat) : Counter → Counter
  | [] => [(event, n)]
  | (e, m) :: rest =>
    if e = event then (e, m + n) :: rest
    else if event < e then (event, n) :: (e, m) :: rest
    else (e, m) :: add event n rest

/-- The count of an event. -/
def count (c : Counter) (event : String) : Nat := (c.lookup event).getD 0

end Counter

/-- What happens to an expression. -/
inductive ExpressionEvent where
  | submitted
  | done
  | failed
  deriving DecidableEq, Repr

/-- The label of an expression event. -/
def ExpressionEvent.label : ExpressionEvent → String
  | submitted => "submitted"
  | done => "done"
  | failed => "error"

/-- What happens to a task. -/
inductive TaskEvent where
  | created
  | completed
  | timedOut
  | discarded
  deriving DecidableEq, Repr

/-- The label of a task event. -/
def TaskEvent.label : TaskEvent → String
  | created => "created"
  | completed => "completed"
  | timedOut => "timed_out"
  | discarded => "discarded"

/-- The counters and gauges of a broker. -/
structure Metrics where
  expressions : Counter := []
  tasks : Counter := []
  queued : Nat := 0
  claimed : Nat := 0
  deriving DecidableEq, Repr

namespace Metrics

/-- Count one expression event by its label. -/
def countExpression (label : String) (m : Metrics) : Metrics :=
  { m with expressions := m.expressions.add label 1 }

/-- Count task events by their label; none leaves no sample behind. -/
def countTasks (label : String) (n : Nat) (m : Metrics) : Metrics :=
  if n = 0 then m else { m with tasks := m.tasks.add label n }

/-- Set both gauges. -/
def setDepth (queued claimed : Nat) (m : Metrics) : Metrics :=
  { m with queued := queued, claimed := claimed }

/-- A label value between quotes: backslash, quote and line feed are escaped. -/
def escapedLabel (label : String) : String :=
  String.ofList (label.toList.flatMap fun
    | '\\' => ['\\', '\\']
    | '"' => ['\\', '"']
    | '\n' => ['\\', 'n']
    | c => [c])

/-- The comment lines that open a family. -/
def familyHead (name help kind : String) : String :=
  "# HELP " ++ name ++ " " ++ help ++ "\n# TYPE " ++ name ++ " " ++ kind ++ "\n"

/-- The text of a counter family. -/
def counterText (name help : String) (c : Counter) : String :=
  if c.isEmpty then ""
  else familyHead name help "counter" ++ String.join (c.map fun (event, n) =>
    name ++ "\x7bevent=\"" ++ escapedLabel event ++ "\"\x7d "
      ++ Decimal.sample (n % (wordMax + 1)) ++ "\n")

/-- The text of a gauge, which is a signed 64-bit number. -/
def gaugeText (name help : String) (n : Nat) : String :=
  familyHead name help "gauge" ++ name ++ " "
    ++ Decimal.signedSample (Int64.ofNat n).toInt ++ "\n"

/-- The exposition text of all metrics. -/
def text (m : Metrics) : String :=
  counterText "dc_expressions_total" "Expressions by lifecycle event" m.expressions
    ++ gaugeText "dc_tasks_claimed" "Queued tasks held by a worker" m.claimed
    ++ gaugeText "dc_tasks_queued" "Tasks currently in the queue" m.queued
    ++ counterText "dc_tasks_total" "Tasks by lifecycle event" m.tasks

end Metrics

end Piecework

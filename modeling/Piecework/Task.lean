import Piecework.Token

/-!
# Tasks and reports

A task is one operator on two known values, cut out of an expression and
handed to a worker. A report carries the worker's result or its reason for
having none; an empty reason counts as success.
-/

namespace Piecework

/-- The simulated cost of each operator in milliseconds. -/
structure Costs where
  addition : Nat := 1000
  subtraction : Nat := 1000
  multiplication : Nat := 2000
  division : Nat := 2000
  deriving DecidableEq, Repr

namespace Costs

/-- The same cost for every operator. -/
def uniform (ms : Nat) : Costs := ⟨ms, ms, ms, ms⟩

/-- The cost of an operator. -/
def cost (c : Costs) : Operator → Nat
  | .add => c.addition
  | .sub => c.subtraction
  | .mul => c.multiplication
  | .div => c.division

end Costs

/-- What a task asks for, before the queue has numbered it. -/
structure Draft where
  expression : ExpressionId
  operator : Operator
  left : Int64
  right : Int64
  cost : Nat
  deriving DecidableEq, Repr

/-- One numbered operation on two known values. -/
structure Task extends Draft where
  id : TaskId
  deriving DecidableEq, Repr

/-- How long a worker may hold the task: twice its cost within a word, and never no time. -/
def Task.claimWindow (t : Task) : Nat := max 1 (min (2 * t.cost) wordMax)

/-- A worker's answer to a task. -/
structure Report where
  id : TaskId
  result : Int64 := 0
  error : Option String := none
  deriving DecidableEq, Repr

/-- The worker's reason for having no result. -/
def Report.failure (r : Report) : Option String := r.error.filter (· ≠ "")

/-- A report carries what a way of working says about its task: a result, or a reason for none. -/
def Report.Carries (work : Operator → Int64 → Int64 → Except String Int64) (t : Task)
    (r : Report) : Prop :=
  match work t.operator t.left t.right with
  | .ok v => r.failure = none ∧ r.result = v
  | .error reason => r.failure = some reason

instance (work : Operator → Int64 → Int64 → Except String Int64) (t : Task) (r : Report) :
    Decidable (r.Carries work t) :=
  match h : work t.operator t.left t.right with
  | .ok v => decidable_of_iff (r.failure = none ∧ r.result = v) (by simp [Report.Carries, h])
  | .error reason => decidable_of_iff (r.failure = some reason) (by simp [Report.Carries, h])

/-- Why an operation on known values has no result. -/
inductive ArithmeticError where
  | divisionByZero
  | overflow
  deriving DecidableEq, Repr

/-- The wording of an arithmetic error. -/
def ArithmeticError.message : ArithmeticError → String
  | divisionByZero => "division by zero"
  | overflow => "overflow"

/-- The result of a task, or why it has none. -/
def Task.outcome (t : Task) : Except ArithmeticError Int64 :=
  match t.operator.apply t.left t.right with
  | some v => .ok v
  | none => .error (if t.operator = .div ∧ t.right = 0 then .divisionByZero else .overflow)

/-- The report of a worker that computed the task. -/
def Task.compute (t : Task) : Report :=
  match t.outcome with
  | .ok v => ⟨t.id, v, none⟩
  | .error e => ⟨t.id, 0, some e.message⟩

/-- A computed report is about its task. -/
@[simp] theorem Task.compute_id (t : Task) : t.compute.id = t.id := by
  unfold compute
  split <;> rfl

end Piecework

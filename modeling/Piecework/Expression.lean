import Piecework.Token

/-!
# Expressions and their table

An expression moves once, from processing to done or failed, and a finished one
no longer changes. The table numbers expressions from one in order of arrival
and keeps them after they finish. Wall-clock times are not kept.
-/

namespace Piecework

/-- The state of a submitted expression. -/
inductive Status where
  | processing
  | done (value : Int64)
  | failed (reason : String)
  deriving DecidableEq, Repr

namespace Status

/-- The name of a status on the wire. -/
def name : Status → String
  | processing => "processing"
  | done _ => "done"
  | failed _ => "error"

/-- Whether the status is final. -/
def isFinal : Status → Bool
  | processing => false
  | _ => true

/-- The value of a finished expression. -/
def result? : Status → Option Int64
  | done v => some v
  | _ => none

/-- The reason of a failed expression. -/
def reason? : Status → Option String
  | failed reason => some reason
  | _ => none

end Status

/-- A submitted expression and the program that is left of it. -/
structure Expression where
  id : ExpressionId
  owner : Nat
  text : String
  program : Program
  status : Status := .processing
  deriving DecidableEq, Repr

namespace Expression

/-- Whether the expression has finished. -/
def isFinal (e : Expression) : Bool := e.status.isFinal

/-- Store the program of a pass that left work pending. -/
def advance (p : Program) (e : Expression) : Expression :=
  if e.isFinal then e else { e with program := p }

/-- Move to a status unless the expression has finished. -/
def settle (s : Status) (e : Expression) : Expression :=
  if e.isFinal then e else { e with status := s }

/-- Finish with a value. -/
def complete (v : Int64) (e : Expression) : Expression := e.settle (.done v)

/-- Finish with a reason. -/
def fail (reason : String) (e : Expression) : Expression := e.settle (.failed reason)

/-- Put a task's value into the program, finished or not. -/
def substitute (id : TaskId) (v : Int64) (e : Expression) : Expression :=
  { e with program := e.program.substitute id v }

end Expression

/-- All submitted expressions in order of their numbers. -/
structure Table where
  expressions : List Expression := []
  lastId : ExpressionId := 0
  deriving DecidableEq, Repr

namespace Table

/-- Register a new expression under the next number. -/
def insert (owner : Nat) (text : String) (p : Program) (t : Table) : ExpressionId × Table :=
  let id := t.lastId + 1
  (id, ⟨t.expressions ++ [⟨id, owner, text, p, .processing⟩], id⟩)

/-- The expression with a number. -/
def get? (t : Table) (id : ExpressionId) : Option Expression :=
  t.expressions.find? (·.id = id)

/-- Change the expression with a number, if there is one. -/
def modify (id : ExpressionId) (f : Expression → Expression) (t : Table) : Table :=
  { t with expressions := t.expressions.map fun e => if e.id = id then f e else e }

/-- The expressions of one owner, or of all. -/
def list (owner : Option Nat) (t : Table) : List Expression :=
  match owner with
  | none => t.expressions
  | some o => t.expressions.filter (·.owner = o)

/-- The number of expressions. -/
def size (t : Table) : Nat := t.expressions.length

end Table

end Piecework

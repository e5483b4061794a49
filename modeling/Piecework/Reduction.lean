import Piecework.Task

/-!
# Reducing a program

A pass computes nothing itself. Every operator whose two operands are known
values becomes a task, and the three tokens become one placeholder; an operator
that waits for a placeholder is kept for a later pass. The pass refuses
programs that are not postfix and known divisions by zero. Tasks created before
a failure are listed, and the caller discards them.
-/

namespace Piecework

/-- Where new tasks go: each draft is answered with the number of its task. -/
structure Sink (σ : Type) where
  add : Draft → σ → TaskId × σ

/-- How a pass leaves an expression. -/
inductive Outcome where
  | pending
  | completed (value : Int64)
  | failed (error : ProgramError)
  deriving DecidableEq, Repr

/-- The result of one pass. -/
structure Reduction where
  program : Program
  outcome : Outcome
  spawned : List TaskId
  deriving DecidableEq, Repr

/-- A pass between two tokens: what it wrote and whom it asked for, both latest first, and the
number of complete operands written. -/
structure Pass (σ : Type) where
  written : List Token
  depth : Nat
  spawned : List TaskId
  sink : σ

namespace Pass

/-- Read one token. -/
def read {σ : Type} (sink : Sink σ) (costs : Costs) (expression : ExpressionId) (s : Pass σ) :
    Token → Except ProgramError (Pass σ)
  | .operator op =>
    if s.depth < 2 then .error .malformed
    else match s.written with
      | .number b :: .number a :: rest =>
        if op = .div ∧ b = 0 then .error .divisionByZero
        else
          let (id, sink') := sink.add ⟨expression, op, a, b, costs.cost op⟩ s.sink
          .ok ⟨.task id :: rest, s.depth - 1, id :: s.spawned, sink'⟩
      | written => .ok { s with written := .operator op :: written, depth := s.depth - 1 }
  | operand => .ok { s with written := operand :: s.written, depth := s.depth + 1 }

/-- Read tokens until one is refused; the state is the one before that token. -/
def readAll {σ : Type} (sink : Sink σ) (costs : Costs) (expression : ExpressionId) (s : Pass σ) :
    List Token → Pass σ × Option ProgramError
  | [] => (s, if s.depth = 1 then none else some .malformed)
  | t :: ts =>
    match s.read sink costs expression t with
    | .error e => (s, some e)
    | .ok s' => readAll sink costs expression s' ts

end Pass

/-- One pass over a program; a failed pass leaves the program as it was. -/
def Program.reduce {σ : Type} (sink : Sink σ) (costs : Costs) (expression : ExpressionId)
    (p : Program) (s : σ) : Reduction × σ :=
  match p with
  | [] => (⟨p, .failed .malformed, []⟩, s)
  | [.number v] => (⟨p, .completed v, []⟩, s)
  | [_] => (⟨p, .failed .malformed, []⟩, s)
  | _ =>
    match Pass.readAll sink costs expression ⟨[], 0, [], s⟩ p with
    | (last, none) => (⟨last.written.reverse, .pending, last.spawned.reverse⟩, last.sink)
    | (last, some e) => (⟨p, .failed e, last.spawned.reverse⟩, last.sink)

end Piecework

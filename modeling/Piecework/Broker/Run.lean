import Piecework.Broker

/-!
# Runs of the broker

A run is any sequence of requests, watchdogs firing and time passing, in any
order and for any number of expressions. A watchdog may fire at any time, and
does nothing before its deadline. The trace keeps every event with the moment
at which it happened, from which its reply follows.
-/

namespace Piecework

/-- Something that happens to a broker. -/
inductive Event where
  | submit (text : String) (owner : Nat)
  | poll
  | report (r : Report)
  | reclaim (id : TaskId)
  | wait (ms : Nat)
  deriving DecidableEq, Repr

/-- What comes of an event. -/
inductive Reply where
  | submitted (id : ExpressionId)
  | rejected (e : InfixError)
  | offered (t : Option Task)
  | accepted
  | refused (e : LookupError)
  | nothing
  deriving DecidableEq, Repr

/-- A broker at a moment. -/
structure Moment where
  now : Time := 0
  broker : Broker := {}
  deriving DecidableEq, Repr

namespace Moment

/-- Let an event happen. -/
def step (m : Moment) : Event → Reply × Moment
  | .submit text owner =>
    match m.broker.submit text owner with
    | .error e => (.rejected e, m)
    | .ok (id, b) => (.submitted id, { m with broker := b })
  | .poll =>
    let r := m.broker.poll m.now
    (.offered r.1, { m with broker := r.2 })
  | .report r =>
    match m.broker.report r with
    | (.ok _, b) => (.accepted, { m with broker := b })
    | (.error e, b) => (.refused e, { m with broker := b })
  | .reclaim id => (.nothing, { m with broker := m.broker.reclaim id m.now })
  | .wait ms => (.nothing, { m with now := m.now + ms })

/-- The moment after a row of events. -/
def after (m : Moment) : List Event → Moment
  | [] => m
  | e :: es => (m.step e).2.after es

/-- The events of a run, each with the moment just before it. -/
def trace (m : Moment) : List Event → List (Moment × Event)
  | [] => []
  | e :: es => (m, e) :: (m.step e).2.trace es

/-- The tasks whose claims an event times out. -/
def overdue (m : Moment) : Event → List Task
  | .poll => (m.broker.queue.entries.filter (·.hasLapsed m.now)).map (·.task)
  | .reclaim id =>
    (m.broker.queue.entries.filter fun e => e.task.id = id && e.hasLapsed m.now).map (·.task)
  | _ => []

/-- The report that an event brings and has accepted, with the task it answers. -/
def accepted? (m : Moment) : Event → Option (Task × Report)
  | .report r =>
    if (m.step (.report r)).1 = .accepted then
      (m.broker.queue.get? r.id).map fun e => (e.task, r)
    else none
  | _ => none

/-- The expression whose program an event gives to a pass. -/
def target? (m : Moment) (ev : Event) : Option ExpressionId :=
  match (m.step ev).1 with
  | .submitted id => some id
  | _ => (m.accepted? ev).map (·.1.expression)

/-- The number of tasks that an event creates for an expression, kept or not. -/
def created (x : ExpressionId) (m : Moment) (ev : Event) : Nat :=
  if m.target? ev = some x then (m.step ev).2.broker.queue.lastId - m.broker.queue.lastId else 0

/-- The number of tasks that a run creates for an expression. -/
def createdAll (x : ExpressionId) (m : Moment) (es : List Event) : Nat :=
  ((m.trace es).map fun p => p.1.created x p.2).foldr (· + ·) 0

/-- The numbers of the tasks that a run offers, in order. -/
def offers (m : Moment) (es : List Event) : List TaskId :=
  (m.trace es).filterMap fun p =>
    match (p.1.step p.2).1 with
    | .offered (some t) => some t.id
    | _ => none

/-- An event times out no claim on a task of an expression, and a report that it brings for such a
task follows a rule if it is accepted. -/
def Serves (rule : Task → Report → Prop) (x : ExpressionId) (m : Moment) (ev : Event) : Prop :=
  (∀ a ∈ m.accepted? ev, a.1.expression = x → rule a.1 a.2) ∧
    ∀ t ∈ m.overdue ev, t.expression ≠ x

/-- Every event of a run serves an expression. -/
def ServesAll (rule : Task → Report → Prop) (x : ExpressionId) (m : Moment) (es : List Event) :
    Prop :=
  ∀ p ∈ m.trace es, p.1.Serves rule x p.2

instance (rule : Task → Report → Prop) [∀ t r, Decidable (rule t r)] (x : ExpressionId)
    (m : Moment) (ev : Event) : Decidable (m.Serves rule x ev) :=
  inferInstanceAs (Decidable (_ ∧ _))

instance (rule : Task → Report → Prop) [∀ t r, Decidable (rule t r)] (x : ExpressionId)
    (m : Moment) (es : List Event) : Decidable (m.ServesAll rule x es) :=
  inferInstanceAs (Decidable (∀ p ∈ _, _))

/-- A moment that some run of a new broker comes to. -/
def Reachable (m : Moment) : Prop :=
  ∃ costs events, m = after { broker := { costs := costs } } events

/-- What happens after two rows of events one after the other. -/
theorem after_append (m : Moment) (es fs : List Event) :
    m.after (es ++ fs) = (m.after es).after fs := by
  induction es generalizing m with
  | nil => rfl
  | cons e es ih => exact ih _

/-- A new broker is reachable. -/
theorem Reachable.new (costs : Costs) : Reachable { broker := { costs := costs } } :=
  ⟨costs, [], rfl⟩

/-- One more event leads from a reachable moment to a reachable one. -/
theorem Reachable.step {m : Moment} (h : Reachable m) (e : Event) : Reachable (m.step e).2 := by
  obtain ⟨costs, events, rfl⟩ := h
  exact ⟨costs, events ++ [e], (after_append _ events [e]).symm⟩

end Moment

end Piecework

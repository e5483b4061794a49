import Piecework.Broker
import Piecework.Worker

/-!
# The broker in virtual time

The timeline puts a clock beside the broker. Only sleeping and running a worker
let background work happen: watchdogs at their deadlines, and loops that a
returned worker left behind in the middle of a task. Stalling moves the clock
alone, and what came due meanwhile rings when time next runs.
-/

namespace Piecework

/-- A loop that outlived its worker's grace period: it will report its task and end. -/
structure Straggler where
  task : Task
  since : Time
  due : Time
  deriving DecidableEq, Repr

/-- The broker with the loops left behind. -/
structure Site where
  broker : Broker := {}
  stragglers : List Straggler := []
  deriving DecidableEq, Repr

/-- Who is called by an alarm of the site. -/
inductive Callee where
  | watchdog (id : TaskId)
  | straggler (t : Task)
  deriving DecidableEq, Repr

namespace Site

/-- The watchdog of a claimed entry, set when the claim was made. -/
def watchdog? (e : Entry) : Option (Alarm Callee) :=
  e.deadline.map fun d => ⟨d, d - e.task.claimWindow, .watchdog e.task.id⟩

/-- The alarms of the site, watchdogs first. -/
def alarms (s : Site) : List (Alarm Callee) :=
  s.broker.queue.entries.filterMap watchdog?
    ++ s.stragglers.map fun l => ⟨l.due, l.since, .straggler l.task⟩

/-- The alarm that rings first. -/
def alarm? (s : Site) : Option (Alarm Callee) := Alarm.first? s.alarms

/-- Do what an alarm calls for. -/
def answer (now : Time) (c : Callee) (s : Site) : Site :=
  match c with
  | .watchdog id => { s with broker := s.broker.reclaim id now }
  | .straggler t =>
    { s with
      broker := (s.broker.report t.compute).2
      stragglers := s.stragglers.filter (·.task.id ≠ t.id) }

/-- Ring the alarm that is due first. -/
def ring (now : Time) (s : Site) : Site :=
  match s.alarm? with
  | none => s
  | some a => s.answer now a.call

/-- Ring the alarms due by a moment, each at its own time or now if that has passed. -/
def ringUntil (limit : Time) : Nat → Time → Site → Site
  | 0, _, s => s
  | budget + 1, now, s =>
    match s.alarm? with
    | none => s
    | some a =>
      if a.due ≤ limit then
        let now := max now a.due
        ringUntil limit budget now (s.answer now a.call)
      else s

/-- The broker's answer to a worker's request. -/
def fetch (now : Time) (s : Site) : Fetched × Site :=
  match s.broker.poll now with
  | (none, b) => (.nothing, { s with broker := b })
  | (some t, b) => (.task t, { s with broker := b })

/-- The broker's answer to a worker's report. -/
def send (_ : Time) (r : Report) (s : Site) : Receipt × Site :=
  match s.broker.report r with
  | (.ok _, b) => (.accepted, { s with broker := b })
  | (.error _, b) => (.refused, { s with broker := b })

/-- The site as a source of tasks. -/
def source : Source Site where
  fetch := fetch
  send := send
  alarm? s := s.alarm?.map fun a => ⟨a.due, a.since, ()⟩
  ring := ring
  bound s := s.broker.workload + s.alarms.length

/-- Keep the loops that a returned worker left in the middle of a task. -/
def keep (c : Crew) (s : Site) : Site :=
  { s with stragglers := s.stragglers ++ c.stages.filterMap fun
      | .executing t w => some ⟨t, w.since, w.due⟩
      | _ => none }

end Site

/-- A site and the time it is there. -/
structure Timeline where
  now : Time := 0
  site : Site := {}
  deriving DecidableEq, Repr

namespace Timeline

/-- The broker of the timeline. -/
def broker (t : Timeline) : Broker := t.site.broker

/-- The timeline with another broker. -/
def withBroker (b : Broker) (t : Timeline) : Timeline :=
  { t with site := { t.site with broker := b } }

/-- Submit an expression. -/
def submit (text : String) (owner : Nat) (t : Timeline) :
    Except InfixError ExpressionId × Timeline :=
  match t.broker.submit text owner with
  | .error e => (.error e, t)
  | .ok (id, b) => (.ok id, t.withBroker b)

/-- Offer a task. -/
def poll (t : Timeline) : Option Task × Timeline :=
  let r := t.broker.poll t.now
  (r.1, t.withBroker r.2)

/-- Accept a report. -/
def report (r : Report) (t : Timeline) : Except LookupError Unit × Timeline :=
  let a := t.broker.report r
  (a.1, t.withBroker a.2)

/-- Serve at most `limit` tasks on the spot, or all there are. -/
def serve (limit : Option Nat) (t : Timeline) : List Broker.Service × Timeline :=
  let r := match limit with
    | some n => t.broker.serve t.now n
    | none => t.broker.drain t.now
  (r.1, t.withBroker r.2)

/-- Put a task straight into the queue. -/
def addTask (d : Draft) (t : Timeline) : TaskId × Timeline :=
  let r := t.broker.queue.add d
  (r.1, t.withBroker { t.broker with queue := r.2 })

/-- Let time run; what is due at the end still rings. -/
def sleep (ms : Nat) (t : Timeline) : Timeline :=
  let limit := t.now + ms
  ⟨limit, t.site.ringUntil limit t.site.alarms.length t.now⟩

/-- Move the clock without letting anything happen. -/
def stall (ms : Nat) (t : Timeline) : Timeline := { t with now := t.now + ms }

/-- Run a worker against the broker, asking it to stop after a while, until it returns. -/
def employ (setup : Setup) (ms : Nat) (t : Timeline) : Record × Timeline :=
  let r := Worker.run Site.source setup t.now (t.now + ms) t.site
  (r.1, ⟨r.2.now, r.2.source.keep r.2.crew⟩)

end Timeline

end Piecework

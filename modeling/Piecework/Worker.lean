import Piecework.Alarm

/-!
# Workers

A worker runs independent loops over one source of tasks: fetch, spend the
task's cost, report, fetch again; pause when there is nothing or the source
fails. Loops share nothing but the source, the count of active tasks and the
request to stop. A loop waits for the answer to each call of the source; with a
source that answers at once, `Crew.step` makes a call and goes on with its answer
in one step of one loop, so a statement about every interleaving is a statement
about any choice of steps. `Worker.run` is the choice that virtual time makes:
alarms ring in order, and a loop that rings goes on until it waits again. The
source may have alarms of its own. The request to stop sets a flag and wakes the
loops that pause; each loop ends by itself when it next looks at the flag.
-/

namespace Piecework

/-- A source's answer to a request for a task. -/
inductive Fetched where
  | task (t : Task)
  | nothing
  | failed
  | crashed
  deriving DecidableEq, Repr

/-- A source's answer to a report. -/
inductive Receipt where
  | accepted
  | refused
  | failed (reason : String)
  | crashed
  deriving DecidableEq, Repr

/-- Where loops get tasks from and send reports to. Other work of the source goes on by its own
alarms; `bound` limits the tasks it can still hand out and the alarms it can still ring. -/
structure Source (σ : Type) where
  fetch : Time → σ → Fetched × σ
  send : Time → Report → σ → Receipt × σ
  alarm? : σ → Option (Alarm Unit)
  ring : Time → σ → σ
  bound : σ → Nat

/-- How a worker is set up, times in milliseconds. -/
structure Setup where
  concurrency : Nat := 1
  idle : Nat := 10
  grace : Nat := 60000
  spendsCost : Bool := true
  deriving DecidableEq, Repr

namespace Setup

/-- The number of loops, at least one. -/
def loops (s : Setup) : Nat := max s.concurrency 1

/-- The pause after a failed fetch. -/
def failurePause (s : Setup) : Nat := max s.idle 500

end Setup

/-- A wait from one moment to another, numbered in the order in which loops began to wait. -/
structure Wait where
  since : Time
  due : Time
  turn : Nat
  deriving DecidableEq, Repr

/-- Where a loop stands; one that is fetching or reporting waits for the source's answer. -/
inductive Stage where
  | polling
  | fetching
  | pausing (w : Wait)
  | executing (t : Task) (w : Wait)
  | reporting (t : Task)
  | stopped
  deriving DecidableEq, Repr

namespace Stage

/-- The wait of a loop that is waiting. -/
def wait? : Stage → Option Wait
  | pausing w => some w
  | executing _ w => some w
  | _ => none

/-- Whether the loop can do nothing by itself at a moment. -/
def rests (now : Time) : Stage → Bool
  | polling => false
  | pausing w => now < w.due
  | executing _ w => now < w.due
  | fetching | reporting _ | stopped => true

/-- Cut a pause short: the loop polls again. -/
def wake : Stage → Stage
  | pausing _ => polling
  | s => s

/-- Whether the loop has ended. -/
def isStopped : Stage → Bool
  | stopped => true
  | _ => false

end Stage

/-- Something a loop did. -/
inductive Note where
  | fetched (t : Task)
  | foundNothing
  | fetchFailed
  | fetchCrashed
  | reported (r : Report) (answer : Receipt)
  deriving DecidableEq, Repr

/-- The loops of a worker with what they share. The log has the latest note first. -/
structure Crew where
  stages : List Stage
  active : Nat := 0
  stopping : Bool := false
  turns : Nat := 0
  log : List (Time × Note) := []
  deriving DecidableEq, Repr

namespace Crew

/-- The loops of a worker that starts. -/
def start (setup : Setup) : Crew := { stages := List.replicate setup.loops .polling }

/-- Put a loop at a stage. -/
def put (i : Nat) (s : Stage) (c : Crew) : Crew := { c with stages := c.stages.set i s }

/-- Write a note. -/
def note (now : Time) (n : Note) (c : Crew) : Crew := { c with log := (now, n) :: c.log }

/-- A wait that begins now. -/
def waitFor (now duration : Time) (c : Crew) : Wait := ⟨now, now + duration, c.turns⟩

/-- Count a wait that has begun. -/
def turn (c : Crew) : Crew := { c with turns := c.turns + 1 }

/-- Let a loop pause. -/
def pause (now duration : Time) (i : Nat) (c : Crew) : Crew :=
  (c.put i (.pausing (c.waitFor now duration))).turn

/-- Let a loop begin to execute a task. -/
def execute (setup : Setup) (now : Time) (t : Task) (i : Nat) (c : Crew) : Crew :=
  let cost := if setup.spendsCost then t.cost else 0
  { (c.put i (.executing t (c.waitFor now cost))).turn with active := c.active + 1 }

/-- Let a loop ask for a task, or end when the worker is stopping. -/
def ask (i : Nat) (c : Crew) : Crew := c.put i (if c.stopping then .stopped else .fetching)

/-- Let a loop go on with the answer to its request. -/
def receive (setup : Setup) (now : Time) (i : Nat) (a : Fetched) (c : Crew) : Crew :=
  match a with
  | .task t => (c.note now (.fetched t)).execute setup now t i
  | .nothing => (c.note now .foundNothing).pause now setup.idle i
  | .failed => (c.note now .fetchFailed).pause now setup.failurePause i
  | .crashed => (c.note now .fetchCrashed).put i .stopped

/-- Let a loop go on with the answer to its report; a crash leaves the task counted. -/
def settle (now : Time) (t : Task) (i : Nat) (a : Receipt) (c : Crew) : Crew :=
  let c := c.note now (.reported t.compute a)
  match a with
  | .crashed => c.put i .stopped
  | _ => { c.put i .polling with active := c.active - 1 }

/-- Let a loop ask for a task and go on with the answer, or end when the worker is stopping. -/
def fetch {σ : Type} (src : Source σ) (setup : Setup) (now : Time) (i : Nat) (c : Crew) (s : σ) :
    Crew × σ :=
  if c.stopping then (c.ask i, s)
  else
    let a := src.fetch now s
    ((c.ask i).receive setup now i a.1, a.2)

/-- Let a loop report the task that it has executed and go on with the answer. -/
def deliver {σ : Type} (src : Source σ) (now : Time) (t : Task) (i : Nat) (c : Crew) (s : σ) :
    Crew × σ :=
  let a := src.send now t.compute s
  ((c.put i (.reporting t)).settle now t i a.1, a.2)

/-- One step of one loop; a waiting loop's step is the end of its wait. -/
def step {σ : Type} (src : Source σ) (setup : Setup) (now : Time) (i : Nat) (c : Crew) (s : σ) :
    Crew × σ :=
  match c.stages[i]? with
  | some .polling => c.fetch src setup now i s
  | some (.pausing _) => (c.put i .polling, s)
  | some (.executing t _) => c.deliver src now t i s
  | _ => (c, s)

/-- Set the flag that every loop looks at before it asks for a task. -/
def request (c : Crew) : Crew := { c with stopping := true }

/-- Wake the loops that pause. -/
def notify (c : Crew) : Crew := { c with stages := c.stages.map (·.wake) }

/-- Ask all loops to stop. A loop that is woken ends by its next step, which finds the flag set. -/
def stop (c : Crew) : Crew := c.request.notify

/-- Whether all loops have ended. -/
def isDone (c : Crew) : Bool := c.stages.all (·.isStopped)

/-- The alarms of a row of loops, numbered from an index; loops due together ring in the order in
which they began to wait. -/
def alarms (i : Nat) : List Stage → List (Alarm (Nat × Wait))
  | [] => []
  | s :: rest =>
    match s.wait? with
    | none => alarms (i + 1) rest
    | some w => ⟨w.due, w.turn, (i, w)⟩ :: alarms (i + 1) rest

/-- The loop that rings next. -/
def alarm? (c : Crew) : Option (Alarm Nat) :=
  (Alarm.first? (alarms 0 c.stages)).map fun a => ⟨a.due, a.call.2.since, a.call.1⟩

end Crew

/-- A worker at a moment, with its source. -/
structure Shift (σ : Type) where
  now : Time
  crew : Crew
  source : σ

namespace Shift

/-- One step of one loop. -/
def step {σ : Type} (src : Source σ) (setup : Setup) (i : Nat) (s : Shift σ) : Shift σ :=
  let r := s.crew.step src setup s.now i s.source
  { s with crew := r.1, source := r.2 }

/-- Let a loop go on until it waits or ends, or the budget is spent. -/
def goOn {σ : Type} (src : Source σ) (setup : Setup) (i : Nat) : Nat → Shift σ → Shift σ
  | 0, s => s
  | budget + 1, s =>
    if (s.crew.stages[i]?).all (·.rests s.now) then s
    else goOn src setup i budget (s.step src setup i)

/-- A budget that lets a loop spend every task the source can still hand out. -/
def stretch {σ : Type} (src : Source σ) (s : Shift σ) : Nat := 2 * src.bound s.source + 3

/-- Let a loop go on if it polls. -/
def rouse {σ : Type} (src : Source σ) (setup : Setup) (s : Shift σ) (i : Nat) : Shift σ :=
  if s.crew.stages[i]? = some .polling then s.goOn src setup i (s.stretch src) else s

/-- Let the loops that poll go on, in order. -/
def rouseAll {σ : Type} (src : Source σ) (setup : Setup) (s : Shift σ) : Shift σ :=
  (List.range s.crew.stages.length).foldl (rouse src setup) s

/-- What rings next: a loop, or the source's own alarm. Alarms of the source go before loops that
began to wait at the same moment. -/
def next? {σ : Type} (src : Source σ) (s : Shift σ) : Option (Alarm (Option Nat)) :=
  match src.alarm? s.source, s.crew.alarm? with
  | none, none => none
  | some a, none => some ⟨a.due, a.since, none⟩
  | none, some b => some ⟨b.due, b.since, some b.call⟩
  | some a, some b =>
    if b.isBefore a then some ⟨b.due, b.since, some b.call⟩ else some ⟨a.due, a.since, none⟩

/-- Handle an alarm at its moment, or at once when that has passed. -/
def handle {σ : Type} (src : Source σ) (setup : Setup) (a : Alarm (Option Nat)) (s : Shift σ) :
    Shift σ :=
  let s := { s with now := max s.now a.due }
  match a.call with
  | none => { s with source := src.ring s.now s.source }
  | some i => (s.step src setup i).goOn src setup i (s.stretch src)

/-- Handle alarms in order while `within` allows the next one, or until the budget is spent. -/
def handleAll {σ : Type} (src : Source σ) (setup : Setup) (within : Shift σ → Time → Bool) :
    Nat → Shift σ → Shift σ
  | 0, s => s
  | budget + 1, s =>
    match s.next? src with
    | none => s
    | some a =>
      if within s a.due then handleAll src setup within budget (s.handle src setup a) else s

/-- Handle what is due by now. The budget is enough for every loop and for the source, but a loop
whose pauses have no length is due again at once, and what it leaves is for the next moment. -/
def catchUp {σ : Type} (src : Source σ) (setup : Setup) (s : Shift σ) : Shift σ :=
  s.handleAll src setup (fun s due => decide (due ≤ s.now))
    (s.crew.stages.length + src.bound s.source)

/-- Handle what is due at one moment after the other, before a limit that is at most so many
moments away. -/
def advance {σ : Type} (src : Source σ) (setup : Setup) (limit : Time) : Nat → Shift σ → Shift σ
  | 0, s => s
  | moments + 1, s =>
    let s := s.catchUp src setup
    match s.next? src with
    | none => s
    | some a =>
      let later := max (s.now + 1) a.due
      if later < limit then advance src setup limit moments { s with now := later } else s

/-- Ask the worker to stop. The loops that poll, with those that were woken, go on at once. -/
def halt {σ : Type} (src : Source σ) (setup : Setup) (s : Shift σ) : Shift σ :=
  rouseAll src setup { s with crew := s.crew.stop }

/-- Handle alarms until all loops have ended, or up to a limit, and return then. -/
def await {σ : Type} (src : Source σ) (setup : Setup) (limit : Time) (s : Shift σ) : Shift σ :=
  let within := fun (s : Shift σ) due => decide (due ≤ if s.crew.isDone then s.now else limit)
  let s := s.handleAll src setup within (setup.loops + src.bound s.source)
  { s with now := if s.crew.isDone then s.now else limit }

end Shift

/-- What is seen of a worker that was started, asked to stop, and has returned. The log is in
order of time. -/
structure Record where
  activeAtStop : Nat
  activeAtReturn : Nat
  returnedAt : Time
  log : List (Time × Note)
  deriving DecidableEq, Repr

namespace Worker

/-- Run a worker from its start to just before the moment at which it is asked to stop; a worker
stopped at once never begins. -/
def runUntil {σ : Type} (src : Source σ) (setup : Setup) (now stopAt : Time) (s : σ) :
    Shift σ :=
  let s : Shift σ := ⟨now, Crew.start setup, s⟩
  if stopAt ≤ now then s
  else
    let s := (s.rouseAll src setup).advance src setup stopAt (stopAt - now)
    { s with now := max s.now stopAt }

/-- Ask a worker to stop now and wait for the tasks in flight, at most for the grace period. -/
def shutDown {σ : Type} (src : Source σ) (setup : Setup) (s : Shift σ) : Shift σ :=
  (s.halt src setup).await src setup (s.now + setup.grace)

/-- Run a worker, ask it to stop at a moment, and wait until it returns. -/
def run {σ : Type} (src : Source σ) (setup : Setup) (now stopAt : Time) (s : σ) :
    Record × Shift σ :=
  let before := runUntil src setup now stopAt s
  let after := shutDown src setup before
  (⟨before.crew.active, after.crew.active, after.now, after.crew.log.reverse⟩, after)

end Worker

/-- A source that answers from two lists: nothing to do after the first ends, and every report
accepted after the second ends. -/
structure Script where
  fetches : List Fetched := []
  receipts : List Receipt := []
  deriving DecidableEq, Repr

namespace Script

/-- The next scripted fetch. -/
def fetch (_ : Time) (s : Script) : Fetched × Script :=
  match s.fetches with
  | [] => (.nothing, s)
  | f :: rest => (f, { s with fetches := rest })

/-- The next scripted receipt. -/
def send (_ : Time) (_ : Report) (s : Script) : Receipt × Script :=
  match s.receipts with
  | [] => (.accepted, s)
  | r :: rest => (r, { s with receipts := rest })

/-- A script as a source without alarms. -/
def source : Source Script :=
  ⟨fetch, send, fun _ => none, fun _ s => s, fun s => s.fetches.length⟩

end Script

end Piecework

import Piecework.Worker

/-!
# Interleavings of a worker's loops

A run of a worker is any choice of turns: a loop takes a step, the worker is asked
to stop, the loops that pause are woken, or the source goes on by itself. No clock
decides which loop is next, so a statement about all runs holds for every schedule.

With a source that takes its time, other loops go on between a call and its
answer, and the request to stop may come in between. A run is then any choice of
moves, with any answers, and a turn is a row of moves without a gap. A loop that
waits for an answer is not woken with the loops that pause: if it gets nothing,
it pauses in full before it looks at the flag. With a source that answers at once
no loop stands there between two turns.
-/

namespace Piecework

/-- One choice of a schedule. -/
inductive Turn where
  | loop (i : Nat)
  | request
  | notify
  | source
  deriving DecidableEq, Repr

namespace Crew

/-- Take one turn at a moment. -/
def take {σ : Type} (src : Source σ) (setup : Setup) (now : Time) (c : Crew) (s : σ) :
    Turn → Crew × σ
  | .loop i => c.step src setup now i s
  | .request => (c.request, s)
  | .notify => (c.notify, s)
  | .source => (c, src.ring now s)

/-- Take a row of turns, each at its moment. -/
def takeAll {σ : Type} (src : Source σ) (setup : Setup) (c : Crew) (s : σ) :
    List (Time × Turn) → Crew × σ
  | [] => (c, s)
  | (now, t) :: ts =>
    let r := c.take src setup now s t
    r.1.takeAll src setup r.2 ts

end Crew

/-- One choice of a schedule in which calls take time: a loop goes on to its next call, wait or end,
it gets the answer to a call, the request to stop is made, or the loops that pause are woken. -/
inductive Move where
  | go (i : Nat)
  | give (i : Nat) (a : Fetched)
  | confirm (i : Nat) (a : Receipt)
  | request
  | notify
  deriving DecidableEq, Repr

/-- What passes between a loop and the source: it asks for a task, gets one, or sends a report. -/
inductive Parcel where
  | asked
  | got (t : Task)
  | sent (r : Report)
  deriving DecidableEq, Repr

/-- What an answer to a request brings. -/
def Fetched.parcel? : Fetched → Option Parcel
  | task t => some (.got t)
  | _ => none

namespace Parcel

/-- The task that a loop gets. -/
def task? : Parcel → Option Task
  | got t => some t
  | _ => none

/-- The report that a loop sends. -/
def report? : Parcel → Option Report
  | sent r => some r
  | _ => none

end Parcel

namespace Crew

/-- Make one move at a moment. A move that does not fit where the loop stands does nothing. -/
def move (setup : Setup) (now : Time) (c : Crew) : Move → Option (Nat × Parcel) × Crew
  | .go i =>
    match c.stages[i]? with
    | some .polling => (if c.stopping then none else some (i, .asked), c.ask i)
    | some (.pausing _) => (none, c.put i .polling)
    | some (.executing t _) => (some (i, .sent t.compute), c.put i (.reporting t))
    | _ => (none, c)
  | .give i a =>
    match c.stages[i]? with
    | some .fetching => (a.parcel?.map (i, ·), c.receive setup now i a)
    | _ => (none, c)
  | .confirm i a =>
    match c.stages[i]? with
    | some (.reporting t) => (none, c.settle now t i a)
    | _ => (none, c)
  | .request => (none, c.request)
  | .notify => (none, c.notify)

/-- Make a row of moves, each at its moment. -/
def moveAll (setup : Setup) (c : Crew) : List (Time × Move) → List (Nat × Parcel) × Crew
  | [] => ([], c)
  | (now, m) :: ms =>
    let r := c.move setup now m
    let rest := r.2.moveAll setup ms
    (r.1.toList ++ rest.1, rest.2)

end Crew

end Piecework

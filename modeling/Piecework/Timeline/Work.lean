import Piecework.Timeline
import Piecework.Worker.Run

/-!
# A worker beside its broker

Expressions come in, a worker's loops take their turns at the site, and time passes. In
virtual time no wait is late: a loop that waits or an alarm takes its turn once its moment
has come, and time does not run past the moment of any. Nothing else is decided: which of
several loops goes first, when one that polls asks for a task, when expressions come, and
when the worker is asked to stop.
-/

namespace Piecework

/-- Something that happens beside a worker or by it. -/
inductive Occurrence where
  | submit (text : String) (owner : Nat)
  | turn (t : Turn)
  | wait (ms : Nat)
  deriving DecidableEq, Repr

/-- Submit an expression at a site; text that does not compile changes nothing. -/
def Site.submit (text : String) (owner : Nat) (s : Site) : Site :=
  match s.broker.submit text owner with
  | .error _ => s
  | .ok (_, b) => { s with broker := b }

namespace Shift

/-- A worker that starts beside a new broker. -/
def start (costs : Costs) (setup : Setup) : Shift Site :=
  ⟨0, Crew.start setup, { broker := { costs := costs } }⟩

/-- The moments that the site's alarms and the waiting loops are set for. -/
def dues (s : Shift Site) : List Time :=
  s.source.alarms.map (·.due) ++ s.crew.stages.filterMap fun stage => stage.wait?.map (·.due)

/-- Let something happen. -/
def happen (setup : Setup) (s : Shift Site) : Occurrence → Shift Site
  | .submit text owner => { s with source := s.source.submit text owner }
  | .turn t =>
    let r := s.crew.take Site.source setup s.now s.source t
    { s with crew := r.1, source := r.2 }
  | .wait ms => { s with now := s.now + ms }

/-- Whether something may happen in virtual time. -/
def allows (s : Shift Site) : Occurrence → Bool
  | .turn (.loop i) => (s.crew.stages[i]?).any fun stage => ! stage.rests s.now
  | .turn .source => s.source.alarm?.any (·.due ≤ s.now)
  | .wait ms => s.dues.all (s.now + ms ≤ ·)
  | _ => true

/-- Let a row of things happen. -/
def happenAll (setup : Setup) (s : Shift Site) : List Occurrence → Shift Site
  | [] => s
  | o :: os => (s.happen setup o).happenAll setup os

/-- Whether a row of things may happen in virtual time. -/
def allowsAll (setup : Setup) (s : Shift Site) : List Occurrence → Bool
  | [] => true
  | o :: os => s.allows o && (s.happen setup o).allowsAll setup os

end Shift

end Piecework

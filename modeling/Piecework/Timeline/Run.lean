import Piecework.Timeline

/-!
# Runs in virtual time

A run is any sequence of requests between which time passes, with watchdogs
ringing while it sleeps and none ringing while it stalls.
-/

namespace Piecework

/-- Something done to a timeline. -/
inductive Action where
  | submit (text : String) (owner : Nat)
  | poll
  | report (r : Report)
  | sleep (ms : Nat)
  | stall (ms : Nat)
  deriving DecidableEq, Repr

namespace Timeline

/-- Do something. -/
def act (t : Timeline) : Action → Timeline
  | .submit text owner => (t.submit text owner).2
  | .poll => t.poll.2
  | .report r => (t.report r).2
  | .sleep ms => t.sleep ms
  | .stall ms => t.stall ms

/-- The timeline after a row of actions. -/
def after (t : Timeline) : List Action → Timeline
  | [] => t
  | a :: as => (t.act a).after as

end Timeline

end Piecework

import Piecework.Proofs.Reachable
import Piecework.Timeline.Run

/-!
# Virtual time as a run of the broker

Whatever happens at a site, by a request or by an alarm, happens to its broker as one
event. Sleeping lets time pass between such events, so a timeline always stands at a
moment that a run of the broker comes to, and what holds in all reachable moments holds
along virtual time.
-/

namespace Piecework

/-- What the broker sees of an alarm of its site. -/
def Callee.event : Callee → Event
  | watchdog id => .reclaim id
  | straggler t => .report t.compute

namespace Site

variable {s : Site}

/-- The broker of a site at a moment. -/
def moment (now : Time) (s : Site) : Moment := ⟨now, s.broker⟩

/-- A request for a task is a poll. -/
theorem moment_fetch (now : Time) (s : Site) :
    (s.fetch now).2.moment now = ((s.moment now).step .poll).2 := by
  simp only [fetch, Moment.step, moment]
  rcases s.broker.poll now with ⟨_ | t, b⟩ <;> rfl

/-- What a worker sends is a report. -/
theorem moment_send (now : Time) (r : Report) (s : Site) :
    (s.send now r).2.moment now = ((s.moment now).step (.report r)).2 := by
  simp only [send, Moment.step, moment]
  rcases s.broker.report r with ⟨_ | _, b⟩ <;> rfl

/-- An alarm is an event. -/
theorem moment_answer (now : Time) (c : Callee) (s : Site) :
    (s.answer now c).moment now = ((s.moment now).step c.event).2 := by
  cases c with
  | watchdog id => rfl
  | straggler t =>
    simp only [answer, Callee.event, Moment.step, moment]
    rcases s.broker.report t.compute with ⟨_ | _, b⟩ <;> rfl

/-- Time passes by waiting. -/
theorem moment_wait {now later : Time} (h : now ≤ later) (s : Site) :
    s.moment later = ((s.moment now).step (.wait (later - now))).2 := by
  simp only [Moment.step, moment, Nat.add_sub_cancel' h]

/-- Ringing alarms until a moment is a run that ends there. -/
theorem exists_events_ringUntil {now limit : Time} (hnow : now ≤ limit) (budget : Nat)
    (s : Site) :
    ∃ events, (s.ringUntil limit budget now).moment limit = (s.moment now).after events := by
  induction budget generalizing now s with
  | zero => exact ⟨[.wait (limit - now)], moment_wait hnow s⟩
  | succ budget ih =>
    rw [ringUntil]
    split
    · exact ⟨[.wait (limit - now)], moment_wait hnow s⟩
    · next a _ =>
      split
      · next hdue =>
        have hlater : now ≤ max now a.due := Nat.le_max_left _ _
        obtain ⟨events, hrest⟩ := ih (Nat.max_le.mpr ⟨hnow, hdue⟩) (s.answer (max now a.due) a.call)
        refine ⟨.wait (max now a.due - now) :: a.call.event :: events, hrest.trans ?_⟩
        rw [moment_answer, moment_wait hlater]
        rfl
      · exact ⟨[.wait (limit - now)], moment_wait hnow s⟩

/-- Without stragglers an alarm leaves none. -/
theorem stragglers_answer (hs : s.stragglers = []) (now : Time) (c : Callee) :
    (s.answer now c).stragglers = [] := by
  cases c with
  | watchdog id => exact hs
  | straggler t => simp [answer, hs]

/-- Without stragglers ringing alarms leaves none. -/
theorem stragglers_ringUntil (hs : s.stragglers = []) (limit : Time) (budget : Nat)
    (now : Time) : (s.ringUntil limit budget now).stragglers = [] := by
  induction budget generalizing now s with
  | zero => exact hs
  | succ budget ih =>
    rw [ringUntil]
    split
    · exact hs
    · split
      · exact ih (stragglers_answer hs _ _) _
      · exact hs

end Site

namespace Timeline

variable {t : Timeline}

/-- The broker of a timeline at its time. -/
def moment (t : Timeline) : Moment := t.site.moment t.now

/-- Submitting is an event. -/
theorem moment_submit (text : String) (owner : Nat) (t : Timeline) :
    (t.submit text owner).2.moment = (t.moment.step (.submit text owner)).2 := by
  simp only [submit, Moment.step, moment, Site.moment, broker]
  cases t.site.broker.submit text owner <;> rfl

/-- Asking for a task is an event. -/
theorem moment_poll (t : Timeline) : t.poll.2.moment = (t.moment.step .poll).2 := rfl

/-- Reporting is an event. -/
theorem moment_report (r : Report) (t : Timeline) :
    (t.report r).2.moment = (t.moment.step (.report r)).2 := by
  simp only [report, Moment.step, moment, Site.moment, broker]
  rcases t.site.broker.report r with ⟨_ | _, b⟩ <;> rfl

/-- An action is a row of events. -/
theorem exists_events_act (t : Timeline) (a : Action) :
    ∃ events, (t.act a).moment = t.moment.after events := by
  cases a with
  | submit text owner => exact ⟨[.submit text owner], moment_submit text owner t⟩
  | poll => exact ⟨[.poll], moment_poll t⟩
  | report r => exact ⟨[.report r], moment_report r t⟩
  | sleep ms => exact Site.exists_events_ringUntil (Nat.le_add_right _ _) _ _
  | stall ms => exact ⟨[.wait ms], rfl⟩

/-- A row of actions is a row of events. -/
theorem exists_events_after (t : Timeline) (actions : List Action) :
    ∃ events, (t.after actions).moment = t.moment.after events := by
  induction actions generalizing t with
  | nil => exact ⟨[], rfl⟩
  | cons a rest ih =>
    obtain ⟨first, hfirst⟩ := t.exists_events_act a
    obtain ⟨later, hlater⟩ := ih (t.act a)
    exact ⟨first ++ later, by rw [Moment.after_append, ← hfirst]; exact hlater⟩

/-- Actions keep a broker consistent. -/
theorem isConsistent_after (ht : t.broker.IsConsistent) (actions : List Action) :
    (t.after actions).broker.IsConsistent := by
  obtain ⟨events, hevents⟩ := t.exists_events_after actions
  have hmoment : (t.after actions).moment.broker.IsConsistent := by
    rw [hevents]
    exact Moment.isConsistent_after ht events
  exact hmoment

/-- A timeline of a new broker always stands at a reachable moment. -/
theorem reachable_after (costs : Costs) (actions : List Action) :
    (after { site := { broker := { costs := costs } } } actions).moment.Reachable := by
  obtain ⟨events, hevents⟩ :=
    exists_events_after { site := { broker := { costs := costs } } } actions
  exact ⟨costs, events, hevents⟩

/-- Actions leave no stragglers where there are none. -/
theorem stragglers_after (ht : t.site.stragglers = []) (actions : List Action) :
    (t.after actions).site.stragglers = [] := by
  induction actions generalizing t with
  | nil => exact ht
  | cons a rest ih =>
    refine ih ?_
    cases a with
    | submit text owner =>
      rw [act, submit]
      split <;> exact ht
    | poll => exact ht
    | report r => exact ht
    | sleep ms => exact Site.stragglers_ringUntil ht _ _ _
    | stall ms => exact ht

end Timeline

end Piecework

import Piecework.Proofs.Drain
import Piecework.Proofs.Promptness
import Piecework.Proofs.Shutdown

/-!
# The run of a prompt worker

A loop that rings goes on until it waits again, after as many steps as there are tasks left at
most. So at each moment every loop that is due rings once, none is due any more when time goes on,
and a worker that runs from its start until it returns goes one of the ways that virtual time
allows. What holds along all of them holds for the worker that runs.
-/

namespace Piecework

namespace Stage

/-- The number of steps that a loop can take before it waits, at most, if so many tasks are left. -/
def steps (now : Time) (tasks : Nat) (stage : Stage) : Nat :=
  if stage.rests now then 0
  else
    match stage with
    | polling => 2 * tasks + 1
    | _ => 2 * tasks + 2

variable {now : Time} {tasks : Nat} {stage : Stage}

/-- Only a loop that rests has no step to take. -/
theorem steps_eq_zero_iff : stage.steps now tasks = 0 ↔ stage.rests now = true := by
  unfold steps
  split
  · next hrests => exact iff_of_true rfl hrests
  · next hready =>
    refine iff_of_false ?_ hready
    split <;> omega

theorem steps_polling : polling.steps now tasks = 2 * tasks + 1 := rfl

/-- A loop takes at most two steps for each task that is left, and two more. -/
theorem steps_le (now : Time) (tasks : Nat) (stage : Stage) :
    stage.steps now tasks ≤ 2 * tasks + 2 := by
  unfold steps
  split
  · exact Nat.zero_le _
  · split <;> omega

/-- A loop whose wait is over can take two steps for each task that is left, and two more. -/
theorem steps_of_wait {w : Wait} (hw : stage.wait? = some w) (h : stage.rests now = false) :
    stage.steps now tasks = 2 * tasks + 2 := by
  cases stage with
  | pausing _ | executing _ _ => simp [steps, h]
  | polling | fetching | reporting _ | stopped => contradiction

end Stage

/-- The number of loops that can go on at a moment. -/
def Crew.ready (now : Time) (c : Crew) : Nat := c.stages.countP (! ·.rests now)

namespace Shift

variable {costs : Costs} {setup : Setup} {s : Shift Site} {i : Nat}

/-! ## One loop -/

/-- A poll that offers a task to a worker takes work away. -/
theorem workload_fetch_lt (hs : s.source.broker.IsConsistent) {t : Task}
    (hoffered : ((s.source.moment s.now).step .poll).1 = .offered (some t)) :
    (s.source.fetch s.now).2.broker.workload < s.source.broker.workload := by
  have hbroker : (s.source.fetch s.now).2.broker = (s.source.broker.poll s.now).2 :=
    congrArg Moment.broker (s.source.moment_fetch s.now)
  rw [hbroker]
  exact Broker.workload_poll_lt hs (Reply.offered.inj hoffered)

/-- A worker's report adds no work. -/
theorem workload_send_le (hs : s.source.broker.IsConsistent) (r : Report) :
    (s.source.send s.now r).2.broker.workload ≤ s.source.broker.workload := by
  have hbroker : (s.source.send s.now r).2.broker = (s.source.broker.report r).2 :=
    (congrArg Moment.broker (s.source.moment_send s.now r)).trans (Moment.step_report_broker _ r)
  rw [hbroker]
  exact Broker.workload_report_le hs r

/-- A loop that polls ends, or it pauses, or it gets one of the tasks that are left. -/
theorem steps_fetch_lt (hs : s.source.broker.IsConsistent) (hidle : 0 < setup.idle)
    (h : s.crew.stages[i]? = some .polling) :
    ∃ stage, (s.step Site.source setup i).crew.stages[i]? = some stage ∧
      stage.steps s.now (s.step Site.source setup i).source.broker.workload <
        2 * s.source.broker.workload + 1 := by
  have hfetching : (s.crew.put i .fetching).stages[i]? = some .fetching := Crew.getElem?_put h
  simp only [step, Crew.step, h, Crew.fetch, Crew.ask]
  cases hstopping : s.crew.stopping with
  | true => exact ⟨.stopped, Crew.getElem?_put h, Nat.succ_pos _⟩
  | false =>
    rcases s.source.fetch_eq s.now with ⟨hfetch, _⟩ | ⟨t, hfetch, hpoll⟩
    · have hrests (w : Wait) (hw : w.due = s.now + setup.idle) :
          (Stage.pausing w).rests s.now = true :=
        decide_eq_true (hw ▸ Nat.lt_add_of_pos_right hidle)
      simp only [Site.source, hfetch]
      refine ⟨_, Crew.getElem?_put hfetching, ?_⟩
      rw [Stage.steps_eq_zero_iff.mpr (hrests _ rfl)]
      exact Nat.succ_pos _
    · have hless := workload_fetch_lt hs hpoll
      simp only [Site.source, hfetch]
      refine ⟨_, Crew.getElem?_put hfetching, ?_⟩
      refine Nat.lt_of_le_of_lt (Stage.steps_le _ _ _) ?_
      change 2 * (s.source.fetch s.now).2.broker.workload + 2 < _
      omega

/-- A step that a loop takes leaves it fewer. -/
theorem steps_step_lt (hs : s.source.broker.IsConsistent) (hidle : 0 < setup.idle) {stage : Stage}
    (h : s.crew.stages[i]? = some stage) (hready : stage.rests s.now = false) :
    ∃ stage', (s.step Site.source setup i).crew.stages[i]? = some stage' ∧
      stage'.steps s.now (s.step Site.source setup i).source.broker.workload <
        stage.steps s.now s.source.broker.workload := by
  cases stage with
  | polling => exact steps_fetch_lt hs hidle h
  | pausing w =>
    rw [Stage.steps_of_wait rfl hready]
    simp only [step, Crew.step, h]
    exact ⟨.polling, Crew.getElem?_put h, Nat.lt_succ_self _⟩
  | executing t w =>
    have hlt : i < s.crew.stages.length := (List.getElem?_eq_some_iff.mp h).1
    have hle : (s.source.send s.now t.compute).2.broker.workload ≤ s.source.broker.workload :=
      workload_send_le hs t.compute
    rw [Stage.steps_of_wait rfl hready]
    simp only [step, Crew.step, h, Crew.deliver, Site.source]
    rcases Crew.stages_deliver s.now t i (s.source.send s.now t.compute).1 s.crew with
      hstages | hstages
    · refine ⟨.polling, by rw [hstages, List.getElem?_set_self hlt], ?_⟩
      rw [Stage.steps_polling]
      omega
    · exact ⟨.stopped, by rw [hstages, List.getElem?_set_self hlt], Nat.succ_pos _⟩
  | fetching | reporting _ | stopped => contradiction

/-- A loop with a budget for its steps goes on until it rests. -/
theorem rests_goOn (hs : s.source.broker.IsConsistent) (hidle : 0 < setup.idle) {stage : Stage}
    (h : s.crew.stages[i]? = some stage) {budget : Nat}
    (hbudget : stage.steps s.now s.source.broker.workload ≤ budget) :
    ∃ stage', (s.goOn Site.source setup i budget).crew.stages[i]? = some stage' ∧
      stage'.rests s.now = true := by
  induction budget generalizing s stage with
  | zero => exact ⟨stage, h, Stage.steps_eq_zero_iff.mp (Nat.le_zero.mp hbudget)⟩
  | succ budget ih =>
    rw [goOn]
    split
    · next hrests => exact ⟨stage, h, by simpa [h] using hrests⟩
    · next hready =>
      have hready : stage.rests s.now = false := by simpa [h] using hready
      obtain ⟨stage', hstage', hfewer⟩ := steps_step_lt hs hidle h hready
      have hnext : (s.step Site.source setup i).source.broker.IsConsistent :=
        (Reaches.take s (.loop i)).source Site.counts_source hs
      exact ih hnext hstage' (Nat.le_of_lt_succ (Nat.lt_of_lt_of_le hfewer hbudget))

/-! ## One moment -/

/-- The alarm of a loop that is due is handled by letting it go on until it rests, so that fewer
loops are ready to go on. -/
theorem ready_handle_lt (hs : s.source.broker.IsConsistent) (hidle : 0 < setup.idle)
    {a : Alarm (Option Nat)} {b : Alarm Nat} (hb : s.crew.alarm? = some b)
    (hcall : a.call = some b.call) (hdue : b.due = a.due) (hnow : a.due ≤ s.now) :
    (s.handle Site.source setup a).crew.ready s.now < s.crew.ready s.now := by
  obtain ⟨⟨stage, w, hstage, hw, hend⟩, -⟩ := Crew.alarm?_spec hb
  have hready : stage.rests s.now = false :=
    Stage.rests_eq_false hw (hend.trans hdue ▸ hnow)
  -- The turn that the alarm brings is the first of those in which the loop goes on.
  have hhandle : s.handle Site.source setup a =
      s.goOn Site.source setup b.call (s.stretch Site.source + 1) := by
    rw [goOn, if_neg (by simp [hstage, hready])]
    simp only [handle, hcall, Nat.max_eq_left hnow]
  have hbudget : stage.steps s.now s.source.broker.workload ≤ s.stretch Site.source + 1 := by
    have hmost := Stage.steps_le s.now s.source.broker.workload stage
    have hbound : s.source.broker.workload ≤ Site.source.bound s.source := Nat.le_add_right _ _
    rw [stretch]
    omega
  obtain ⟨stage', hstage', hrests⟩ := rests_goOn hs hidle hstage hbudget
  obtain ⟨last, hlast⟩ : ∃ last, (s.goOn Site.source setup b.call
      (s.stretch Site.source + 1)).crew.stages = s.crew.stages.set b.call last :=
    exists_stages_goOn ..
  have hlt : b.call < s.crew.stages.length := (List.getElem?_eq_some_iff.mp hstage).1
  obtain rfl : last = stage' := by
    rw [hlast, List.getElem?_set_self hlt] at hstage'
    exact Option.some.inj hstage'
  have hcount := Crew.countP_set_add hstage (! ·.rests s.now) last
  rw [hready, hrests] at hcount
  rw [hhandle, Crew.ready, Crew.ready, hlast]
  exact Nat.lt_of_succ_le (Nat.le_of_eq hcount)

/-- What rings by now is a loop, as no claim of a prompt worker lapses. -/
theorem IsPrompt.exists_loop_of_next? (h : s.IsPrompt costs) {a : Alarm (Option Nat)}
    (hnext : s.next? Site.source = some a) (hdue : a.due ≤ s.now) :
    ∃ b, s.crew.alarm? = some b ∧ b.due = a.due ∧ a.call = some b.call := by
  rcases (next?_spec hnext).1 with ⟨b, hb, hsame, -⟩ | hloop
  · exact absurd (hsame ▸ hdue) (Nat.not_le_of_lt (h.now_lt_of_alarm? hb))
  · exact hloop

/-- With a budget for every loop that is ready, nothing is due any more when the alarms that are due
have been handled. -/
theorem IsPrompt.now_lt_of_handleAll (h : s.IsPrompt costs) (hspends : setup.spendsCost = true)
    (hidle : 0 < setup.idle) {budget : Nat} (hbudget : s.crew.ready s.now ≤ budget)
    {a : Alarm (Option Nat)}
    (ha : (s.handleAll Site.source setup (fun s due => decide (due ≤ s.now)) budget).next?
      Site.source = some a) : s.now < a.due := by
  induction budget generalizing s with
  | zero =>
    refine Nat.lt_of_not_le fun hdue => ?_
    obtain ⟨b, hb, hsame, -⟩ := h.exists_loop_of_next? ha hdue
    obtain ⟨⟨stage, w, hstage, hw, hend⟩, -⟩ := Crew.alarm?_spec hb
    have hready : stage.rests s.now = false := Stage.rests_eq_false hw (hend.trans hsame ▸ hdue)
    have hsome : 0 < s.crew.ready s.now :=
      List.countP_pos_iff.mpr ⟨stage, List.mem_of_getElem? hstage, by simp [hready]⟩
    exact Nat.not_le_of_lt hsome hbudget
  | succ budget ih =>
    rw [handleAll] at ha
    cases hnext : s.next? Site.source with
    | none => simp [hnext] at ha
    | some c =>
      simp only [hnext] at ha
      split at ha
      · next hin =>
        have hdue : c.due ≤ s.now := of_decide_eq_true hin
        obtain ⟨b, hb, hsame, hcall⟩ := h.exists_loop_of_next? hnext hdue
        have hfewer := ready_handle_lt h.served.consistent hidle hb hcall hsame hdue
        have hnow : (s.handle Site.source setup c).now = s.now := by
          rw [now_handle, Nat.max_eq_left hdue]
        have hless : (s.handle Site.source setup c).crew.ready
            (s.handle Site.source setup c).now ≤ budget := by
          rw [hnow]
          exact Nat.le_of_lt_succ (Nat.lt_of_lt_of_le hfewer hbudget)
        exact hnow ▸ ih (h.leads hspends (.handle hnext)) hless ha
      · next hout =>
        obtain rfl := Option.some.inj (hnext.symm.trans ha)
        exact Nat.lt_of_not_le fun hdue => hout (decide_eq_true hdue)

/-- At each moment a prompt worker handles all that is due. -/
theorem IsPrompt.now_lt_of_catchUp (h : s.IsPrompt costs) (hspends : setup.spendsCost = true)
    (hidle : 0 < setup.idle) {a : Alarm (Option Nat)}
    (ha : (s.catchUp Site.source setup).next? Site.source = some a) : s.now < a.due :=
  h.now_lt_of_handleAll hspends hidle
    (Nat.le_trans List.countP_le_length (Nat.le_add_right _ _)) ha

/-- A prompt worker that has handled what is due lets time pass up to a later moment before which
nothing is due. -/
theorem IsPrompt.leads_catchUp (h : s.IsPrompt costs) (hspends : setup.spendsCost = true)
    (hidle : 0 < setup.idle) {later : Time} (hlater : s.now ≤ later)
    (hleft : ∀ a, (s.catchUp Site.source setup).next? Site.source = some a →
      later ≤ max (s.now + 1) a.due) :
    s.Leads setup { s.catchUp Site.source setup with now := later } := by
  have hdues : ∀ due ∈ (s.catchUp Site.source setup).dues, later ≤ due :=
    le_of_mem_dues_of_next? fun a ha => by
      have hdue : s.now + 1 ≤ a.due := h.now_lt_of_catchUp hspends hidle ha
      exact Nat.max_eq_right hdue ▸ hleft a ha
  have hcaught : s.Leads setup (s.catchUp Site.source setup) := .handleAll _ _ s
  have harrives := hcaught.trans (.arrive hdues)
  rwa [now_catchUp, Nat.max_eq_right hlater] at harrives

/-! ## The whole run -/

/-- A worker that runs until it is asked to stop goes one of the ways that virtual time allows. -/
theorem IsPrompt.leads_runUntil (h : s.IsPrompt costs) (hspends : setup.spendsCost = true)
    (hidle : 0 < setup.idle) (hcrew : s.crew = Crew.start setup) (stopAt : Time) :
    s.Leads setup (Worker.runUntil Site.source setup s.now stopAt s.source) := by
  obtain ⟨now, crew, site⟩ := s
  obtain rfl : crew = Crew.start setup := hcrew
  by_cases hpast : stopAt ≤ now
  · simp only [Worker.runUntil, if_pos hpast]
    exact .refl _
  · have hnext (s : Shift Site) (a : Alarm (Option Nat))
        (hs : Leads setup ⟨now, Crew.start setup, site⟩ s)
        (ha : (s.catchUp Site.source setup).next? Site.source = some a) :
        Leads setup ⟨now, Crew.start setup, site⟩
          { s.catchUp Site.source setup with now := max (s.now + 1) a.due } := by
      refine hs.trans ((h.leads hspends hs).leads_catchUp hspends hidle ?_ fun b hb => ?_)
      · exact Nat.le_trans (Nat.le_succ _) (Nat.le_max_left _ _)
      · obtain rfl := Option.some.inj (ha.symm.trans hb)
        exact Nat.le_refl _
    obtain ⟨r, hr, hbefore, hruns, hleft⟩ :=
      exists_runUntil_eq hnext (.rouseAll _) (Nat.lt_of_not_le hpast)
    rw [hruns]
    exact hr.trans ((h.leads hspends hr).leads_catchUp hspends hidle (Nat.le_of_lt hbefore) hleft)

/-- A worker that is ending waits for its tasks in one of the ways that virtual time allows. -/
theorem IsPrompt.leads_await (h : s.IsPrompt costs) (hspends : setup.spendsCost = true)
    (hs : s.crew.IsEnding) (hloops : s.crew.works.length ≤ setup.loops) (grace : Nat) :
    s.Leads setup (s.await Site.source setup (s.now + grace)) := by
  obtain ⟨within, budget, hnow, hafter⟩ : ∃ within budget, _ :=
    exists_await_eq (Nat.le_add_right s.now grace)
  have hleads : s.Leads setup (s.handleAll Site.source setup within budget) := .handleAll ..
  obtain ⟨hended, hsweeps, -⟩ := sweeps_await Site.counts_source hs h.served.consistent hloops grace
  rw [hafter] at hended hsweeps ⊢
  generalize s.handleAll Site.source setup within budget = r at *
  split
  · exact hleads
  · have hdues : ∀ due ∈ r.dues, s.now + grace ≤ due :=
      (h.leads hspends hleads).le_of_mem_dues fun a ha => by
        obtain ⟨⟨t, w, hstage, hdue⟩, -⟩ := Crew.IsEnding.exists_work hended ha
        have hleft : (t, w) ∈ r.crew.works := Crew.mem_works_iff.mpr (List.mem_of_getElem? hstage)
        have hlate := (List.mem_filter.mp (hsweeps.works_perm.mem_iff.mp hleft)).2
        exact hdue ▸ Nat.le_of_lt (of_decide_eq_true hlate)
    have harrives := hleads.trans (.arrive hdues)
    rwa [Nat.max_eq_right hnow] at harrives

/-- A worker that is asked to stop goes one of the ways that virtual time allows until it
returns. -/
theorem IsPrompt.leads_shutDown (h : s.IsPrompt costs) (hspends : setup.spendsCost = true)
    (hanswered : ∀ stage ∈ s.crew.stages, stage.isAnswered = true)
    (hloops : s.crew.stages.length ≤ setup.loops) :
    s.Leads setup (Worker.shutDown Site.source setup s) := by
  have hflagged : s.Leads setup { s with crew := s.crew.request } :=
    .of_allows (o := .turn .request) rfl
  have hwoken : s.Leads setup { s with crew := s.crew.stop } :=
    hflagged.trans (.of_allows (o := .turn .notify) rfl)
  have hhalted : s.Leads setup (s.halt Site.source setup) := hwoken.trans (.rouseAll _)
  obtain ⟨hnow, -, hworks⟩ := same_halt Site.source setup s
  have hlength : (s.halt Site.source setup).crew.works.length ≤ setup.loops := by
    rw [hworks]
    exact Nat.le_trans (List.length_filterMap_le ..) hloops
  have hwaits := (h.leads hspends hhalted).leads_await hspends (isEnding_halt hanswered) hlength
    setup.grace
  rw [hnow] at hwaits
  exact hhalted.trans hwaits

/-- A worker that starts, is asked to stop and returns goes one of the ways that virtual time
allows. -/
theorem IsPrompt.leads_run (h : s.IsPrompt costs) (hspends : setup.spendsCost = true)
    (hidle : 0 < setup.idle) (hcrew : s.crew = Crew.start setup) (stopAt : Time) :
    s.Leads setup (Worker.run Site.source setup s.now stopAt s.source).2 := by
  have hruns : s.Leads setup (Worker.runUntil Site.source setup s.now stopAt s.source) :=
    h.leads_runUntil hspends hidle hcrew stopAt
  have hreaches : Reaches Site.source setup ⟨s.now, Crew.start setup, s.source⟩
      (Worker.runUntil Site.source setup s.now stopAt s.source) := .runUntil ..
  obtain ⟨hbalanced, hlength, -⟩ := hreaches.accounts
  exact hruns.trans ((h.leads hspends hruns).leads_shutDown hspends hbalanced.answered
    (Nat.le_of_eq hlength))

/-- Whatever the costs, as long as twice each of them fits a word, whatever the number of loops and
their pauses, and whatever expressions come in: in virtual time a task that a loop fetches is
reported when its cost is spent, and until then the loop has it in hand; that is before the deadline
of its claim. Every claim is one that a loop holds in this way and has time left, no watchdog ever
rings, and no expression times out. A report is accepted, and finds its task queued under the claim,
unless the expression of the task has failed before. Time can always go on to any later moment. A
worker whose pauses take time, that starts then, is asked to stop at some moment and returns, has
gone one of these ways. -/
theorem prompt_worker_never_times_out (costs : Costs) (setup : Setup) (os : List Occurrence)
    (hcosts : ∀ op, 2 * costs.cost op < UInt64.size) (hspends : setup.spendsCost = true)
    (hallowed : (start costs setup).allowsAll setup os = true) :
    let s := (start costs setup).happenAll setup os
    let cost (t : Task) := costs.cost t.operator
    let window (t : Task) := max 1 (2 * cost t)
    let failed (t : Task) := ∃ e reason, s.source.broker.table.get? t.expression = some e ∧
      e.status = .failed reason ∧ reason ≠ "timeout"
    (∀ τ t, (τ, .fetched t) ∈ s.crew.log → τ + cost t < τ + window t ∧
      ((∃ a, (τ + cost t, .reported t.compute a) ∈ s.crew.log) ∨
        s.now ≤ τ + cost t ∧ ∃ w, w.since = τ ∧ .executing t w ∈ s.crew.stages)) ∧
      (∀ τ r a, (τ, .reported r a) ∈ s.crew.log → ∃ τ' t, (τ', .fetched t) ∈ s.crew.log ∧
        r = t.compute ∧ τ = τ' + cost t ∧ (a = .accepted ∨ a = .refused ∧ failed t)) ∧
      (∀ t w, .executing t w ∈ s.crew.stages →
        (s.source.send s.now t.compute).1 = .accepted ∧
            ⟨t, some (w.since + window t)⟩ ∈ s.source.broker.queue.entries ∨
          (s.source.send s.now t.compute).1 = .refused ∧ failed t) ∧
      (∀ q ∈ s.source.broker.queue.entries, ∀ d, q.deadline = some d → s.now < d ∧
        ∃ w, .executing q.task w ∈ s.crew.stages ∧ (w.since, .fetched q.task) ∈ s.crew.log ∧
          d = w.since + window q.task) ∧
      s.allows (.turn .source) = false ∧
      (∀ e ∈ s.source.broker.table.expressions, e.status ≠ .failed "timeout") ∧
      (∀ later, s.now ≤ later →
        ∃ more, s.allowsAll setup more = true ∧ (s.happenAll setup more).now = later) ∧
      (s.crew = Crew.start setup → 0 < setup.idle → ∀ stopAt, ∃ more,
        s.allowsAll setup more = true ∧
          s.happenAll setup more = (Worker.run Site.source setup s.now stopAt s.source).2) := by
  intro s cost window failed
  have h : s.IsPrompt costs := (isPrompt_start hcosts setup).leads hspends ⟨os, hallowed, rfl⟩
  refine ⟨fun τ t hfetched => ⟨?_, ?_⟩, fun τ r a hreported => ?_, fun t w hexecuting => ?_,
    fun q hq d hd => ⟨h.served.isTimely q hq d hd, ?_⟩, ?_, fun e he => h.status_ne he,
    fun later hlater => ?_, fun hcrew hidle stopAt => h.leads_run hspends hidle hcrew stopAt⟩
  · exact Nat.add_lt_add_left (by simp only [window]; omega) τ
  · simp only [cost, ← h.logged.cost_eq τ t hfetched]
    refine (h.logged.fetched τ t hfetched).imp_right ?_
    rintro ⟨w, hp, rfl⟩
    obtain ⟨hdue, hnow, _, _⟩ := h.served.inHand (t, w) hp
    exact ⟨hdue ▸ hnow, w, rfl, Crew.mem_works_iff.mp hp⟩
  · obtain ⟨τ', t, hfetched, hr, hτ, hanswer⟩ := h.logged.reported τ r a hreported
    rw [h.logged.cost_eq τ' t hfetched] at hτ
    exact ⟨τ', t, hfetched, hr, hτ, hanswer.imp_right (And.imp_right h.exists_reason)⟩
  · have hp := Crew.mem_works_iff.mpr hexecuting
    have hanswer := h.send_accepted_or_failed hp
    rw [h.claimWindow_eq hp] at hanswer
    exact hanswer.imp_right (And.imp_right h.exists_reason)
  · obtain ⟨w, hp, rfl⟩ := h.served.held q hq d hd
    exact ⟨w, Crew.mem_works_iff.mp hp, h.logged.noted _ hp, by rw [h.claimWindow_eq hp]⟩
  · refine Bool.eq_false_iff.mpr fun hring => ?_
    obtain ⟨a, ha, hdue⟩ := (Option.any_eq_true _ _).mp hring
    exact absurd (of_decide_eq_true hdue) (Nat.not_le_of_lt (h.now_lt_of_alarm? ha))
  · obtain ⟨s', ⟨more, hmore, rfl⟩, hnow⟩ := h.exists_later hspends hlater
    exact ⟨more, hmore, hnow⟩

/-- Two loops fetch the two operations of a difference. The sum costs nothing and overflows, so the
expression fails at once, and the report on the product is refused when its cost is spent. -/
theorem prompt_worker_is_refused_after_failure :
    let costs : Costs := { addition := 0 }
    let setup : Setup := { concurrency := 2, idle := 5000 }
    let os : List Occurrence :=
      [.submit "(9223372036854775807+1)-(2*3)" 7, .turn (.loop 0), .turn (.loop 1),
        .turn (.loop 0), .turn (.loop 0), .wait 2000]
    let s := (start costs setup).happenAll setup os
    let sum : Task := ⟨⟨1, .add, 9223372036854775807, 1, 0⟩, 1⟩
    let product : Task := ⟨⟨1, .mul, 2, 3, 2000⟩, 2⟩
    (start costs setup).allowsAll setup os = true ∧
      (∃ a, (0, .reported sum.compute a) ∈ s.crew.log) ∧
      (s.source.send s.now product.compute).1 = .refused ∧
      (∃ e reason, s.source.broker.table.get? product.expression = some e ∧
        e.status = .failed reason ∧ reason ≠ "timeout") ∧
      ∃ more, s.allowsAll setup more = true ∧ (s.happenAll setup more).now = 9000 := by
  intro costs setup os
  have hallowed : (start costs setup).allowsAll setup os = true := by decide +kernel
  have hcosts : ∀ op, 2 * costs.cost op < UInt64.size := fun op => by cases op <;> decide
  have hprompt := prompt_worker_never_times_out costs setup os hcosts rfl hallowed
  have hnow : ((start costs setup).happenAll setup os).now = 2000 := by decide +kernel
  have hsum : (0, .fetched ⟨⟨1, .add, 9223372036854775807, 1, 0⟩, 1⟩) ∈
      ((start costs setup).happenAll setup os).crew.log := by decide +kernel
  have hproduct : .executing ⟨⟨1, .mul, 2, 3, 2000⟩, 2⟩ ⟨0, 2000, 1⟩ ∈
      ((start costs setup).happenAll setup os).crew.stages := by decide +kernel
  have hempty : ((start costs setup).happenAll setup os).source.broker.queue.entries = [] := by
    decide +kernel
  -- The rest is about any shift of which these facts hold, so that none is computed again.
  generalize (start costs setup).happenAll setup os = s at *
  obtain ⟨hfetched, _, hexecuting, _, _, _, hlater, _⟩ := hprompt
  obtain ⟨hrefused, hfailed⟩ := (hexecuting _ _ hproduct).resolve_left fun hqueued =>
    List.not_mem_nil (hempty ▸ hqueued.2)
  refine ⟨hallowed, ?_, hrefused, hfailed, hlater 9000 (by rw [hnow]; decide)⟩
  refine (hfetched _ _ hsum).2.resolve_right fun hlate => ?_
  exact absurd (hnow ▸ hlate.1) (by decide)

end Shift

end Piecework

import Piecework.Proofs.Balance

/-!
# What the counters tell

Between operations the counters account for all that a broker ever took in: a created
task was completed, was lost or is still queued, and as many expressions were counted as
submitted, done and failed as the table has. Inside an operation this need not hold,
since a pass puts tasks into the queue before they are counted and a removal takes them
out before, so the laws below are about the points where the books are closed again.
-/

namespace Piecework

/-- Every expression is being processed, is done or has failed. -/
theorem Table.size_eq_done_add_failed (t : Table) :
    t.size = t.done + t.failed + t.expressions.countP (·.status = .processing) := by
  have hone (e : Expression) : (if e.isDone then 1 else 0) + (if e.hasFailed then 1 else 0) +
      (if e.status = .processing then 1 else 0) = 1 := by
    unfold Expression.isDone Expression.hasFailed
    cases e.status <;> simp [Status.result?, Status.reason?]
  simp only [size, done, failed]
  induction t.expressions with
  | nil => rfl
  | cons e es ih =>
    have he := hone e
    simp only [List.length_cons, List.countP_cons, decide_eq_true_eq]
    omega

/-- A change that keeps the status of an expression keeps the counts of the table. -/
theorem Table.countP_modify_of_status {t : Table} (x : ExpressionId)
    {f : Expression → Expression} {P : Status → Bool} (hf : ∀ e, (f e).status = e.status) :
    (t.modify x f).expressions.countP (P ·.status) = t.expressions.countP (P ·.status) := by
  rw [modify, List.countP_map]
  refine List.countP_congr fun e _ => ?_
  simp only [Function.comp_apply]
  split
  · rw [hf]
  · rfl

namespace Broker

/-- The counters agree with the queue and the table: a created task was completed, was lost or is
queued, and expressions are counted as the table has them. -/
structure IsTallied (b : Broker) : Prop extends b.IsAccountable where
  created : b.taskCount .created = b.taskCount .completed + b.lost + b.queue.size
  submitted : b.expressionCount .submitted = b.table.size
  done : b.expressionCount .done = b.table.done
  failed : b.expressionCount .failed = b.table.failed

/-- The gauges show the queue as it is. -/
structure IsGauged (b : Broker) : Prop where
  queued : b.metrics.queued = b.queue.size
  claimed : b.metrics.claimed = b.queue.claimed

variable {b b' : Broker} {x : ExpressionId}

/-- A new broker has counted nothing. -/
theorem isTallied_new (costs : Costs) : IsTallied { costs := costs } :=
  ⟨⟨Queue.isOrdered_empty, Table.isNumbered_empty, Metrics.isSorted_empty⟩, rfl, rfl, rfl, rfl⟩

/-- Counters agree after gauges are set. -/
theorem IsTallied.gauge (h : b.IsTallied) : b.gauge.IsTallied :=
  ⟨⟨h.queue, h.table, h.metrics.setDepth _ _⟩, h.created, h.submitted, h.done, h.failed⟩

/-- Gauges that were just set show the queue. -/
theorem isGauged_gauge (b : Broker) : b.gauge.IsGauged := ⟨rfl, rfl⟩

/-- Where tasks are lost and expressions fail, the counters follow. -/
theorem IsTallied.of_loses (h : b.IsTallied) (hloses : Loses 0 b b') (hproceeds : b.Proceeds b')
    (hmetrics : b'.metrics.IsSorted) : b'.IsTallied := by
  refine ⟨h.of_proceeds hproceeds hmetrics, ?_, ?_, ?_, ?_⟩
  · have hcreated := hloses.taskCount_eq .created (by simp) (by simp)
    have hcompleted := hloses.taskCount_eq .completed (by simp) (by simp)
    have htasks := hloses.tasks
    have hbefore := h.created
    omega
  · rw [hloses.expressionCount_eq .submitted (by simp), h.submitted, hproceeds.2.size_eq]
  · rw [hloses.expressionCount_eq .done (by simp), h.done, hloses.done_eq]
  · have hexpressions := hloses.expressions
    have hbefore := h.failed
    omega

/-- A change that keeps the status of an expression is not counted. -/
theorem IsTallied.modify (h : b.IsTallied) (x : ExpressionId) {f : Expression → Expression}
    (hid : ∀ e, (f e).id = e.id) (hstatus : ∀ e, (f e).status = e.status) :
    IsTallied { b with table := b.table.modify x f } := by
  have hnumbers := Table.sameNumbers_modify b.table x hid
  refine ⟨⟨h.queue, hnumbers.isNumbered h.table, h.metrics⟩, h.created, ?_, ?_, ?_⟩
  · exact h.submitted.trans hnumbers.size_eq.symm
  · exact h.done.trans (Table.countP_modify_of_status (P := (·.result?.isSome)) x hstatus).symm
  · exact h.failed.trans (Table.countP_modify_of_status (P := (·.reason?.isSome)) x hstatus).symm

/-- An expression that is finished is counted as done. -/
theorem IsTallied.finish (h : b.IsTallied) (x : ExpressionId) (v : Int64) :
    (b.finish x v).IsTallied := by
  have haccountable := h.of_proceeds (proceeds_finish x v b) (isSorted_finish h.metrics x v)
  by_cases hisOpen : b.isOpen x = true
  · obtain ⟨e, hget, hopen⟩ := isOpen_iff.mp hisOpen
    let completed : Broker := { b with table := b.table.modify x (·.complete v) }
    have hfinish : b.finish x v = completed.noteExpression .done := if_pos hisOpen
    have hcount (event : ExpressionEvent) := expressionCount_noteExpression (b := completed)
      h.metrics .done event
    rw [hfinish] at haccountable ⊢
    refine ⟨haccountable, h.created, ?_, ?_, ?_⟩
    · rw [hcount, if_neg (by simp), Nat.add_zero]
      exact h.submitted.trans (proceeds_modify b x (Expression.complete_id v)).2.size_eq.symm
    · rw [hcount, if_pos rfl]
      exact (congrArg (· + 1) h.done).trans (h.table.done_settle hget hopen (.done v)).symm
    · rw [hcount, if_neg (by simp), Nat.add_zero]
      exact h.failed.trans (h.table.failed_settle hget hopen (.done v)).symm
  · have hfinish : b.finish x v = b := if_neg hisOpen
    rwa [hfinish]

/-- An abandoned expression and its tasks are counted. -/
theorem IsTallied.abandon (h : b.IsTallied) (x : ExpressionId) (reason : String) :
    (b.abandon x reason).IsTallied :=
  h.of_loses (loses_abandon h.toIsAccountable x reason) (proceeds_abandon x reason b)
    (isSorted_abandon h.metrics x reason)

/-! ## Passes -/

/-- Once its tasks are counted as created, a reduction is taken over by the books. -/
theorem IsTallied.applyReduction {r : Reduction}
    (h : (b.noteTasks .created r.spawned.length).IsTallied) (x : ExpressionId) :
    (b.applyReduction x r).IsTallied := by
  unfold Broker.applyReduction
  cases r.outcome with
  | pending =>
    exact h.modify x (Expression.advance_id r.program) (Expression.advance_status r.program)
  | completed v => exact h.finish x v
  | failed e => exact h.abandon x e.message

/-- A pass counts as created what it puts into the queue. -/
theorem IsTallied.runPass (h : b.IsTallied) (x : ExpressionId) (p : Program) :
    (b.runPass x p).IsTallied := by
  obtain ⟨created, _, hreduces⟩ := Program.exists_reduces Queue.sink b.costs x p b.queue
  obtain ⟨hentries, _⟩ := Queue.entries_of_takes hreduces.takes
  have hqueue := (Queue.reachesUnclaiming_of_takes hreduces.takes).isOrdered h.queue
  unfold Broker.runPass
  generalize p.reduce Queue.sink b.costs x b.queue = r at hreduces hentries hqueue ⊢
  have hlength : r.1.spawned.length = created.length := by simp [hreduces.spawned_eq]
  have hsize : r.2.size = b.queue.size + created.length := by simp [Queue.size, hentries]
  let pushed : Broker := { b with queue := r.2 }
  have hcount (event : TaskEvent) := taskCount_noteTasks (b := pushed) h.metrics .created
    r.1.spawned.length event
  refine IsTallied.applyReduction (b := pushed) ⟨⟨hqueue, h.table, h.metrics.countTasks _ _⟩,
    ?_, ?_, ?_, ?_⟩ x
  · have hbefore : pushed.taskCount .created =
        pushed.taskCount .completed + pushed.lost + b.queue.size := h.created
    simp only [lost, hcount] at hbefore ⊢
    simp only [if_pos, reduceCtorEq, if_false, hlength]
    rw [hbefore, show (pushed.noteTasks .created created.length).queue.size = _ from hsize]
    omega
  · rw [expressionCount_noteTasks]
    exact h.submitted
  · rw [expressionCount_noteTasks]
    exact h.done
  · rw [expressionCount_noteTasks]
    exact h.failed

/-- A submitted expression is counted. -/
theorem IsTallied.submit (h : b.IsTallied) {text : String} {owner : Nat}
    (hsubmit : b.submit text owner = .ok (x, b')) : b'.IsTallied := by
  unfold Broker.submit at hsubmit
  split at hsubmit
  · contradiction
  · next p _ =>
    obtain ⟨rfl, rfl⟩ := Prod.mk.inj (Except.ok.inj hsubmit)
    let inserted : Broker := { b with table := (b.table.insert owner text p).2 }
    have hcount (event : ExpressionEvent) := expressionCount_noteExpression (b := inserted)
      h.metrics .submitted event
    have hregistered : (inserted.noteExpression .submitted).IsTallied := by
      refine ⟨⟨h.queue, h.table.insert owner text p, h.metrics.countExpression _⟩,
        h.created, ?_, ?_, ?_⟩
      · rw [hcount, if_pos rfl]
        exact (congrArg (· + 1) h.submitted).trans (by simp [inserted, Table.insert, Table.size,
          noteExpression])
      · rw [hcount, if_neg (by simp), Nat.add_zero]
        exact h.done.trans (by simp [inserted, Table.insert, Table.done, noteExpression,
          Expression.isDone, Status.result?])
      · rw [hcount, if_neg (by simp), Nat.add_zero]
        exact h.failed.trans (by simp [inserted, Table.insert, Table.failed, noteExpression,
          Expression.hasFailed, Status.reason?])
    exact (hregistered.runPass _ p).gauge

/-- A submission sets the gauges. -/
theorem isGauged_submit {text : String} {owner : Nat} (hsubmit : b.submit text owner = .ok (x, b')) :
    b'.IsGauged := by
  unfold Broker.submit at hsubmit
  split at hsubmit
  · contradiction
  · obtain ⟨_, rfl⟩ := Prod.mk.inj (Except.ok.inj hsubmit)
    exact isGauged_gauge _

/-! ## Polls, watchdogs and reports -/

/-- A claim is not counted. -/
theorem IsTallied.claim (h : b.IsTallied) {now deadline : Time} {t : Task} {q : Queue}
    (hclaim : b.queue.claim now = some (t, deadline, q)) : IsTallied { b with queue := q } := by
  have hordered := h.queue.perform (.claim now)
  rw [Queue.perform, hclaim] at hordered
  obtain ⟨before, e, behind, hentries, _, _, _, hclaimed, _⟩ := Queue.exists_of_claim hclaim
  have hsize : b.queue.size = q.size := by simp [Queue.size, hentries, hclaimed]
  exact ⟨⟨hordered, h.table, h.metrics⟩, h.created.trans (congrArg (_ + ·) hsize), h.submitted,
    h.done, h.failed⟩

/-- A poll counts the tasks that it reaps. -/
theorem IsTallied.poll (h : b.IsTallied) (now : Time) : (b.poll now).2.IsTallied := by
  have hreaped : (b.reap now).IsTallied := h.of_loses (loses_reap h.toIsAccountable now)
    (proceeds_reap now b) (isSorted_reap h.metrics now)
  unfold Broker.poll
  dsimp only
  cases hclaim : (b.reap now).queue.claim now with
  | none => exact hreaped.gauge
  | some r => exact (hreaped.claim hclaim).gauge

/-- A watchdog counts the tasks that it takes out. -/
theorem IsTallied.reclaim (h : b.IsTallied) (id : TaskId) (now : Time) :
    (b.reclaim id now).IsTallied :=
  h.of_loses (loses_reclaim h.toIsAccountable id now) (proceeds_reclaim id now b)
    (isSorted_reclaim h.metrics id now)

/-- A task that is reported on is counted as completed. -/
theorem IsTallied.completed (h : b.IsTallied) {q : Entry} (hq : q ∈ b.queue.entries) :
    (b.completed q).IsTallied := by
  let dropped : Broker := { b with queue := b.queue.drop q.task.id (.cancelled q.task.id) }
  have hcount (event : TaskEvent) := taskCount_noteTasks (b := dropped) h.metrics .completed 1 event
  have hsize := Queue.drop_size h.queue hq (.cancelled q.task.id)
  refine ⟨⟨isOrdered_completed h.queue q, h.table, h.metrics.countTasks _ 1⟩, ?_, ?_, ?_, ?_⟩
  · have hbefore : dropped.taskCount .created =
        dropped.taskCount .completed + dropped.lost + b.queue.size := h.created
    change (dropped.noteTasks .completed 1).taskCount .created =
      (dropped.noteTasks .completed 1).taskCount .completed +
        (dropped.noteTasks .completed 1).lost + dropped.queue.size
    simp only [lost, hcount] at hbefore ⊢
    simp only [if_pos, reduceCtorEq, if_false]
    rw [hbefore, ← hsize]
    simp only [dropped]
    omega
  · exact (expressionCount_noteTasks .completed 1 .submitted dropped).trans h.submitted
  · exact (expressionCount_noteTasks .completed 1 .done dropped).trans h.done
  · exact (expressionCount_noteTasks .completed 1 .failed dropped).trans h.failed

/-- A report on a queued task is counted with all that follows from it. -/
theorem IsTallied.reported (h : b.IsTallied) {q : Entry} (hq : q ∈ b.queue.entries)
    (e : Expression) (r : Report) : (b.reported q e r).IsTallied := by
  have hcompleted := h.completed hq
  unfold Broker.reported
  split
  · exact hcompleted
  · cases r.failure with
    | some reason => exact hcompleted.abandon e.id reason
    | none =>
      have hsubstituted := hcompleted.modify e.id (Expression.substitute_id q.task.id r.result)
        fun _ => rfl
      unfold Broker.resume
      dsimp only
      split
      · exact hsubstituted.runPass _ _
      · exact hsubstituted.abandon _ _

end Broker

namespace Moment

variable {m : Moment}

/-- Every event keeps the counters in agreement with the state, and the gauges with the queue. -/
theorem isTallied_step (hm : m.broker.IsConsistent) (h : m.broker.IsTallied)
    (hgauged : m.broker.IsGauged) (ev : Event) :
    (m.step ev).2.broker.IsTallied ∧ (m.step ev).2.broker.IsGauged := by
  cases ev with
  | submit text owner =>
    simp only [step]
    split
    · exact ⟨h, hgauged⟩
    · next hsubmit => exact ⟨h.submit hsubmit, Broker.isGauged_submit hsubmit⟩
  | poll =>
    refine ⟨h.poll m.now, ?_⟩
    simp only [step, Broker.poll]
    cases (m.broker.reap m.now).queue.claim m.now <;> exact Broker.isGauged_gauge _
  | report r =>
    cases hfind : m.broker.queue.get? r.id with
    | none =>
      rw [step_report_of_get?_eq_none hfind]
      exact ⟨h, hgauged⟩
    | some q =>
      obtain ⟨hq, _⟩ := Queue.mem_of_get? hfind
      obtain ⟨e, hget⟩ := Broker.exists_get?_of_queued hm.isOrdered hq
      rw [step_report_of_queued hfind hget]
      exact ⟨(h.reported hq e r).gauge, Broker.isGauged_gauge _⟩
  | reclaim id =>
    refine ⟨h.reclaim id m.now, ?_⟩
    simp only [step, Broker.reclaim]
    cases m.broker.queue.reclaim id m.now with
    | none => exact hgauged
    | some r => exact Broker.isGauged_gauge _
  | wait ms => exact ⟨h, hgauged⟩

/-- Every run keeps the counters in agreement with the state, and the gauges with the queue. -/
theorem isTallied_after (hm : m.broker.IsConsistent) (h : m.broker.IsTallied)
    (hgauged : m.broker.IsGauged) (es : List Event) :
    (m.after es).broker.IsTallied ∧ (m.after es).broker.IsGauged := by
  induction es generalizing m with
  | nil => exact ⟨h, hgauged⟩
  | cons ev es ih =>
    obtain ⟨hnext, hshown⟩ := isTallied_step hm h hgauged ev
    exact ih (isConsistent_step hm ev) hnext hshown

/-- A new broker has counted nothing and shows an empty queue. After any run, as many tasks were
created as were completed, timed out or discarded and are still queued, as many expressions were
submitted as are done, have failed or are being processed, and the gauges show the number of queued
tasks and of claimed ones. -/
theorem metrics_conserved (costs : Costs) (events : List Event) :
    let start : Moment := { broker := { costs := costs } }
    let b := (start.after events).broker
    (∀ event, start.broker.taskCount event = 0) ∧
      (∀ event, start.broker.expressionCount event = 0) ∧
      start.broker.metrics.queued = 0 ∧ start.broker.metrics.claimed = 0 ∧
      b.taskCount .created =
        b.taskCount .completed + b.taskCount .timedOut + b.taskCount .discarded + b.queue.size ∧
      b.expressionCount .submitted =
        b.expressionCount .done + b.expressionCount .failed +
          b.table.expressions.countP (·.status = .processing) ∧
      b.metrics.queued = b.queue.size ∧
      b.metrics.claimed = b.queue.entries.countP (·.isClaimed) := by
  intro start b
  obtain ⟨htallied, hgauged⟩ := isTallied_after (m := start) (Broker.isConsistent_new costs)
    (Broker.isTallied_new costs) ⟨rfl, rfl⟩ events
  refine ⟨fun _ => rfl, fun _ => rfl, rfl, rfl, ?_, ?_, hgauged.queued, hgauged.claimed⟩
  · rw [Nat.add_assoc (b.taskCount .completed)]
    exact htallied.created
  · rw [htallied.submitted, htallied.done, htallied.failed]
    exact b.table.size_eq_done_add_failed

/-- A claim lapses and takes its sibling along, a division by zero takes back a task that was just
created, and one task is computed: of five tasks one is still queued. -/
example :
    let b := (after {} [.submit "(1+2)*(3+4)" 0, .poll, .wait 2000, .submit "5+6" 0,
      .submit "1+2+3/0" 0, .poll, .report ⟨3, 11, none⟩, .submit "2*2" 0]).broker
    [TaskEvent.created, .completed, .timedOut, .discarded].map b.taskCount = [5, 1, 1, 2] ∧
      [ExpressionEvent.submitted, .done, .failed].map b.expressionCount = [4, 1, 2] ∧
      (b.metrics.queued, b.metrics.claimed) = (1, 0) := by
  decide +kernel

end Moment

end Piecework

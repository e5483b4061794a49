import Piecework.Proofs.Counters

/-!
# What failing counts

A task that leaves the queue because its expression fails is counted once, as timed out
or as discarded, and an expression that fails is counted once as well. So the tasks
counted in these two ways and the queued ones make up a fixed sum, however the failing
is split over watchdogs and polls. Nothing else is counted on the way.
-/

namespace Piecework

/-- Whether the expression has failed. -/
def Expression.hasFailed (e : Expression) : Bool := e.status.reason?.isSome

/-- Whether the expression is done. -/
def Expression.isDone (e : Expression) : Bool := e.status.result?.isSome

namespace Table

/-- The number of expressions that have failed. -/
def failed (t : Table) : Nat := t.expressions.countP (·.hasFailed)

/-- The number of expressions that are done. -/
def done (t : Table) : Nat := t.expressions.countP (·.isDone)

variable {t : Table} {x : ExpressionId} {e : Expression}

/-- A change of one expression counts for this expression alone. -/
theorem IsNumbered.countP_modify (h : t.IsNumbered) (hget : t.get? x = some e)
    (P : Expression → Bool) (f : Expression → Expression) :
    (t.modify x f).expressions.countP P + (if P e then 1 else 0) =
      t.expressions.countP P + if P (f e) then 1 else 0 := by
  obtain ⟨before, behind, hsplit, hmodify⟩ := h.exists_split hget
  rw [hmodify f, hsplit]
  simp only [List.countP_append, List.countP_cons]
  omega

/-- An open expression that takes a status with a reason is one more that has failed. -/
theorem IsNumbered.failed_settle (h : t.IsNumbered) (hget : t.get? x = some e)
    (hopen : e.isFinal = false) (s : Status) :
    (t.modify x (·.settle s)).failed = t.failed + if s.reason?.isSome then 1 else 0 := by
  have hcount := h.countP_modify hget (·.hasFailed) (·.settle s)
  have hbefore : e.hasFailed = false := by
    simp [Expression.hasFailed, Expression.isFinal_eq_false_iff.mp hopen, Status.reason?]
  rw [hbefore, Expression.settle_of_open hopen] at hcount
  exact hcount

/-- An open expression that takes a status with a value is one more that is done. -/
theorem IsNumbered.done_settle (h : t.IsNumbered) (hget : t.get? x = some e)
    (hopen : e.isFinal = false) (s : Status) :
    (t.modify x (·.settle s)).done = t.done + if s.result?.isSome then 1 else 0 := by
  have hcount := h.countP_modify hget (·.isDone) (·.settle s)
  have hbefore : e.isDone = false := by
    simp [Expression.isDone, Expression.isFinal_eq_false_iff.mp hopen, Status.result?]
  rw [hbefore, Expression.settle_of_open hopen] at hcount
  exact hcount

end Table

namespace Broker

/-- How often a task event was counted. -/
def taskCount (event : TaskEvent) (b : Broker) : Nat := b.metrics.tasks.count event.label

/-- How often an expression event was counted. -/
def expressionCount (event : ExpressionEvent) (b : Broker) : Nat :=
  b.metrics.expressions.count event.label

/-- The tasks counted as timed out or as discarded. -/
def lost (b : Broker) : Nat := b.taskCount .timedOut + b.taskCount .discarded

/-- Queue and table are in order, and so are the samples of the counters. -/
structure IsAccountable (b : Broker) : Prop where
  queue : b.queue.IsOrdered
  table : b.table.IsNumbered
  metrics : b.metrics.IsSorted

variable {b b' b'' : Broker}

/-- A broker that proceeds stays accountable if it only raises counts. -/
theorem IsAccountable.of_proceeds (hb : b.IsAccountable) (h : b.Proceeds b')
    (hmetrics : b'.metrics.IsSorted) : b'.IsAccountable :=
  ⟨h.isOrdered hb.queue, h.2.isNumbered hb.table, hmetrics⟩

/-- Counting task events raises their own count. -/
theorem taskCount_noteTasks (h : b.metrics.IsSorted) (event : TaskEvent) (n : Nat)
    (x : TaskEvent) :
    (b.noteTasks event n).taskCount x = b.taskCount x + if x = event then n else 0 := by
  have hlabel : x.label = event.label ↔ x = event := by cases x <;> cases event <;> decide
  simp only [taskCount, noteTasks, h.count_countTasks, hlabel]

/-- Counting an expression event raises its own count. -/
theorem expressionCount_noteExpression (h : b.metrics.IsSorted) (event x : ExpressionEvent) :
    (b.noteExpression event).expressionCount x =
      b.expressionCount x + if x = event then 1 else 0 := by
  have hlabel : x.label = event.label ↔ x = event := by cases x <;> cases event <;> decide
  simp only [expressionCount, noteExpression, h.count_countExpression, hlabel]

@[simp] theorem expressionCount_noteTasks (event : TaskEvent) (n : Nat) (x : ExpressionEvent)
    (b : Broker) : (b.noteTasks event n).expressionCount x = b.expressionCount x := by
  simp [expressionCount, noteTasks]

/-- From one broker to the other `n` tasks that were out of the queue and all that left it are
counted as lost, and all expressions that failed are counted as failed. -/
structure Balances (n : Nat) (b b' : Broker) : Prop where
  tasks : b'.lost + b'.queue.size = b.lost + b.queue.size + n
  expressions : b'.expressionCount .failed + b.table.failed =
    b.expressionCount .failed + b'.table.failed

/-- Doing nothing balances. -/
theorem Balances.refl (b : Broker) : Balances 0 b b := ⟨rfl, rfl⟩

/-- What balances step by step balances as a whole. -/
theorem Balances.trans {n k : Nat} (h : Balances n b b') (h' : Balances k b' b'') :
    Balances (n + k) b b'' := by
  obtain ⟨htasks, hexpressions⟩ := h
  obtain ⟨htasks', hexpressions'⟩ := h'
  constructor <;> omega

/-- Where the same is queued and has failed in the end, the same was counted. -/
theorem Balances.counts_eq {n : Nat} (h : Balances n b b') (h' : Balances n b b'')
    (hsize : b'.queue.size = b''.queue.size) (hfailed : b'.table.failed = b''.table.failed) :
    b'.lost = b''.lost ∧ b'.expressionCount .failed = b''.expressionCount .failed := by
  obtain ⟨htasks, hexpressions⟩ := h
  obtain ⟨htasks', hexpressions'⟩ := h'
  constructor <;> omega

/-- Counting tasks as timed out or as discarded balances as many of them. -/
theorem balances_noteTasks (h : b.metrics.IsSorted) {event : TaskEvent}
    (hevent : event = .timedOut ∨ event = .discarded) (n : Nat) :
    Balances n b (b.noteTasks event n) := by
  refine ⟨?_, congrArg (· + _) (expressionCount_noteTasks event n .failed b)⟩
  have hlost : (b.noteTasks event n).lost = b.lost + n := by
    simp only [lost, taskCount_noteTasks h]
    rcases hevent with rfl | rfl <;> simp <;> omega
  rw [hlost]
  exact Nat.add_right_comm _ _ _

/-- From one broker to the other everything balances, nothing else is counted, and no expression
gets done. -/
structure Loses (n : Nat) (b b' : Broker) : Prop extends Balances n b b' where
  taskCount_eq : ∀ event, event ≠ .timedOut → event ≠ .discarded →
    b'.taskCount event = b.taskCount event
  expressionCount_eq : ∀ event, event ≠ .failed →
    b'.expressionCount event = b.expressionCount event
  done_eq : b'.table.done = b.table.done

/-- Doing nothing loses nothing. -/
theorem Loses.refl (b : Broker) : Loses 0 b b :=
  ⟨.refl b, fun _ _ _ => rfl, fun _ _ => rfl, rfl⟩

/-- What is lost step by step is lost as a whole. -/
theorem Loses.trans {n k : Nat} (h : Loses n b b') (h' : Loses k b' b'') : Loses (n + k) b b'' := by
  refine ⟨h.toBalances.trans h'.toBalances, fun event htimedOut hdiscarded => ?_,
    fun event hfailed => ?_, h'.done_eq.trans h.done_eq⟩
  · exact (h'.taskCount_eq event htimedOut hdiscarded).trans
      (h.taskCount_eq event htimedOut hdiscarded)
  · exact (h'.expressionCount_eq event hfailed).trans (h.expressionCount_eq event hfailed)

/-- Setting the gauges loses nothing. -/
theorem loses_gauge (b : Broker) : Loses 0 b b.gauge :=
  ⟨⟨rfl, rfl⟩, fun _ _ _ => rfl, fun _ _ => rfl, rfl⟩

/-- Counting tasks as timed out or as discarded loses as many of them. -/
theorem loses_noteTasks (h : b.metrics.IsSorted) {event : TaskEvent}
    (hevent : event = .timedOut ∨ event = .discarded) (n : Nat) :
    Loses n b (b.noteTasks event n) := by
  refine ⟨balances_noteTasks h hevent n, fun other htimedOut hdiscarded => ?_,
    fun other _ => expressionCount_noteTasks event n other b, rfl⟩
  have hother : other ≠ event := by
    rintro rfl
    exact hevent.elim htimedOut hdiscarded
  rw [taskCount_noteTasks h, if_neg hother, Nat.add_zero]

/-- What was taken out of the queue and is counted afterwards is lost from the queue. -/
theorem Loses.of_taken {n : Nat} {q : Queue} (h : Loses n { b with queue := q } b')
    (hsize : n + q.size = b.queue.size) : Loses 0 b b' := by
  have htasks : b'.lost + b'.queue.size = b.lost + q.size + n := h.tasks
  refine ⟨⟨?_, h.expressions⟩, h.taskCount_eq, h.expressionCount_eq, h.done_eq⟩
  omega

/-! ## Abandoning -/

/-- Dropped tasks are counted as discarded. -/
theorem loses_dropTasks (hb : b.IsAccountable) (x : ExpressionId) : Loses 0 b (b.dropTasks x) := by
  let dropped : Broker := { b with queue := (b.queue.discard x).2 }
  have hnoted := loses_noteTasks (b := dropped) hb.metrics (.inr rfl) (b.queue.discard x).1.length
  exact hnoted.of_taken (Queue.completeAll_filter_size hb.queue _)

/-- An expression that fails while it is open is counted. -/
theorem loses_fail (hb : b.IsAccountable) {x : ExpressionId} {e : Expression}
    (hget : b.table.get? x = some e) (hopen : e.isFinal = false) (reason : String) :
    Loses 0 b (noteExpression .failed { b with table := b.table.modify x (·.fail reason) }) := by
  let failed : Broker := { b with table := b.table.modify x (·.fail reason) }
  have hcount (event : ExpressionEvent) : (failed.noteExpression .failed).expressionCount event =
      b.expressionCount event + if event = .failed then 1 else 0 :=
    expressionCount_noteExpression (b := failed) hb.metrics .failed event
  have hfailed : (failed.noteExpression .failed).table.failed = b.table.failed + 1 :=
    hb.table.failed_settle hget hopen (.failed reason)
  refine ⟨⟨rfl, ?_⟩, fun _ _ _ => rfl, fun event hevent => ?_, ?_⟩
  · rw [hcount, hfailed, if_pos rfl, Nat.add_assoc, Nat.add_comm 1]
  · rw [hcount, if_neg hevent, Nat.add_zero]
  · exact hb.table.done_settle hget hopen (.failed reason)

/-- Abandoning an expression counts its failure and its tasks. -/
theorem loses_abandon (hb : b.IsAccountable) (x : ExpressionId) (reason : String) :
    Loses 0 b (b.abandon x reason) := by
  unfold abandon
  split
  · next hopen =>
    obtain ⟨e, hget, hopen⟩ := isOpen_iff.mp hopen
    let failed : Broker :=
      noteExpression .failed { b with table := b.table.modify x (·.fail reason) }
    have haccountable : failed.IsAccountable :=
      hb.of_proceeds (proceeds_modify b x (Expression.fail_id reason))
        (hb.metrics.countExpression ExpressionEvent.failed.label)
    exact (loses_fail hb hget hopen reason).trans (loses_dropTasks haccountable x)
  · exact loses_dropTasks hb x

/-! ## Timing out -/

/-- Timing out keeps a broker accountable. -/
theorem IsAccountable.timeOut (hb : b.IsAccountable) (t : Task) : (b.timeOut t).IsAccountable :=
  hb.of_proceeds (proceeds_timeOut t b) (isSorted_timeOut hb.metrics t)

/-- A task that was taken out is counted as timed out, and its expression is abandoned. -/
theorem loses_timeOut (hb : b.IsAccountable) (t : Task) : Loses 1 b (b.timeOut t) := by
  have hnoted := loses_noteTasks hb.metrics (.inl rfl) 1
  have haccountable : (b.noteTasks .timedOut 1).IsAccountable :=
    ⟨hb.queue, hb.table, hb.metrics.countTasks _ 1⟩
  exact hnoted.trans (loses_abandon haccountable t.expression timeoutReason)

/-- A row of tasks that were taken out is counted one by one. -/
theorem loses_foldl_timeOut (hb : b.IsAccountable) (ts : List Task) :
    Loses ts.length b (ts.foldl (fun b t => b.timeOut t) b) := by
  induction ts generalizing b with
  | nil => exact .refl b
  | cons t ts ih =>
    rw [List.length_cons, Nat.add_comm]
    exact (loses_timeOut hb t).trans (ih (hb.timeOut t))

/-- Reaping takes out what lapsed and counts it. -/
theorem loses_reap (hb : b.IsAccountable) (now : Time) : Loses 0 b (b.reap now) := by
  let taken : Broker := { b with queue := (b.queue.takeExpired now).2 }
  have htaken : taken.IsAccountable := ⟨hb.queue.completeAll _, hb.table, hb.metrics⟩
  exact (loses_foldl_timeOut htaken (b.queue.takeExpired now).1).of_taken
    (Queue.completeAll_filter_size hb.queue _)

/-- Reaping balances. -/
theorem balances_reap (hb : b.IsAccountable) (now : Time) : Balances 0 b (b.reap now) :=
  (loses_reap hb now).toBalances

/-- A watchdog keeps a broker accountable. -/
theorem IsAccountable.reclaim (hb : b.IsAccountable) (id : TaskId) (now : Time) :
    (b.reclaim id now).IsAccountable :=
  hb.of_proceeds (proceeds_reclaim id now b) (isSorted_reclaim hb.metrics id now)

/-- A watchdog takes out its task if the claim has lapsed, and counts it. -/
theorem loses_reclaim (hb : b.IsAccountable) (id : TaskId) (now : Time) :
    Loses 0 b (b.reclaim id now) := by
  unfold Broker.reclaim Queue.reclaim
  cases hfind : b.queue.get? id with
  | none => exact .refl b
  | some e =>
    obtain ⟨he, rfl⟩ := Queue.mem_of_get? hfind
    cases hlapsed : e.hasLapsed now with
    | false => simpa [hlapsed] using Loses.refl b
    | true =>
      let dropped : Broker := { b with queue := b.queue.drop e.task.id (.released e.task.id) }
      have hdropped : dropped.IsAccountable := ⟨hb.queue.drop _ _, hb.table, hb.metrics⟩
      have htimedOut := (loses_timeOut hdropped e.task).trans (loses_gauge _)
      simp only [hlapsed, if_true]
      refine htimedOut.of_taken ?_
      rw [Nat.add_comm, Queue.drop_size hb.queue he]

end Broker

end Piecework

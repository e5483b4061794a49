import Piecework.Proofs.Submit

/-!
# Reporting

A report takes its task out of the queue and then finishes, fails or resumes the
expression of the task. Resuming substitutes the result and runs the next pass. A
report on a task of one expression changes no other share.
-/

namespace Piecework

namespace Broker

variable {b : Broker} {x y : ExpressionId}

/-- A queued task belongs to an expression of the table. -/
theorem exists_get?_of_queued (hb : b.IsOrdered) {q : Entry}
    (hq : q ∈ b.queue.entries) : ∃ e, b.table.get? q.task.expression = some e := by
  cases hget : b.table.get? q.task.expression with
  | some e => exact ⟨e, rfl⟩
  | none =>
    have hnone : (b.share q.task.expression).entries = [] := hb.known _ hget
    have hmem : q ∈ (b.share q.task.expression).entries :=
      List.mem_filter.mpr ⟨hq, by simp⟩
    rw [hnone] at hmem
    contradiction

/-- The broker once a queued task was reported on, before its expression is looked at. -/
def completed (q : Entry) (b : Broker) : Broker :=
  noteTasks .completed 1 { b with queue := b.queue.drop q.task.id (.cancelled q.task.id) }

/-- The broker after a report on a queued task of an expression in the table. -/
def reported (q : Entry) (e : Expression) (r : Report) (b : Broker) : Broker :=
  if e.isFinal then b.completed q
  else match r.failure with
    | some reason => (b.completed q).abandon e.id reason
    | none => (b.completed q).resume e q.task.id r.result

/-- A completed task is gone from the share of its own expression and from no other. -/
theorem share_completed (hq : b.queue.IsOrdered) {q : Entry} (hmem : q ∈ b.queue.entries)
    (y : ExpressionId) :
    (b.completed q).share y =
      if y = q.task.expression then
        ⟨(b.share y).expression, (b.share y).entries.filter (·.task.id ≠ q.task.id)⟩
      else b.share y := by
  have hcomm : (b.completed q).queue.entries.filter (·.task.expression = y) =
      (b.share y).entries.filter (·.task.id ≠ q.task.id) := by
    simp only [completed, noteTasks, share, Queue.drop_entries, List.filter_filter, Bool.and_comm]
  split
  · exact congrArg (Share.mk _) hcomm
  · next hy =>
    refine congrArg (Share.mk _) (hcomm.trans (List.filter_eq_self.mpr fun e he => ?_))
    obtain ⟨hqueued, hexpression⟩ := List.mem_filter.mp he
    have hne : e.task.id ≠ q.task.id := by
      intro hid
      rw [hq.eq_of_id_eq hqueued hmem hid] at hexpression
      exact hy (by simpa using Eq.symm (of_decide_eq_true hexpression))
    simpa using hne

/-- Completing a task keeps the order of the queue. -/
theorem isOrdered_completed (hq : b.queue.IsOrdered) (q : Entry) :
    (b.completed q).queue.IsOrdered := hq.drop _ _

/-- A report on a queued task of a known expression is accepted. -/
theorem report_of_queued {q : Entry} {e : Expression} {r : Report}
    (hfind : b.queue.get? r.id = some q) (hget : b.table.get? q.task.expression = some e) :
    b.report r = (.ok (), (b.reported q e r).gauge) := by
  obtain ⟨_, hid⟩ := Queue.mem_of_get? hfind
  unfold report Queue.complete reported completed
  simp only [hfind, noteTasks, hget, hid]
  split
  · rfl
  · cases r.failure <;> rfl

/-- A change of one expression changes its share and no other. -/
theorem share_modify (b : Broker) (x y : ExpressionId) {f : Expression → Expression}
    (hf : ∀ e, (f e).id = e.id) :
    Broker.share y { b with table := b.table.modify x f } =
      if y = x then ⟨(b.share y).expression.map f, (b.share y).entries⟩ else b.share y := by
  simp only [share, Table.get?_modify _ _ _ hf]
  split <;> simp

theorem proceeds_resume (e : Expression) (id : TaskId) (v : Int64) (b : Broker) :
    b.Proceeds (b.resume e id v) := by
  have hmodify := proceeds_modify b e.id (Expression.substitute_id id v)
  unfold resume
  dsimp only
  split
  · exact hmodify.trans (proceeds_runPass _ _ _)
  · exact hmodify.trans (proceeds_abandon _ _ _)

/-- Resuming one expression leaves the shares of the others. -/
theorem share_resume_of_ne (hq : b.queue.IsOrdered) {e : Expression} (hne : y ≠ e.id)
    (id : TaskId) (v : Int64) : (b.resume e id v).share y = b.share y := by
  let substituted : Broker := { b with table := b.table.modify e.id (·.substitute id v) }
  have hmodify : substituted.share y = b.share y :=
    (share_modify b e.id y (Expression.substitute_id id v)).trans (if_neg hne)
  rw [← hmodify]
  unfold resume
  dsimp only
  split
  · exact share_runPass_of_ne (b := substituted) hq hne _
  · exact (share_abandon (b := substituted) hq _ _ _).trans (if_neg hne)

/-- A substituted result is seen in the share of its expression. -/
theorem share_substitute {e : Expression} (hget : b.table.get? e.id = some e) (id : TaskId)
    (v : Int64) :
    Broker.share e.id { b with table := b.table.modify e.id (·.substitute id v) } =
      ⟨some (e.substitute id v), (b.share e.id).entries⟩ := by
  rw [share_modify b e.id e.id (Expression.substitute_id id v), if_pos rfl]
  simp [share, hget]

/-- Resuming an expression that waits for the task runs a pass over its program. -/
theorem exists_passes_resume (hq : b.queue.IsOrdered) {e : Expression} {id : TaskId}
    (hget : b.table.get? e.id = some e) (hid : id ∈ e.program.tasks) (v : Int64) :
    ∃ created, Task.Issued b.costs e.id b.queue.lastId created ∧
      Share.Passes (e.program.substitute id v) ⟨some (e.substitute id v), (b.share e.id).entries⟩
        created ((b.resume e id v).share e.id) ∧
      (b.resume e id v).queue.lastId = b.queue.lastId + created.length := by
  let substituted : Broker := { b with table := b.table.modify e.id (·.substitute id v) }
  have hpasses :=
    exists_passes_runPass (b := substituted) hq e.id (e.program.substitute id v)
  rw [share_substitute hget] at hpasses
  unfold resume
  rw [if_pos (Program.mentions_iff.mpr hid)]
  exact hpasses

/-- Resuming an expression that does not wait for the task fails it. -/
theorem share_resume_of_not_mem (hq : b.queue.IsOrdered) {e : Expression} {id : TaskId}
    (hget : b.table.get? e.id = some e) (hid : id ∉ e.program.tasks) (v : Int64) :
    (b.resume e id v).share e.id =
        Share.fail ProgramError.malformed.message ⟨some (e.substitute id v), []⟩ ∧
      (b.resume e id v).queue.lastId = b.queue.lastId := by
  let substituted : Broker := { b with table := b.table.modify e.id (·.substitute id v) }
  have habandon := share_abandon (b := substituted) hq e.id e.id ProgramError.malformed.message
  rw [share_substitute hget, if_pos rfl] at habandon
  unfold resume
  rw [if_neg fun hmentions => hid (Program.mentions_iff.mp hmentions)]
  exact ⟨habandon, by simp [Queue.discard]⟩

/-- After its task is taken out, a report proceeds with the expression of the task. -/
theorem proceeds_reported_of_completed (q : Entry) (e : Expression) (r : Report) (b : Broker) :
    (b.completed q).Proceeds (b.reported q e r) := by
  unfold reported
  split
  · exact .refl _
  · cases r.failure with
    | some reason => exact proceeds_abandon e.id reason _
    | none => exact proceeds_resume e q.task.id r.result _

theorem proceeds_reported {q : Entry} {r : Report} (hfind : b.queue.get? r.id = some q)
    (e : Expression) : b.Proceeds (b.reported q e r) := by
  obtain ⟨_, hid⟩ := Queue.mem_of_get? hfind
  have hdrop : b.Proceeds (b.completed q) := by
    have hperform := proceeds_perform b (c := .complete r.id) (by simp)
    rwa [Queue.perform, Queue.complete, hfind, ← hid] at hperform
  exact hdrop.trans (proceeds_reported_of_completed q e r b)

/-- A report on a task of one expression leaves the shares of the others. -/
theorem share_reported_of_ne (hb : b.IsOrdered) {q : Entry} (hmem : q ∈ b.queue.entries)
    {e : Expression} (hid : e.id = q.task.expression) (r : Report)
    (hne : y ≠ q.task.expression) : (b.reported q e r).share y = b.share y := by
  have hkept : (b.completed q).share y = b.share y :=
    (share_completed hb.queue hmem y).trans (if_neg hne)
  have hqueue := isOrdered_completed hb.queue q
  have hne' : y ≠ e.id := hid ▸ hne
  rw [← hkept]
  unfold reported
  split
  · rfl
  · cases r.failure with
    | some reason => exact (share_abandon hqueue _ _ _).trans (if_neg hne')
    | none => exact share_resume_of_ne hqueue hne' _ _

end Broker

end Piecework

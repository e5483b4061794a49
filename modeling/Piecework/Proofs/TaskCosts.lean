import Piecework.Proofs.Reachable

/-!
# What tasks cost

A broker keeps the costs that it started with, and every task that it queues carries the
cost of its operator.
-/

namespace Piecework

namespace Broker

variable {b : Broker}

/-! ## No operation changes the costs -/

@[simp] theorem dropTasks_costs (x : ExpressionId) (b : Broker) : (b.dropTasks x).costs = b.costs :=
  rfl

@[simp] theorem finish_costs (x : ExpressionId) (v : Int64) (b : Broker) :
    (b.finish x v).costs = b.costs := by
  unfold finish
  split <;> rfl

@[simp] theorem abandon_costs (x : ExpressionId) (reason : String) (b : Broker) :
    (b.abandon x reason).costs = b.costs := by
  unfold abandon
  split <;> rfl

@[simp] theorem applyReduction_costs (x : ExpressionId) (r : Reduction) (b : Broker) :
    (b.applyReduction x r).costs = b.costs := by
  unfold applyReduction
  cases r.outcome <;> simp [noteTasks]

@[simp] theorem runPass_costs (x : ExpressionId) (p : Program) (b : Broker) :
    (b.runPass x p).costs = b.costs :=
  applyReduction_costs _ _ _

@[simp] theorem timeOut_costs (t : Task) (b : Broker) : (b.timeOut t).costs = b.costs :=
  abandon_costs _ _ _

@[simp] theorem reap_costs (now : Time) (b : Broker) : (b.reap now).costs = b.costs := by
  have hfold (ts : List Task) (b : Broker) :
      (ts.foldl (fun b t => b.timeOut t) b).costs = b.costs := by
    induction ts generalizing b with
    | nil => rfl
    | cons t ts ih => rw [List.foldl_cons, ih, timeOut_costs]
  exact hfold _ _

@[simp] theorem resume_costs (e : Expression) (id : TaskId) (v : Int64) (b : Broker) :
    (b.resume e id v).costs = b.costs := by
  unfold resume
  split <;> simp

/-- Every queued task carries the cost of its operator. -/
def IsPriced (b : Broker) : Prop :=
  ∀ q ∈ b.queue.entries, q.task.cost = b.costs.cost q.task.operator

end Broker

namespace Moment

variable {m : Moment}

/-- No event changes the costs. -/
theorem costs_step (m : Moment) (ev : Event) : (m.step ev).2.broker.costs = m.broker.costs := by
  cases ev with
  | submit text owner =>
    cases hcompile : Infix.compile text <;>
      simp [step, Broker.submit, hcompile, Broker.gauge, Broker.noteExpression]
  | poll =>
    simp only [step, Broker.poll]
    split <;> simp [Broker.gauge]
  | report r =>
    rw [step_report_broker]
    simp only [Broker.report]
    split
    · rfl
    · split
      · rfl
      · split
        · rfl
        · split <;> simp [Broker.gauge, Broker.noteTasks]
  | reclaim id =>
    simp only [step, Broker.reclaim]
    split <;> simp [Broker.gauge]
  | wait ms => rfl

/-- An event queues tasks with the costs of their operators. -/
theorem isPriced_step (hm : m.broker.IsOrdered) (h : m.broker.IsPriced) (ev : Event) :
    (m.step ev).2.broker.IsPriced := by
  intro q hq
  rw [costs_step]
  obtain ⟨_, hchange, hissued, _⟩ := exists_change hm ev q.task.expression
  rcases hchange.mem_tasks (Broker.mem_tasks_share_iff.mpr ⟨q, hq, rfl, rfl⟩) with hold | hnew
  · obtain ⟨q', hq', htask, _⟩ := Broker.mem_tasks_share_iff.mp hold
    exact htask ▸ h q' hq'
  · exact (hissued.cut q.task hnew).cost_eq

end Moment

end Piecework

import Piecework.Proofs.Reachable

/-!
# Counters

The samples of a family stand in strictly increasing order of their events, so an event
has one sample at most and raising its count raises no other. Every operation of the
broker counts by raising, so the samples of a reachable broker are in order.
-/

namespace Piecework

namespace Counter

/-- Samples stand in strictly increasing order of their events. -/
def IsSorted (c : Counter) : Prop := c.Pairwise (·.1 < ·.1)

/-- The count of the first sample is looked at first. -/
theorem count_cons (event : String) (n : Nat) (c : Counter) (x : String) :
    count ((event, n) :: c) x = if x = event then n else c.count x := by
  by_cases hx : x = event
  · simp [count, hx]
  · simp [count, List.lookup_cons, beq_false_of_ne hx, hx]

/-- An event without a sample has not been counted. -/
theorem count_eq_zero {c : Counter} {x : String} (h : ∀ s ∈ c, x ≠ s.1) : c.count x = 0 := by
  induction c with
  | nil => rfl
  | cons s c ih =>
    obtain ⟨hfirst, hrest⟩ := List.forall_mem_cons.mp h
    rw [count_cons, if_neg hfirst, ih hrest]

/-- Raising a count adds no sample of another event. -/
theorem event_eq_or_mem_of_mem_add {c : Counter} {event : String} {n : Nat} {s : String × Nat}
    (h : s ∈ c.add event n) : s.1 = event ∨ ∃ s' ∈ c, s'.1 = s.1 := by
  induction c with
  | nil => exact .inl (congrArg Prod.fst (List.mem_singleton.mp h))
  | cons s' c ih =>
    simp only [add] at h
    split at h
    · next heq =>
      rcases List.mem_cons.mp h with rfl | hold
      · exact .inl heq
      · exact .inr ⟨s, List.mem_cons_of_mem _ hold, rfl⟩
    · split at h
      · rcases List.mem_cons.mp h with rfl | hold
        · exact .inl rfl
        · exact .inr ⟨s, hold, rfl⟩
      · rcases List.mem_cons.mp h with rfl | hrest
        · exact .inr ⟨_, List.mem_cons_self, rfl⟩
        · refine (ih hrest).imp_right fun ⟨s'', hs'', hevent⟩ => ?_
          exact ⟨s'', List.mem_cons_of_mem _ hs'', hevent⟩

/-- Raising a count keeps the samples in order. -/
theorem IsSorted.add {c : Counter} (h : c.IsSorted) (event : String) (n : Nat) :
    (c.add event n).IsSorted := by
  induction c with
  | nil => exact List.pairwise_singleton _ _
  | cons s c ih =>
    obtain ⟨hlater, hrest⟩ := List.pairwise_cons.mp h
    simp only [Counter.add]
    split
    · exact List.pairwise_cons.mpr ⟨hlater, hrest⟩
    · next hne =>
      split
      · next hlt =>
        refine List.pairwise_cons.mpr ⟨fun s' hs' => ?_, h⟩
        rcases List.mem_cons.mp hs' with rfl | hs'
        · exact hlt
        · exact String.lt_trans hlt (hlater s' hs')
      · next hge =>
        refine List.pairwise_cons.mpr ⟨fun s' hs' => ?_, ih hrest⟩
        rcases event_eq_or_mem_of_mem_add hs' with heq | ⟨s'', hs'', heq⟩
        · rw [heq]
          exact Std.lt_of_le_of_ne (String.not_lt.mp hge) hne
        · exact heq ▸ hlater s'' hs''

/-- Raising a count raises the count of its own event and of no other. -/
theorem IsSorted.count_add {c : Counter} (h : c.IsSorted) (event : String) (n : Nat) (x : String) :
    (c.add event n).count x = c.count x + if x = event then n else 0 := by
  induction c with
  | nil => rw [Counter.add, count_cons]; simp [count]
  | cons s c ih =>
    obtain ⟨e, m⟩ := s
    obtain ⟨hlater, hrest⟩ := List.pairwise_cons.mp h
    simp only [Counter.add]
    split
    · next heq =>
      rw [count_cons, count_cons, heq]
      split <;> rfl
    · next hne =>
      split
      · next hlt =>
        rw [count_cons]
        split
        · next hx =>
          -- Every sample comes after the new one, so the event had none.
          rw [count_eq_zero, Nat.zero_add]
          rintro s hs rfl
          rcases List.mem_cons.mp hs with rfl | hs
          · exact hne hx
          · exact String.lt_irrefl _ (String.lt_trans hlt (hx ▸ hlater s hs))
        · rfl
      · rw [count_cons, count_cons, ih hrest]
        split
        · next hx => rw [if_neg fun hevent => hne (hx.symm.trans hevent), Nat.add_zero]
        · rfl

end Counter

/-- The samples of both families stand in order. -/
structure Metrics.IsSorted (m : Metrics) : Prop where
  expressions : m.expressions.IsSorted
  tasks : m.tasks.IsSorted

namespace Metrics

variable {m : Metrics}

/-- New metrics have no samples. -/
theorem isSorted_empty : IsSorted {} := ⟨List.Pairwise.nil, List.Pairwise.nil⟩

theorem IsSorted.countExpression (h : m.IsSorted) (label : String) :
    (m.countExpression label).IsSorted :=
  ⟨h.expressions.add label 1, h.tasks⟩

theorem IsSorted.countTasks (h : m.IsSorted) (label : String) (n : Nat) :
    (m.countTasks label n).IsSorted := by
  unfold Metrics.countTasks
  split
  · exact h
  · exact ⟨h.expressions, h.tasks.add label n⟩

theorem IsSorted.setDepth (h : m.IsSorted) (queued claimed : Nat) :
    (m.setDepth queued claimed).IsSorted :=
  ⟨h.expressions, h.tasks⟩

/-- Counting an expression event raises its own count. -/
theorem IsSorted.count_countExpression (h : m.IsSorted) (label x : String) :
    (m.countExpression label).expressions.count x =
      m.expressions.count x + if x = label then 1 else 0 :=
  h.expressions.count_add label 1 x

/-- Counting task events raises their own count, also when there are none of them. -/
theorem IsSorted.count_countTasks (h : m.IsSorted) (label : String) (n : Nat) (x : String) :
    (m.countTasks label n).tasks.count x = m.tasks.count x + if x = label then n else 0 := by
  unfold Metrics.countTasks
  split
  · next hzero => simp [hzero]
  · exact h.tasks.count_add label n x

/-- Task events are not counted as expression events. -/
@[simp] theorem countTasks_expressions (label : String) (n : Nat) (m : Metrics) :
    (m.countTasks label n).expressions = m.expressions := by
  unfold Metrics.countTasks
  split <;> rfl

end Metrics

namespace Broker

variable {b : Broker}

/-! ## What the operations count -/

theorem isSorted_dropTasks (h : b.metrics.IsSorted) (x : ExpressionId) :
    (b.dropTasks x).metrics.IsSorted :=
  h.countTasks TaskEvent.discarded.label _

theorem isSorted_finish (h : b.metrics.IsSorted) (x : ExpressionId) (v : Int64) :
    (b.finish x v).metrics.IsSorted := by
  unfold finish
  split
  · exact h.countExpression ExpressionEvent.done.label
  · exact h

theorem isSorted_abandon (h : b.metrics.IsSorted) (x : ExpressionId) (reason : String) :
    (b.abandon x reason).metrics.IsSorted := by
  unfold abandon
  split
  · exact isSorted_dropTasks (h.countExpression ExpressionEvent.failed.label) x
  · exact isSorted_dropTasks h x

theorem isSorted_applyReduction (h : b.metrics.IsSorted) (x : ExpressionId) (r : Reduction) :
    (b.applyReduction x r).metrics.IsSorted := by
  have hcounted : (b.noteTasks .created r.spawned.length).metrics.IsSorted :=
    h.countTasks TaskEvent.created.label r.spawned.length
  unfold applyReduction
  cases r.outcome with
  | pending => exact hcounted
  | completed v => exact isSorted_finish hcounted x v
  | failed e => exact isSorted_abandon hcounted x e.message

theorem isSorted_runPass (h : b.metrics.IsSorted) (x : ExpressionId) (p : Program) :
    (b.runPass x p).metrics.IsSorted := by
  let r := p.reduce Queue.sink b.costs x b.queue
  exact isSorted_applyReduction (b := { b with queue := r.2 }) h x r.1

theorem isSorted_submit (h : b.metrics.IsSorted) {text : String} {owner : Nat} {x : ExpressionId}
    {b' : Broker} (hsubmit : b.submit text owner = .ok (x, b')) : b'.metrics.IsSorted := by
  unfold submit at hsubmit
  split at hsubmit
  · contradiction
  · next p _ =>
    obtain ⟨rfl, rfl⟩ := Prod.mk.inj (Except.ok.inj hsubmit)
    let registered : Broker :=
      noteExpression .submitted { b with table := (b.table.insert owner text p).2 }
    have hregistered : registered.metrics.IsSorted :=
      h.countExpression ExpressionEvent.submitted.label
    exact (isSorted_runPass hregistered _ _).setDepth _ _

theorem isSorted_timeOut (h : b.metrics.IsSorted) (t : Task) : (b.timeOut t).metrics.IsSorted :=
  isSorted_abandon (b := b.noteTasks .timedOut 1) (h.countTasks TaskEvent.timedOut.label 1)
    t.expression timeoutReason

theorem isSorted_foldl_timeOut (h : b.metrics.IsSorted) (ts : List Task) :
    (ts.foldl (fun b t => b.timeOut t) b).metrics.IsSorted := by
  induction ts generalizing b with
  | nil => exact h
  | cons t ts ih => exact ih (isSorted_timeOut h t)

theorem isSorted_reap (h : b.metrics.IsSorted) (now : Time) : (b.reap now).metrics.IsSorted :=
  isSorted_foldl_timeOut (b := { b with queue := (b.queue.takeExpired now).2 }) h _

theorem isSorted_poll (h : b.metrics.IsSorted) (now : Time) :
    (b.poll now).2.metrics.IsSorted := by
  have hreaped := isSorted_reap h now
  unfold poll
  dsimp only
  cases (b.reap now).queue.claim now with
  | none => exact hreaped.setDepth _ _
  | some r => exact hreaped.setDepth _ _

theorem isSorted_reclaim (h : b.metrics.IsSorted) (id : TaskId) (now : Time) :
    (b.reclaim id now).metrics.IsSorted := by
  unfold reclaim
  cases b.queue.reclaim id now with
  | none => exact h
  | some r => exact (isSorted_timeOut (b := { b with queue := r.2 }) h r.1).setDepth _ _

theorem isSorted_resume (h : b.metrics.IsSorted) (e : Expression) (id : TaskId) (v : Int64) :
    (b.resume e id v).metrics.IsSorted := by
  let substituted : Broker := { b with table := b.table.modify e.id (·.substitute id v) }
  unfold resume
  dsimp only
  split
  · exact isSorted_runPass (b := substituted) h e.id _
  · exact isSorted_abandon (b := substituted) h e.id _

theorem isSorted_report (h : b.metrics.IsSorted) (r : Report) :
    (b.report r).2.metrics.IsSorted := by
  unfold report
  cases b.queue.complete r.id with
  | none => exact h
  | some a =>
    have hcompleted := h.countTasks TaskEvent.completed.label 1
    dsimp only
    split
    · exact hcompleted
    · next e _ =>
      split
      · exact hcompleted.setDepth _ _
      · split
        · exact (isSorted_abandon hcompleted e.id _).setDepth _ _
        · exact (isSorted_resume hcompleted e _ _).setDepth _ _

end Broker

namespace Moment

variable {m : Moment}

/-- Every event keeps the samples in order. -/
theorem isSorted_step (h : m.broker.metrics.IsSorted) (ev : Event) :
    (m.step ev).2.broker.metrics.IsSorted := by
  cases ev with
  | submit text owner =>
    simp only [step]
    split
    · exact h
    · next hsubmit => exact Broker.isSorted_submit h hsubmit
  | poll => exact Broker.isSorted_poll h m.now
  | report r =>
    have hreport := Broker.isSorted_report h r
    simp only [step]
    split
    · next heq => rwa [heq] at hreport
    · next heq => rwa [heq] at hreport
  | reclaim id => exact Broker.isSorted_reclaim h id m.now
  | wait ms => exact h

/-- Every run keeps the samples in order. -/
theorem isSorted_after (h : m.broker.metrics.IsSorted) (es : List Event) :
    (m.after es).broker.metrics.IsSorted := by
  induction es generalizing m with
  | nil => exact h
  | cons ev es ih => exact ih (isSorted_step h ev)

/-- The samples of a reachable broker are in order. -/
theorem Reachable.isSorted (h : m.Reachable) : m.broker.metrics.IsSorted := by
  obtain ⟨costs, events, rfl⟩ := h
  exact isSorted_after Metrics.isSorted_empty events

end Moment

end Piecework

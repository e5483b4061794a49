import Piecework.Proofs.Consistency

/-!
# Reachable moments

A new broker is consistent and every event keeps it so, hence every moment of every
run is. For the whole table and queue this says which programs wait for which tasks.
-/

namespace Piecework

/-- Queue and table are in order, every share is consistent, and no queued task divides by zero. -/
structure Broker.IsConsistent (b : Broker) : Prop where
  queue : b.queue.IsOrdered
  table : b.table.IsNumbered
  shares : ∀ x, (b.share x).IsConsistent
  right_ne_zero : ∀ x, ∀ t ∈ (b.share x).tasks, t.operator = .div → t.right ≠ 0

namespace Broker

/-- A consistent broker is in order. -/
theorem IsConsistent.isOrdered {b : Broker} (h : b.IsConsistent) : b.IsOrdered := by
  refine ⟨h.queue, h.table, ?_⟩
  intro x hx
  have htasks := (h.shares x).tasks_eq_nil fun e he => absurd (hx.symm.trans he) (by simp)
  exact List.map_eq_nil_iff.mp htasks

/-- A queued task belongs to an open expression that waits for it. -/
theorem IsConsistent.exists_waiting {b : Broker} (h : b.IsConsistent) {q : Entry}
    (hq : q ∈ b.queue.entries) :
    ∃ e, b.table.get? q.task.expression = some e ∧ e.id = q.task.expression ∧
      e.isFinal = false ∧ q.task.id ∈ e.program.tasks := by
  obtain ⟨e, hget⟩ := exists_get?_of_queued h.isOrdered hq
  have hmem := mem_tasks_share_iff.mpr ⟨q, hq, rfl, rfl⟩
  have hopen := (h.shares q.task.expression).isFinal_eq_false hget hmem
  have hawaits := (h.shares q.task.expression).awaits hget hopen
  exact ⟨e, hget, (Table.mem_of_get? hget).2, hopen,
    hawaits.tasks_perm.mem_iff.mpr (List.mem_map_of_mem hmem)⟩

/-- An expression without queued tasks has finished. -/
theorem IsConsistent.isFinal_of_no_tasks {b : Broker} (h : b.IsConsistent) {e : Expression}
    (hget : b.table.get? e.id = some e)
    (hfree : ∀ q ∈ b.queue.entries, q.task.expression ≠ e.id) : e.isFinal = true := by
  by_contra hfinal
  have hawaits := (h.shares e.id).awaits hget (Bool.of_not_eq_true hfinal)
  obtain ⟨id, hid⟩ := List.exists_mem_of_ne_nil _ hawaits.nonempty
  obtain ⟨t, ht, _⟩ := List.mem_map.mp (hawaits.tasks_perm.mem_iff.mp hid)
  obtain ⟨q, hq, rfl, hx⟩ := mem_tasks_share_iff.mp ht
  exact hfree q hq hx

/-- A new broker is consistent. -/
theorem isConsistent_new (costs : Costs) : IsConsistent { costs := costs } :=
  ⟨Queue.isOrdered_empty, Table.isNumbered_empty, fun _ => rfl, fun _ t ht => by contradiction⟩

end Broker

namespace Moment

variable {m : Moment}

/-! ## Events -/

/-- An event keeps the order of the queue and the numbers of the table, and no event but a poll
claims a task. -/
theorem step_keeps_order (hm : m.broker.IsOrdered) (ev : Event) :
    (m.step ev).2.broker.queue.IsOrdered ∧ (m.step ev).2.broker.table.IsNumbered ∧
      (ev ≠ .poll → m.broker.queue.ReachesUnclaiming (m.step ev).2.broker.queue) := by
  -- Events that proceed without a claim keep everything at once.
  have hproceeds {m' : Moment} (h : m.broker.Proceeds m'.broker) :
      m'.broker.queue.IsOrdered ∧ m'.broker.table.IsNumbered ∧
        (ev ≠ .poll → m.broker.queue.ReachesUnclaiming m'.broker.queue) :=
    ⟨h.isOrdered hm.queue, h.2.isNumbered hm.table, fun _ => h.1⟩
  cases ev with
  | submit text owner =>
    cases hsubmit : m.broker.submit text owner with
    | error e =>
      simp only [step, hsubmit]
      exact hproceeds (.refl _)
    | ok r =>
      obtain ⟨_, _, _, _, _, _, _, _, hqueue, htable⟩ := Broker.exists_passes_submit hm hsubmit
      simp only [step, hsubmit]
      exact ⟨hqueue.isOrdered hm.queue, htable, fun _ => hqueue⟩
  | poll =>
    have hreap := Broker.proceeds_reap m.now m.broker
    have hreaped := hreap.isOrdered hm.queue
    refine ⟨?_, ?_, fun hpoll => absurd rfl hpoll⟩
    · have hclaimed := hreaped.perform (.claim m.now)
      simp only [step, Broker.poll, Queue.perform] at hclaimed ⊢
      cases hclaim : (m.broker.reap m.now).queue.claim m.now with
      | none => exact hreaped
      | some r => rwa [hclaim] at hclaimed
    · have htable := hreap.2.isNumbered hm.table
      simp only [step, Broker.poll]
      cases (m.broker.reap m.now).queue.claim m.now <;> exact htable
  | report r =>
    cases hfind : m.broker.queue.get? r.id with
    | none =>
      rw [step_report_of_get?_eq_none hfind]
      exact hproceeds (.refl _)
    | some q =>
      obtain ⟨e, hget⟩ := Broker.exists_get?_of_queued hm (Queue.mem_of_get? hfind).1
      rw [step_report_of_queued hfind hget]
      exact hproceeds (Broker.proceeds_reported hfind e)
  | reclaim id => exact hproceeds (Broker.proceeds_reclaim id m.now m.broker)
  | wait ms => exact hproceeds (.refl _)

/-- No event but a submission changes the numbers of the table. -/
theorem sameNumbers_step (hm : m.broker.IsOrdered) {ev : Event}
    (hev : ∀ text owner, ev ≠ .submit text owner) :
    m.broker.table.SameNumbers (m.step ev).2.broker.table := by
  cases ev with
  | submit text owner => exact absurd rfl (hev text owner)
  | poll =>
    have hreap := (Broker.proceeds_reap m.now m.broker).2
    simp only [step, Broker.poll]
    cases (m.broker.reap m.now).queue.claim m.now <;> exact hreap
  | report r =>
    cases hfind : m.broker.queue.get? r.id with
    | none =>
      rw [step_report_of_get?_eq_none hfind]
      exact ⟨rfl, rfl⟩
    | some q =>
      obtain ⟨e, hget⟩ := Broker.exists_get?_of_queued hm (Queue.mem_of_get? hfind).1
      rw [step_report_of_queued hfind hget]
      exact (Broker.proceeds_reported hfind e).2
  | reclaim id => exact (Broker.proceeds_reclaim id m.now m.broker).2
  | wait ms => exact ⟨rfl, rfl⟩

/-- Only waiting moves the clock. -/
theorem now_step (m : Moment) {ev : Event} (hwait : ∀ ms, ev ≠ .wait ms) :
    (m.step ev).2.now = m.now := by
  cases ev with
  | submit text owner =>
    simp only [step]
    split <;> rfl
  | poll => rfl
  | report r =>
    simp only [step]
    split <;> rfl
  | reclaim id => rfl
  | wait ms => exact absurd rfl (hwait ms)

/-- Every event keeps a broker consistent. -/
theorem isConsistent_step (hm : m.broker.IsConsistent) (ev : Event) :
    (m.step ev).2.broker.IsConsistent := by
  obtain ⟨hqueue, htable, _⟩ := step_keeps_order hm.isOrdered ev
  refine ⟨hqueue, htable, fun x => ?_, fun x t ht => ?_⟩
  · obtain ⟨_, hchange, _, _⟩ := exists_change hm.isOrdered ev x
    exact hchange.isConsistent (hm.shares x)
  · obtain ⟨_, hchange, hissued, _⟩ := exists_change hm.isOrdered ev x
    rcases hchange.mem_tasks ht with hold | hnew
    · exact hm.right_ne_zero x t hold
    · exact (hissued.cut t hnew).right_ne_zero

/-- A poll keeps a broker consistent, at any time. -/
theorem isConsistent_poll {b : Broker} (hb : b.IsConsistent) (now : Time) :
    (b.poll now).2.IsConsistent :=
  isConsistent_step (m := ⟨now, b⟩) hb .poll

/-- The broker after a report does not depend on its answer. -/
theorem step_report_broker (m : Moment) (r : Report) :
    (m.step (.report r)).2.broker = (m.broker.report r).2 := by
  simp only [step]
  split
  · next hreport => rw [hreport]
  · next hreport => rw [hreport]

/-- A report keeps a broker consistent, accepted or not. -/
theorem isConsistent_report {b : Broker} (hb : b.IsConsistent) (r : Report) :
    (b.report r).2.IsConsistent := by
  rw [← step_report_broker ⟨0, b⟩ r]
  exact isConsistent_step hb (.report r)

/-- Every run keeps a broker consistent. -/
theorem isConsistent_after (hm : m.broker.IsConsistent) (es : List Event) :
    (m.after es).broker.IsConsistent := by
  induction es generalizing m with
  | nil => exact hm
  | cons ev es ih => exact ih (isConsistent_step hm ev)

/-- A reachable broker is consistent. -/
theorem Reachable.isConsistent (h : m.Reachable) : m.broker.IsConsistent := by
  obtain ⟨costs, events, rfl⟩ := h
  exact isConsistent_after (Broker.isConsistent_new costs) events

/-! ## Reachable moments -/

/-- An expression of the table has a share of its own. -/
theorem Reachable.share_eq (h : m.Reachable) {e : Expression}
    (he : e ∈ m.broker.table.expressions) : (m.broker.share e.id).expression = some e :=
  h.isConsistent.table.get?_eq_some he

/-- In every reachable moment the program of an open expression is postfix, has no operator left
that could be cut out, and waits exactly once for each queued task of the expression and for
nothing else, at least for one; the program of a finished expression with a value is that value;
and every queued task belongs to an open expression of the table. -/
theorem Reachable.programs_match_queue (h : m.Reachable) :
    (∀ e ∈ m.broker.table.expressions, e.status = .processing →
      e.program.IsPostfix ∧ e.program.IsWindowless ∧ e.program.tasks.Nodup ∧
      (∀ id, id ∈ e.program.tasks ↔
        ∃ q ∈ m.broker.queue.entries, q.task.id = id ∧ q.task.expression = e.id) ∧
      e.program.tasks ≠ []) ∧
    (∀ e ∈ m.broker.table.expressions, ∀ v, e.status = .done v → e.program = [.number v]) ∧
    (∀ e ∈ m.broker.table.expressions, e.isFinal = true →
      ∀ q ∈ m.broker.queue.entries, q.task.expression ≠ e.id) ∧
    (∀ q ∈ m.broker.queue.entries,
      ∃ e ∈ m.broker.table.expressions, e.id = q.task.expression) := by
  have hconsistent := h.isConsistent
  refine ⟨fun e he hstatus => ?_, fun e he v hstatus => ?_, fun e he hfinal q hq hid => ?_,
    fun q hq => ?_⟩
  · have hopen := Expression.isFinal_eq_false_iff.mpr hstatus
    have hawaits := (hconsistent.shares e.id).awaits (h.share_eq he) hopen
    refine ⟨hawaits.isPostfix, hawaits.windowless, ?_, fun id => ?_, hawaits.nonempty⟩
    · rw [hawaits.tasks_perm.nodup_iff]
      exact Broker.nodup_share_tasks hconsistent.queue e.id
    · rw [hawaits.tasks_perm.mem_iff, List.mem_map]
      constructor
      · rintro ⟨t, ht, rfl⟩
        obtain ⟨q, hq, rfl, hx⟩ := Broker.mem_tasks_share_iff.mp ht
        exact ⟨q, hq, rfl, hx⟩
      · rintro ⟨q, hq, rfl, hx⟩
        exact ⟨q.task, Broker.mem_tasks_share_iff.mpr ⟨q, hq, rfl, hx⟩, rfl⟩
  · have hshare := hconsistent.shares e.id
    simp only [Share.IsConsistent, h.share_eq he, hstatus] at hshare
    exact hshare.1
  · have hmem := Broker.mem_tasks_share_iff.mpr ⟨q, hq, rfl, hid⟩
    have hopen := (hconsistent.shares e.id).isFinal_eq_false (h.share_eq he) hmem
    exact absurd hopen (by simp [hfinal])
  · obtain ⟨e, hget⟩ := Broker.exists_get?_of_queued hconsistent.isOrdered hq
    exact ⟨e, Table.mem_of_get? hget⟩

/-- After a product of two sums is submitted and polled once, its program waits for both sums. -/
theorem programs_match_queue_of_product :
    ∃ e ∈ (after {} [.submit "(1+2)*(3+4)" 7, .poll]).broker.table.expressions,
      e.status = .processing ∧ e.program.IsPostfix ∧ e.program.IsWindowless ∧
        e.program.tasks.Nodup ∧ e.program.tasks ≠ [] := by
  have hreachable : Reachable (after {} [.submit "(1+2)*(3+4)" 7, .poll]) := ⟨{}, _, rfl⟩
  have hopen : ∃ e ∈ (after {} [.submit "(1+2)*(3+4)" 7, .poll]).broker.table.expressions,
      e.status = .processing := by decide +kernel
  obtain ⟨e, he, hstatus⟩ := hopen
  obtain ⟨hpost, hwindow, hnodup, _, hne⟩ :=
    hreachable.programs_match_queue.1 e he hstatus
  exact ⟨e, he, hstatus, hpost, hwindow, hnodup, hne⟩

end Moment

end Piecework

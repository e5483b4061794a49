import Piecework.Proofs.Reachable

/-!
# Which reports are accepted

A report is accepted exactly when its task is queued. The expression of a queued task
is open and waits for the task, and its program stays postfix when the result is put
in, so the later refusals of a report never come up and a refused report has changed
nothing. After its submission an expression can therefore fail by a division by zero,
by a lapsed claim or for a reason that a worker gave, and in no other way.
-/

namespace Piecework

/-- A pass over a postfix program that is no placeholder alone does not find it malformed. -/
theorem Program.outcome_ne_malformed {σ : Type} (sink : Sink σ) (costs : Costs) (x : ExpressionId)
    {p : Program} (hpost : p.IsPostfix) (hnotask : ∀ id, p ≠ [.task id]) (s : σ) :
    (p.reduce sink costs x s).1.outcome ≠ .failed .malformed := by
  obtain ⟨created, _, hreduces⟩ := exists_reduces sink costs x p s
  intro houtcome
  generalize p.reduce sink costs x s = r at hreduces houtcome
  cases hreduces with
  | pending => simp at houtcome
  | completed => simp at houtcome
  | divided => simp at houtcome
  | malformed hbad =>
    rcases hbad with hpost' | ⟨id, hp⟩
    · exact hpost' hpost
    · exact hnotask id hp

/-- A program stays postfix when the result of a task is put in. -/
theorem Program.IsPostfix.substitute {p : Program} (h : p.IsPostfix) (id : TaskId) (v : Int64) :
    (p.substitute id v).IsPostfix :=
  (operands?_substitute id v 0 p).trans h

/-- A worker's reason is the text of a report's error, and not empty. -/
theorem Report.failure_eq_some_iff {r : Report} {reason : String} :
    r.failure = some reason ↔ r.error = some reason ∧ reason ≠ "" := by
  simp [failure, Option.filter_eq_some_iff]

namespace Share

variable {allowed : String → Prop}

/-- There is an expression, and if it has failed, it did for a reason that is allowed. -/
def FailsOnly (allowed : String → Prop) (s : Share) : Prop :=
  match s.expression with
  | none => False
  | some e => ∀ reason, e.status = .failed reason → allowed reason

/-- An expression that fails only for allowed reasons is there. -/
theorem FailsOnly.exists_expression {s : Share} (h : s.FailsOnly allowed) :
    ∃ e, s.expression = some e ∧ ∀ reason, e.status = .failed reason → allowed reason := by
  cases he : s.expression with
  | none => simp [FailsOnly, he] at h
  | some e => exact ⟨e, rfl, by simpa only [FailsOnly, he] using h⟩

/-- The reasons do not depend on the queue. -/
theorem FailsOnly.of_expression_eq {s s' : Share} (h : s.FailsOnly allowed)
    (hexpression : s'.expression = s.expression) : s'.FailsOnly allowed := by
  unfold FailsOnly
  rw [hexpression]
  exact h

/-- An open expression may fail for an allowed reason. -/
theorem failsOnly_fail_of_open {e : Expression} (hopen : e.isFinal = false) {reason : String}
    (hreason : allowed reason) (es : List Entry) :
    (Share.fail reason ⟨some e, es⟩).FailsOnly allowed := by
  rw [fail_of_open hopen]
  intro other hother
  exact Status.failed.inj hother ▸ hreason

/-- Failing for an allowed reason keeps the reason of an expression that had failed before. -/
theorem FailsOnly.fail {s : Share} (h : s.FailsOnly allowed) {reason : String}
    (hreason : allowed reason) : (s.fail reason).FailsOnly allowed := by
  obtain ⟨_ | e, es⟩ := s
  · exact h.elim
  · cases hfinal : e.isFinal with
    | true => exact h.of_expression_eq (fail_expression_of_isFinal rfl hfinal reason)
    | false => exact failsOnly_fail_of_open hfinal hreason es

/-- A pass over a postfix program fails an open expression by a division by zero only. -/
theorem Passes.failsOnly {e : Expression} {es : List Entry} {created : List Task} {s' : Share}
    (h : Passes e.program ⟨some e, es⟩ created s') (hopen : e.isFinal = false)
    (hpost : e.program.IsPostfix) (hnotask : ∀ id, e.program ≠ [.task id])
    (hzero : allowed ProgramError.divisionByZero.message) : s'.FailsOnly allowed := by
  cases h with
  | pending _ _ _ _ =>
    have hstatus := Expression.isFinal_eq_false_iff.mp hopen
    simp [FailsOnly, Expression.advance_of_open hopen, hstatus]
  | completed _ => simp [FailsOnly, Expression.complete, Expression.settle_of_open hopen]
  | divided _ => exact failsOnly_fail_of_open hopen hzero es
  | malformed hbad =>
    rcases hbad with hpost' | ⟨id, hp⟩
    · exact absurd hpost hpost'
    · exact absurd hp (hnotask id)

end Share

namespace Moment

variable {m : Moment} {x : ExpressionId} {allowed : String → Prop}

/-! ## How an expression can fail -/

/-- A change of a consistent share fails its expression by a division by zero, by a lapsed claim or
for the reason of a report that it accepts. -/
theorem Change.failsOnly {ev : Event} {s s' : Share} {created : List Task}
    (h : m.Change x ev s created s') (hs : s.IsConsistent) (hfails : s.FailsOnly allowed)
    (hzero : allowed ProgramError.divisionByZero.message)
    (htimeout : allowed Broker.timeoutReason)
    (hreport : ∀ a ∈ m.accepted? ev, a.1.expression = x →
      ∀ reason, a.2.failure = some reason → allowed reason) : s'.FailsOnly allowed := by
  cases h with
  | unchanged => exact hfails
  | submitted _ _ _ => exact hfails.elim
  | claimed _ _ _ => exact hfails.of_expression_eq rfl
  | timedOut _ => exact hfails.fail htimeout
  | @refused r reason t _ haccepted hx _ hfailure =>
    exact hfails.fail (hreport (t, r) haccepted hx reason hfailure)
  | @resumed r t e _ _ _ _ _ _ _ he hopen hid hpasses =>
    have hawaits := hs.awaits he hopen
    exact hpasses.failsOnly (e := e.substitute t.id r.result) hopen
      (hawaits.isPostfix.substitute t.id r.result) (Program.substitute_ne_task hid r.result) hzero
  | @unmentioned r t e _ _ hmem he hopen hid =>
    have hawaits := hs.awaits he hopen
    exact absurd (hawaits.tasks_perm.mem_iff.mpr (List.mem_map_of_mem hmem)) hid
  | ignored _ _ _ _ => exact hfails.of_expression_eq rfl

/-- Over a run an expression fails by a division by zero, by a lapsed claim or for the reason of an
accepted report on one of its tasks. -/
theorem failsOnly_after (hm : m.broker.IsConsistent) {es : List Event}
    (hfails : (m.broker.share x).FailsOnly allowed)
    (hzero : allowed ProgramError.divisionByZero.message)
    (htimeout : allowed Broker.timeoutReason)
    (hreport : ∀ p ∈ m.trace es, ∀ a ∈ p.1.accepted? p.2, a.1.expression = x →
      ∀ reason, a.2.failure = some reason → allowed reason) :
    ((m.after es).broker.share x).FailsOnly allowed := by
  induction es generalizing m with
  | nil => exact hfails
  | cons ev es ih =>
    obtain ⟨hfirst, hrest⟩ := List.forall_mem_cons.mp hreport
    obtain ⟨_, hchange, _, _⟩ := exists_change hm.isOrdered ev x
    exact ih (isConsistent_step hm ev)
      (hchange.failsOnly (hm.shares x) hfails hzero htimeout hfirst) hrest

/-! ## Reports -/

/-- Reports on the tasks of a consistent broker are accepted. -/
theorem report_eq_ok_iff {b : Broker} (hb : b.IsConsistent) (r : Report) :
    (b.report r).1 = .ok () ↔ ∃ q ∈ b.queue.entries, q.task.id = r.id := by
  constructor
  · intro hok
    cases hfind : b.queue.get? r.id with
    | none => simp [Broker.report, Queue.complete, hfind] at hok
    | some q => exact ⟨q, Queue.mem_of_get? hfind⟩
  · rintro ⟨q, hq, hid⟩
    obtain ⟨e, hget, _⟩ := hb.exists_waiting hq
    rw [Broker.report_of_queued (hid ▸ hb.queue.get?_eq_some hq) hget]

/-- A report on a task that is not queued changes nothing. -/
theorem report_of_not_queued {b : Broker} {r : Report}
    (h : ∀ q ∈ b.queue.entries, q.task.id ≠ r.id) :
    b.report r = (.error (.taskNotFound r.id), b) := by
  have hfind : b.queue.get? r.id = none := by simpa [Queue.get?] using h
  simp [Broker.report, Queue.complete, hfind]

/-- After a report on a queued task, what is queued was so before under another number, or is new
and unclaimed. -/
theorem mem_or_new_of_report {b : Broker} (hb : b.IsConsistent) {r : Report} {q q' : Entry}
    (hq : q ∈ b.queue.entries) (hid : q.task.id = r.id)
    (hq' : q' ∈ (b.report r).2.queue.entries) :
    q' ∈ b.queue.entries ∧ q'.task.id ≠ r.id ∨
      b.queue.lastId < q'.task.id ∧ q'.isClaimed = false := by
  obtain ⟨e, hget, _⟩ := hb.exists_waiting hq
  rw [Broker.report_of_queued (hid ▸ hb.queue.get?_eq_some hq) hget] at hq'
  have hproceeds := Broker.proceeds_reported_of_completed q e r b
  refine (hproceeds.1.mem_or_new hq').imp_left fun hkept => ?_
  obtain ⟨hmem, hne⟩ := List.mem_filter.mp hkept
  exact ⟨hmem, hid ▸ of_decide_eq_true hne⟩

/-- In every reachable moment a report is accepted exactly when its task is queued, and any other is
refused by the number of its task and leaves the broker as it was, counters and gauges included. The
expression of a queued task is in the table, is open and mentions the task, and no pass over its
program with the result put in is refused as malformed. So an expression that is being processed
fails, if it ever does, by a division by zero, by a lapsed claim or with the text of a worker's
error. -/
theorem Reachable.report_accepted_iff_queued (h : m.Reachable) :
    (∀ r : Report,
      ((m.broker.report r).1 = .ok () ↔ ∃ q ∈ m.broker.queue.entries, q.task.id = r.id) ∧
      ((∀ q ∈ m.broker.queue.entries, q.task.id ≠ r.id) →
        m.broker.report r = (.error (.taskNotFound r.id), m.broker)) ∧
      (∀ x, (m.broker.report r).1 ≠ .error (.expressionNotFound x)) ∧
      ∀ q ∈ m.broker.queue.entries, q.task.id = r.id →
        ∃ e, m.broker.table.get? q.task.expression = some e ∧ e.isFinal = false ∧
          e.program.mentions r.id = true ∧
          ∀ queue : Queue, ((e.program.substitute r.id r.result).reduce Queue.sink
            m.broker.costs e.id queue).1.outcome ≠ .failed .malformed) ∧
    ∀ e ∈ m.broker.table.expressions, e.status = .processing → ∀ rest,
      ∃ e' ∈ (m.after rest).broker.table.expressions, e'.id = e.id ∧
        ∀ reason, e'.status = .failed reason →
          reason = "division by zero" ∨ reason = "timeout" ∨
            ∃ p ∈ m.trace rest, ∃ a ∈ p.1.accepted? p.2,
              a.1.expression = e.id ∧ a.2.error = some reason ∧ reason ≠ "" := by
  have hm := h.isConsistent
  refine ⟨fun r => ⟨report_eq_ok_iff hm r, report_of_not_queued, fun x => ?_,
    fun q hq hid => ?_⟩, fun e he hstatus rest => ?_⟩
  · by_cases hqueued : ∃ q ∈ m.broker.queue.entries, q.task.id = r.id
    · rw [(report_eq_ok_iff hm r).mpr hqueued]
      simp
    · rw [report_of_not_queued fun q hq hid => hqueued ⟨q, hq, hid⟩]
      simp
  · obtain ⟨e, hget, hx, hopen, hwaits⟩ := hm.exists_waiting hq
    have hawaits := (hm.shares q.task.expression).awaits hget hopen
    rw [hid] at hwaits
    exact ⟨e, hget, hopen, Program.mentions_iff.mpr hwaits, Program.outcome_ne_malformed _ _ _
      (hawaits.isPostfix.substitute r.id r.result) (Program.substitute_ne_task hwaits r.result)⟩
  · let given (reason : String) : Prop :=
      reason = "division by zero" ∨ reason = "timeout" ∨
        ∃ p ∈ m.trace rest, ∃ a ∈ p.1.accepted? p.2,
          a.1.expression = e.id ∧ a.2.error = some reason ∧ reason ≠ ""
    have hstart : (m.broker.share e.id).FailsOnly given := by
      simp [Share.FailsOnly, h.share_eq he, hstatus]
    have hend := failsOnly_after hm hstart (.inl rfl) (.inr (.inl rfl))
      fun p hp a ha hx reason hfailure =>
        .inr (.inr ⟨p, hp, a, ha, hx, Report.failure_eq_some_iff.mp hfailure⟩)
    obtain ⟨e', hget, hreasons⟩ := hend.exists_expression
    obtain ⟨he', hid⟩ := Table.mem_of_get? hget
    exact ⟨e', he', hid, hreasons⟩

/-- Of a product of two sums the first task was offered and the second was not. A report on either is
accepted, one on a third task is not, and the reason of a worker becomes that of the expression. -/
theorem report_accepted_iff_queued_of_product :
    let m := after {} [.submit "(1+2)*(3+4)" 7, .poll]
    (m.broker.report ⟨2, 7, none⟩).1 = .ok () ∧
      m.broker.report ⟨3, 7, none⟩ = (.error (.taskNotFound 3), m.broker) ∧
      ∃ e ∈ (m.after [.report ⟨1, 0, some "no answer"⟩]).broker.table.expressions,
        e.status = .failed "no answer" ∧
          ("no answer" = "division by zero" ∨ "no answer" = "timeout" ∨
            ∃ p ∈ m.trace [.report ⟨1, 0, some "no answer"⟩], ∃ a ∈ p.1.accepted? p.2,
              a.1.expression = 1 ∧ a.2.error = some "no answer" ∧ "no answer" ≠ "") := by
  intro m
  have hreachable : m.Reachable := ⟨{}, _, rfl⟩
  obtain ⟨hreports, hends⟩ := hreachable.report_accepted_iff_queued
  refine ⟨(hreports ⟨2, 7, none⟩).1.mpr (by decide +kernel),
    (hreports ⟨3, 7, none⟩).2.1 (by decide +kernel), ?_⟩
  have hopen : ∃ e ∈ m.broker.table.expressions, e.id = 1 ∧ e.status = .processing := by
    decide +kernel
  obtain ⟨e, he, hid, hstatus⟩ := hopen
  obtain ⟨e', he', _, hreason⟩ := hends e he hstatus [.report ⟨1, 0, some "no answer"⟩]
  have hfailed : ∀ e ∈ (m.after [.report ⟨1, 0, some "no answer"⟩]).broker.table.expressions,
      e.status = .failed "no answer" := by decide +kernel
  refine ⟨e', he', hfailed e' he', ?_⟩
  rw [hid] at hreason
  exact hreason _ (hfailed e' he')

end Moment

end Piecework

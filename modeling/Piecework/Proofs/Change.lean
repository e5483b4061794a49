import Piecework.Proofs.Report
import Piecework.Proofs.TimeOut

/-!
# What an event changes

One event changes the share of one expression in one of a few ways, listed in
`Moment.Change`. The list is derived from the order of the queue and of the table
alone, so it still has the cases that never come up in a run; what a run keeps is
proved from the list.
-/

namespace Piecework

namespace Moment

/-- What an event can make of the share of an expression, with the tasks that it creates for it. -/
inductive Change (m : Moment) (x : ExpressionId) : Event → Share → List Task → Share → Prop where
  | unchanged (ev : Event) (s : Share) :
      (∀ a ∈ m.accepted? ev, a.1.expression ≠ x) → Change m x ev s [] s
  | submitted {text : String} {owner : Nat} {p : Program} {created : List Task} {s' : Share} :
      Infix.compile text = .ok p → (m.step (.submit text owner)).1 = .submitted x →
      Share.Passes p ⟨some ⟨x, owner, text, p, .processing⟩, []⟩ created s' →
      Change m x (.submit text owner) ⟨none, []⟩ created s'
  | claimed {s : Share} {before behind : List Entry} {e : Entry} {deadline : Time} :
      s.entries = before ++ e :: behind → e.isClaimed = false →
      (m.step .poll).1 = .offered (some e.task) →
      Change m x .poll s [] ⟨s.expression, before ++ ⟨e.task, some deadline⟩ :: behind⟩
  | timedOut {ev : Event} {s : Share} : (∃ t ∈ m.overdue ev, t.expression = x) →
      Change m x ev s [] (s.fail Broker.timeoutReason)
  | refused {r : Report} {reason : String} {t : Task} {s : Share} :
      m.accepted? (.report r) = some (t, r) → t.expression = x → t ∈ s.tasks →
      r.failure = some reason → Change m x (.report r) s [] (s.fail reason)
  | resumed {r : Report} {t : Task} {e : Expression} {created : List Task} {s s' : Share} :
      m.accepted? (.report r) = some (t, r) → t.expression = x → t ∈ s.tasks →
      r.failure = none → s.expression = some e → e.isFinal = false → t.id ∈ e.program.tasks →
      Share.Passes (e.program.substitute t.id r.result)
        ⟨some (e.substitute t.id r.result), s.entries.filter (·.task.id ≠ t.id)⟩ created s' →
      Change m x (.report r) s created s'
  | unmentioned {r : Report} {t : Task} {e : Expression} {s : Share} :
      m.accepted? (.report r) = some (t, r) → t ∈ s.tasks → s.expression = some e →
      e.isFinal = false → t.id ∉ e.program.tasks →
      Change m x (.report r) s []
        (Share.fail ProgramError.malformed.message ⟨some (e.substitute t.id r.result), []⟩)
  | ignored {r : Report} {t : Task} {e : Expression} {s : Share} :
      m.accepted? (.report r) = some (t, r) → t ∈ s.tasks → s.expression = some e →
      e.isFinal = true →
      Change m x (.report r) s [] ⟨s.expression, s.entries.filter (·.task.id ≠ t.id)⟩

end Moment

namespace Broker

variable {b : Broker} {x y : ExpressionId}

/-! ## Claiming -/

/-- A claim sets the deadline of one entry in the share of its expression. -/
theorem share_claim {now deadline : Time} {t : Task} {q : Queue}
    (h : b.queue.claim now = some (t, deadline, q)) :
    (∃ before e behind, (b.share t.expression).entries = before ++ e :: behind ∧
        e.isClaimed = false ∧ e.task = t ∧
        Broker.share t.expression { b with queue := q } =
          ⟨(b.share t.expression).expression, before ++ ⟨t, some deadline⟩ :: behind⟩) ∧
      ∀ y, y ≠ t.expression → Broker.share y { b with queue := q } = b.share y := by
  obtain ⟨before, e, behind, hentries, _, hfree, rfl, hclaimed, _⟩ := Queue.exists_of_claim h
  refine ⟨⟨before.filter (·.task.expression = e.task.expression), e,
    behind.filter (·.task.expression = e.task.expression), ?_, hfree, rfl, ?_⟩, ?_⟩
  · simp [share, hentries, List.filter_append]
  · simp [share, hclaimed, List.filter_append]
  · intro y hne
    refine share_congr rfl ?_
    simp [hentries, hclaimed, List.filter_append, Ne.symm hne]

end Broker

namespace Moment

variable {m : Moment} {x : ExpressionId}

/-! ## The list is complete -/

/-- Submitting text registers a new expression and runs a pass over the program that the text
compiles to. -/
theorem exists_passes_of_submitted (hm : m.broker.IsOrdered) {text : String} {owner : Nat}
    (h : (m.step (.submit text owner)).1 = .submitted x) :
    ∃ p created, Infix.compile text = .ok p ∧ m.broker.share x = ⟨none, []⟩ ∧
      Task.Issued m.broker.costs x m.broker.queue.lastId created ∧
      Share.Passes p ⟨some ⟨x, owner, text, p, .processing⟩, []⟩ created
        ((m.step (.submit text owner)).2.broker.share x) ∧
      m.created x (.submit text owner) = created.length ∧
      ∀ y, y ≠ x →
        (m.step (.submit text owner)).2.broker.share y = m.broker.share y ∧
          m.created y (.submit text owner) = 0 := by
  cases hsubmit : m.broker.submit text owner with
  | error e => simp [step, hsubmit] at h
  | ok r =>
    obtain ⟨id, b⟩ := r
    have hstep : m.step (.submit text owner) = (.submitted id, { m with broker := b }) := by
      simp [step, hsubmit]
    rw [hstep] at h
    obtain rfl := Reply.submitted.inj h
    obtain ⟨p, created, hcompile, hnew, hissued, hpasses, hlast, hothers, _⟩ :=
      Broker.exists_passes_submit hm hsubmit
    refine ⟨p, created, hcompile, hnew, hissued, ?_, ?_, fun y hne => ⟨?_, ?_⟩⟩
    · rw [hstep]
      exact hpasses
    · simp [Moment.created, target?, hstep, hlast]
    · rw [hstep]
      exact hothers y hne
    · simp [Moment.created, target?, hstep, Ne.symm hne]

/-- Reaping before a poll fails the expressions with a lapsed claim. -/
theorem change_reap (hm : m.broker.IsOrdered) (x : ExpressionId) :
    m.Change x .poll (m.broker.share x) [] ((m.broker.reap m.now).share x) := by
  rw [Broker.share_reap hm.queue]
  split
  · next hlapsed =>
    obtain ⟨e, he, hlapsed, hx⟩ := hlapsed
    exact .timedOut ⟨e.task, List.mem_map_of_mem (List.mem_filter.mpr ⟨he, hlapsed⟩), hx⟩
  · exact .unchanged _ _ (by simp [accepted?])

/-- A poll fails what lapsed, or claims a task, or leaves a share alone. -/
theorem change_poll (hm : m.broker.IsOrdered) (x : ExpressionId) :
    m.Change x .poll (m.broker.share x) [] ((m.step .poll).2.broker.share x) := by
  have hreap := change_reap hm x
  cases hclaim : (m.broker.reap m.now).queue.claim m.now with
  | none =>
    have hstep : (m.step .poll).2.broker.share x = (m.broker.reap m.now).share x := by
      simp [step, Broker.poll, hclaim]
    rwa [hstep]
  | some r =>
    obtain ⟨t, deadline, q⟩ := r
    have hstep : (m.step .poll).2.broker.share x =
        Broker.share x { m.broker.reap m.now with queue := q } := by
      simp [step, Broker.poll, hclaim]
    have hoffer : (m.step .poll).1 = .offered (some t) := by
      simp [step, Broker.poll, hclaim]
    obtain ⟨⟨before, e, behind, hentries, hfree, htask, hself⟩, hothers⟩ :=
      Broker.share_claim hclaim
    by_cases hx : x = t.expression
    · subst hx
      -- A share with a task left to claim is one that reaping has left alone.
      have hkept := Broker.share_reap hm.queue m.now t.expression
      split at hkept
      · simp [hkept, Share.fail] at hentries
      · rw [hstep, hself]
        rw [hkept] at hentries ⊢
        subst htask
        exact .claimed hentries hfree hoffer
    · rwa [hstep, hothers x hx]

/-- A watchdog fails the expression of a lapsed claim or leaves a share alone. -/
theorem change_reclaim (hm : m.broker.IsOrdered) (id : TaskId) (x : ExpressionId) :
    m.Change x (.reclaim id) (m.broker.share x) []
      ((m.step (.reclaim id)).2.broker.share x) := by
  have hreclaim := Broker.share_reclaim hm.queue id m.now x
  have hstep : (m.step (.reclaim id)).2.broker.share x =
      (m.broker.reclaim id m.now).share x := rfl
  rw [hstep, hreclaim]
  split
  · next hlapsed =>
    obtain ⟨e, he, hid, hlapsed, hx⟩ := hlapsed
    refine .timedOut ⟨e.task, List.mem_map_of_mem (List.mem_filter.mpr ⟨he, ?_⟩), hx⟩
    simp [hid, hlapsed]
  · exact .unchanged _ _ (by simp [accepted?])

/-- A report on a task that is not queued changes nothing. -/
theorem step_report_of_get?_eq_none {r : Report} (hfind : m.broker.queue.get? r.id = none) :
    m.step (.report r) = (.refused (.taskNotFound r.id), m) := by
  simp [step, Broker.report, Queue.complete, hfind]

/-- A report on a queued task is accepted. -/
theorem step_report_of_queued {q : Entry} {e : Expression} {r : Report}
    (hfind : m.broker.queue.get? r.id = some q)
    (hget : m.broker.table.get? q.task.expression = some e) :
    m.step (.report r) = (.accepted, { m with broker := (m.broker.reported q e r).gauge }) := by
  simp [step, Broker.report_of_queued hfind hget]

/-- A report on a task finishes, fails or resumes the expression of the task. -/
theorem exists_change_reported (hm : m.broker.IsOrdered) {q : Entry} {e : Expression}
    {r : Report} (hfind : m.broker.queue.get? r.id = some q) (hid : q.task.expression = e.id)
    (hget : m.broker.table.get? e.id = some e) :
    ∃ created, m.Change e.id (.report r) (m.broker.share e.id) created
        ((m.broker.reported q e r).share e.id) ∧
      Task.Issued m.broker.costs e.id m.broker.queue.lastId created ∧
      (m.broker.reported q e r).queue.lastId = m.broker.queue.lastId + created.length := by
  obtain ⟨hmem, _⟩ := Queue.mem_of_get? hfind
  have haccepted : m.accepted? (.report r) = some (q.task, r) := by
    simp [accepted?, step_report_of_queued hfind (hid ▸ hget), hfind]
  have hshare : q.task ∈ (m.broker.share e.id).tasks :=
    Broker.mem_tasks_share_iff.mpr ⟨q, hmem, rfl, hid⟩
  have hexpression : (m.broker.share e.id).expression = some e := hget
  have hcompleted : (m.broker.completed q).share e.id =
      ⟨some e, (m.broker.share e.id).entries.filter (·.task.id ≠ q.task.id)⟩ := by
    rw [Broker.share_completed hm.queue hmem, if_pos hid.symm, hexpression]
  have hqueue := Broker.isOrdered_completed hm.queue q
  have hnil := Task.issued_nil m.broker.costs e.id m.broker.queue.lastId
  unfold Broker.reported
  cases hfinal : e.isFinal with
  | true =>
    rw [if_pos rfl, hcompleted, ← hexpression]
    exact ⟨[], .ignored haccepted hshare hexpression hfinal, hnil, rfl⟩
  | false =>
    rw [if_neg Bool.false_ne_true]
    cases hfailure : r.failure with
    | some reason =>
      have hfail : ((m.broker.completed q).abandon e.id reason).share e.id =
          (m.broker.share e.id).fail reason := by
        rw [Broker.share_abandon hqueue, if_pos rfl, hcompleted, Share.fail, Share.fail, hexpression]
      refine ⟨[], hfail ▸ .refused haccepted hid hshare hfailure, hnil, ?_⟩
      simp [Queue.discard, Broker.completed, Broker.noteTasks]
    | none =>
      by_cases hwaits : q.task.id ∈ e.program.tasks
      · obtain ⟨created, hissued, hpasses, hlast⟩ :=
          Broker.exists_passes_resume hqueue hget hwaits r.result
        rw [hcompleted] at hpasses
        exact ⟨created, .resumed haccepted hid hshare hfailure hexpression hfinal hwaits hpasses,
          hissued, hlast⟩
      · obtain ⟨hfail, hlast⟩ :=
          Broker.share_resume_of_not_mem hqueue hget hwaits r.result
        exact ⟨[], hfail ▸ .unmentioned haccepted hshare hexpression hfinal hwaits, hnil, hlast⟩

/-- A submission that is rejected changes nothing, and one that is accepted only the new share. -/
theorem exists_change_submit (hm : m.broker.IsOrdered) (text : String) (owner : Nat)
    (x : ExpressionId) :
    ∃ created, m.Change x (.submit text owner) (m.broker.share x) created
        ((m.step (.submit text owner)).2.broker.share x) ∧
      Task.Issued m.broker.costs x m.broker.queue.lastId created ∧
      m.created x (.submit text owner) = created.length := by
  have hnil := Task.issued_nil m.broker.costs x m.broker.queue.lastId
  cases hsubmit : m.broker.submit text owner with
  | error e =>
    refine ⟨[], by simpa [step, hsubmit] using .unchanged _ _ (by simp [accepted?]), hnil, ?_⟩
    simp [created, target?, step, hsubmit, accepted?]
  | ok r =>
    have hreply : (m.step (.submit text owner)).1 = .submitted r.1 := by simp [step, hsubmit]
    obtain ⟨p, created, hcompile, hnew, hissued, hpasses, hcreated, hothers⟩ :=
      exists_passes_of_submitted hm hreply
    by_cases hx : x = r.1
    · subst hx
      rw [hnew]
      exact ⟨created, .submitted hcompile hreply hpasses, hissued, hcreated⟩
    · obtain ⟨hshare, hnone⟩ := hothers x hx
      rw [hshare]
      exact ⟨[], .unchanged _ _ (by simp [accepted?]), hnil, hnone⟩

/-- A report on a task that is not queued changes nothing, and any other only the share of the
expression of its task. -/
theorem exists_change_report (hm : m.broker.IsOrdered) (r : Report) (x : ExpressionId) :
    ∃ created, m.Change x (.report r) (m.broker.share x) created
        ((m.step (.report r)).2.broker.share x) ∧
      Task.Issued m.broker.costs x m.broker.queue.lastId created ∧
      m.created x (.report r) = created.length := by
  have hnil := Task.issued_nil m.broker.costs x m.broker.queue.lastId
  cases hfind : m.broker.queue.get? r.id with
  | none =>
    have hstep := step_report_of_get?_eq_none hfind
    refine ⟨[], ?_, hnil, by simp [created, target?, hstep, accepted?]⟩
    rw [hstep]
    exact .unchanged _ _ (by simp [accepted?, hfind])
  | some q =>
    obtain ⟨hmem, _⟩ := Queue.mem_of_get? hfind
    obtain ⟨e, hget⟩ := Broker.exists_get?_of_queued hm hmem
    obtain ⟨_, hid⟩ := Table.mem_of_get? hget
    have hstep := step_report_of_queued hfind hget
    rw [hstep]
    dsimp only
    rw [Broker.share_gauge]
    by_cases hx : x = e.id
    · subst hx
      obtain ⟨created, hchange, hissued, hlast⟩ :=
        exists_change_reported hm hfind hid.symm (hid ▸ hget)
      refine ⟨created, hchange, hissued, ?_⟩
      simp [Moment.created, target?, hstep, accepted?, hfind, hid, Broker.gauge, hlast]
    · refine ⟨[], ?_, hnil, ?_⟩
      · rw [Broker.share_reported_of_ne hm hmem hid r (hid ▸ hx)]
        exact .unchanged _ _ (by simp [accepted?, hstep, hfind, ← hid, Ne.symm hx])
      · simp [Moment.created, target?, hstep, accepted?, hfind, ← hid, Ne.symm hx]

/-- Every event changes every share in one of the listed ways, and the tasks that it creates for
an expression are counted by `created`. -/
theorem exists_change (hm : m.broker.IsOrdered) (ev : Event) (x : ExpressionId) :
    ∃ created, m.Change x ev (m.broker.share x) created ((m.step ev).2.broker.share x) ∧
      Task.Issued m.broker.costs x m.broker.queue.lastId created ∧
      m.created x ev = created.length := by
  have hnil := Task.issued_nil m.broker.costs x m.broker.queue.lastId
  cases ev with
  | submit text owner => exact exists_change_submit hm text owner x
  | report r => exact exists_change_report hm r x
  | poll =>
    refine ⟨[], change_poll hm x, hnil, ?_⟩
    simp [created, target?, step, accepted?]
  | reclaim id =>
    refine ⟨[], change_reclaim hm id x, hnil, ?_⟩
    simp [created, target?, step, accepted?]
  | wait ms =>
    refine ⟨[], .unchanged _ _ (by simp [accepted?]), hnil, ?_⟩
    simp [created, target?, step, accepted?]

end Moment

end Piecework

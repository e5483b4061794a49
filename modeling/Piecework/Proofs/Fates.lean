import Piecework.Proofs.Acceptance
import Piecework.Proofs.Deadlines

/-!
# What becomes of a queued task

A queued task stays as it is until it is offered or reported on, its claim lapses, or its
expression fails, and a failure is for good. As long as no claim lapses, no expression
fails for that reason either.
-/

namespace Piecework

/-- Settling an expression does not bring a status about that it neither has nor takes. -/
theorem Expression.settle_status_ne {e : Expression} {s s' : Status} (he : e.status ≠ s')
    (hs : s ≠ s') : (e.settle s).status ≠ s' := by
  unfold settle
  split
  · exact he
  · exact hs

namespace Share

variable {e : Expression} {es : List Entry} {created : List Task} {p : Program} {s s' : Share}

/-- The expression has failed, for whatever reason. -/
def HasFailed (s : Share) : Prop :=
  ∃ e reason, s.expression = some e ∧ e.status = .failed reason

/-- The expression, if there is one, has not failed by a lapsed claim. -/
def IsUntimed (s : Share) : Prop :=
  ∀ e, s.expression = some e → e.status ≠ .failed Broker.timeoutReason

/-- An open expression has failed once its share fails. -/
theorem hasFailed_fail (he : s.expression = some e) (hopen : e.isFinal = false)
    (reason : String) : (s.fail reason).HasFailed :=
  ⟨{ e with status := .failed reason }, reason, by
    rw [fail, he, Option.map_some, Expression.fail, Expression.settle_of_open hopen], rfl⟩

/-- A pass leaves the entries that there were, or fails its open expression. -/
theorem Passes.mem_or_hasFailed (h : Passes p ⟨some e, es⟩ created s') (hopen : e.isFinal = false)
    {q : Entry} (hq : q ∈ es) : q ∈ s'.entries ∨ s'.HasFailed := by
  cases h with
  | pending _ _ _ _ => exact .inl (List.mem_append_left _ hq)
  | completed _ => exact .inl hq
  | divided _ => exact .inr (hasFailed_fail rfl hopen _)
  | malformed _ _ => exact .inr (hasFailed_fail rfl hopen _)

/-- Failing for another reason does not time an expression out. -/
theorem IsUntimed.fail (h : s.IsUntimed) {reason : String}
    (hreason : reason ≠ Broker.timeoutReason) : (s.fail reason).IsUntimed := by
  intro e' he'
  obtain ⟨e, he, rfl⟩ := Option.map_eq_some_iff.mp he'
  exact Expression.settle_status_ne (h e he) fun hstatus => hreason (Status.failed.inj hstatus)

/-- A pass times no expression out. -/
theorem Passes.isUntimed (h : Passes p ⟨some e, es⟩ created s')
    (he : e.status ≠ .failed Broker.timeoutReason) : s'.IsUntimed := by
  have hs : IsUntimed ⟨some e, es⟩ := fun e' he' => Option.some.inj he' ▸ he
  cases h with
  | pending _ _ _ _ =>
    intro e' he'
    obtain rfl := Option.some.inj he'
    rwa [Expression.advance_status]
  | completed _ =>
    intro e' he'
    obtain rfl := Option.some.inj he'
    exact Expression.settle_status_ne he (by simp)
  | divided _ => exact hs.fail (by decide)
  | malformed _ _ => exact hs.fail (by decide)

end Share

namespace Moment

variable {m : Moment} {x : ExpressionId}

/-- An accepted report carries the number of its task. -/
theorem id_eq_of_accepted? {r : Report} {t : Task} (h : m.accepted? (.report r) = some (t, r)) :
    t.id = r.id := by
  simp only [accepted?] at h
  split at h
  · obtain ⟨q, hfind, hpair⟩ := Option.map_eq_some_iff.mp h
    obtain ⟨rfl, _⟩ := Prod.ext_iff.mp hpair
    exact (Queue.mem_of_get? hfind).2
  · contradiction

/-- A change leaves an entry of an open expression, or fails the expression, unless it offers a
task, a claim lapses, or the report is on the entry's own task. -/
theorem Change.mem_or_hasFailed {ev : Event} {s s' : Share} {created : List Task}
    (h : m.Change x ev s created s') {e : Expression} (he : s.expression = some e)
    (hopen : e.isFinal = false) (hpoll : ev ≠ .poll)
    (hlapsed : ∀ t ∈ m.overdue ev, t.expression ≠ x) {q : Entry} (hq : q ∈ s.entries)
    (hother : ∀ r, ev = .report r → q.task.id ≠ r.id) :
    q ∈ s'.entries ∨ s'.HasFailed := by
  have hkept {r : Report} {t : Task} (haccepted : m.accepted? (.report r) = some (t, r))
      (hne : q.task.id ≠ r.id) : q ∈ s.entries.filter (·.task.id ≠ t.id) := by
    rw [← id_eq_of_accepted? haccepted] at hne
    exact List.mem_filter.mpr ⟨hq, decide_eq_true hne⟩
  cases h with
  | unchanged => exact .inl hq
  | submitted => contradiction
  | claimed => exact absurd rfl hpoll
  | timedOut hoverdue =>
    obtain ⟨t, ht, hx⟩ := hoverdue
    exact absurd hx (hlapsed t ht)
  | refused => exact .inr (Share.hasFailed_fail he hopen _)
  | @resumed r t _ _ _ _ haccepted _ _ _ hsome _ _ hpasses =>
    exact hpasses.mem_or_hasFailed (e := Expression.substitute t.id r.result _)
      (by obtain rfl := Option.some.inj (he.symm.trans hsome); exact hopen)
      (hkept haccepted (hother r rfl))
  | @unmentioned r t e' _ _ _ hsome =>
    obtain rfl := Option.some.inj (he.symm.trans hsome)
    exact .inr (Share.hasFailed_fail (e := e.substitute t.id r.result) rfl hopen _)
  | @ignored r t _ _ haccepted => exact .inl (hkept haccepted (hother r rfl))

/-- A change in which no claim lapses and no report says so times no expression out. -/
theorem Change.isUntimed {ev : Event} {s s' : Share} {created : List Task}
    (h : m.Change x ev s created s') (hs : s.IsUntimed)
    (hlapsed : ∀ t ∈ m.overdue ev, t.expression ≠ x)
    (hreport : ∀ r, ev = .report r → r.failure ≠ some Broker.timeoutReason) : s'.IsUntimed := by
  cases h with
  | unchanged => exact hs
  | submitted _ _ hpasses => exact hpasses.isUntimed (by simp)
  | claimed => exact hs
  | timedOut hoverdue =>
    obtain ⟨t, ht, hx⟩ := hoverdue
    exact absurd hx (hlapsed t ht)
  | @refused r _ _ _ _ _ _ hfailure =>
    exact hs.fail fun hreason => hreport r rfl (hreason ▸ hfailure)
  | @resumed r t e _ _ _ _ _ _ _ hsome _ _ hpasses =>
    exact hpasses.isUntimed (e := e.substitute t.id r.result) (hs e hsome)
  | @unmentioned r t e _ _ _ hsome =>
    have hsubstituted : Share.IsUntimed ⟨some (e.substitute t.id r.result), []⟩ :=
      fun e' he' => Option.some.inj he' ▸ hs e hsome
    exact hsubstituted.fail (by decide)
  | ignored => exact hs

/-- A failure is for good. -/
theorem hasFailed_step (hm : m.broker.IsOrdered) (h : (m.broker.share x).HasFailed) (ev : Event) :
    ((m.step ev).2.broker.share x).HasFailed := by
  obtain ⟨e, reason, he, hstatus⟩ := h
  obtain ⟨e', he', hcontinues⟩ := exists_continues_step hm ev he
  have hfinal : e.isFinal = true := by simp [Expression.isFinal, hstatus, Status.isFinal]
  exact ⟨e', reason, he', hcontinues.eq_of_isFinal hfinal ▸ hstatus⟩

/-- An event other than a poll leaves a queued task as it is or fails its expression, unless its
claim lapses or the report is on it. -/
theorem mem_or_hasFailed_step (hm : m.broker.IsConsistent) {ev : Event} (hpoll : ev ≠ .poll)
    (hlapsed : m.overdue ev = []) {q : Entry} (hq : q ∈ m.broker.queue.entries)
    (hother : ∀ r, ev = .report r → q.task.id ≠ r.id) :
    q ∈ (m.step ev).2.broker.queue.entries ∨
      ((m.step ev).2.broker.share q.task.expression).HasFailed := by
  obtain ⟨e, hget, _, hopen, _⟩ := hm.exists_waiting hq
  obtain ⟨_, hchange, _⟩ := exists_change hm.isOrdered ev q.task.expression
  rw [← Broker.mem_share_entries_iff] at hq ⊢
  exact hchange.mem_or_hasFailed hget hopen hpoll (by simp [hlapsed]) hq hother

/-- A poll without lapsed claims offers nothing and changes no entry, or it claims one entry. -/
theorem entries_poll_of_isTimely (hm : m.broker.IsConsistent)
    (htimely : m.broker.queue.IsTimely m.now) :
    ((m.step .poll).1 = .offered none ∧
        (m.step .poll).2.broker.queue.entries = m.broker.queue.entries) ∨
      ∃ t before behind, (m.step .poll).1 = .offered (some t) ∧
        m.broker.queue.entries = before ++ ⟨t, none⟩ :: behind ∧
        (m.step .poll).2.broker.queue.entries =
          before ++ ⟨t, some (m.now + t.claimWindow)⟩ :: behind := by
  have hnone : m.broker.queue.lapsing m.now = [] := by
    rw [List.eq_nil_iff_forall_not_mem]
    intro x hx
    obtain ⟨q, hq, hlapsed, _⟩ := Queue.mem_lapsing_iff.mp hx
    exact Bool.false_ne_true ((Queue.isTimely_iff.mp htimely q hq).symm.trans hlapsed)
  have hpoll := entries_poll hm
  simpa [hnone] using hpoll

/-- A poll without lapsed claims that offers a task claims its entry and changes no other. -/
theorem exists_claim_of_offered (hm : m.broker.IsConsistent)
    (htimely : m.broker.queue.IsTimely m.now) {t : Task}
    (h : (m.step .poll).1 = .offered (some t)) :
    ∃ before behind, m.broker.queue.entries = before ++ ⟨t, none⟩ :: behind ∧
      (m.step .poll).2.broker.queue.entries =
        before ++ ⟨t, some (m.now + t.claimWindow)⟩ :: behind := by
  rcases entries_poll_of_isTimely hm htimely with ⟨hnone, _⟩ | ⟨t', before, behind, hsome, hrows⟩
  · exact absurd (hnone.symm.trans h) (by simp)
  · obtain rfl : t' = t := by simpa using hsome.symm.trans h
    exact ⟨before, behind, hrows⟩

/-- After a report nobody holds a claim on its task. -/
theorem ne_of_mem_report {b : Broker} (hb : b.IsConsistent) {r : Report} {q : Entry}
    (hq : q ∈ (b.report r).2.queue.entries) (hclaimed : q.isClaimed = true) :
    q.task.id ≠ r.id := by
  by_cases hqueued : ∃ q' ∈ b.queue.entries, q'.task.id = r.id
  · obtain ⟨q', hq', hid⟩ := hqueued
    rcases mem_or_new_of_report hb hq' hid hq with ⟨_, hne⟩ | ⟨_, hfree⟩
    · exact hne
    · exact absurd hclaimed (by simp [hfree])
  · rw [report_of_not_queued fun q' hq' hid => hqueued ⟨q', hq', hid⟩] at hq
    exact fun hid => hqueued ⟨q, hq, hid⟩

end Moment

end Piecework

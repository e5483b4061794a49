import Piecework.Proofs.Firing
import Piecework.Proofs.Persistence

/-!
# One expression at a time

An operation belongs to one expression, or, for a poll, to those whose claims have
lapsed. It leaves the shares of all others as they are, and a table and a queue in order
are made up of the shares, so the rows and the entries of the others stand where they
stood. This holds of the ends in which an operation discards tasks, too.
-/

namespace Piecework

/-- From one table to another only expressions of a list change, and none is added. -/
structure Table.ChangesOnly (xs : List ExpressionId) (t t' : Table) : Prop
    extends t.SameNumbers t' where
  others : t'.expressions.filter (·.id ∉ xs) = t.expressions.filter (·.id ∉ xs)

/-- From one broker to another only expressions of a list change, in the table and in the
queue. -/
structure Broker.ChangesOnly (xs : List ExpressionId) (b b' : Broker) : Prop where
  table : b.table.ChangesOnly xs b'.table
  queue : b'.queue.entries.filter (·.task.expression ∉ xs) =
    b.queue.entries.filter (·.task.expression ∉ xs)

/-- The expressions of the tasks whose claims have lapsed. -/
def Queue.lapsing (now : Time) (q : Queue) : List ExpressionId :=
  (q.entries.filter (·.hasLapsed now)).map (·.task.expression)

theorem Queue.mem_lapsing_iff {now : Time} {q : Queue} {x : ExpressionId} :
    x ∈ q.lapsing now ↔ ∃ e ∈ q.entries, e.hasLapsed now ∧ e.task.expression = x := by
  simp [lapsing, and_assoc]

namespace Broker

variable {b b' : Broker} {x : ExpressionId} {xs : List ExpressionId}

/-! ## Other expressions, from their shares -/

/-- The entries of a share are those of its expression. -/
theorem expression_eq_of_mem_share {q : Entry} (hq : q ∈ (b.share x).entries) :
    q.task.expression = x :=
  of_decide_eq_true (List.mem_filter.mp hq).2

/-- Only the expressions change whose shares do. -/
theorem ChangesOnly.of_share_eq (hb : b.IsOrdered) (hq' : b'.queue.IsOrdered)
    (hnumbers : b.table.SameNumbers b'.table) (h : ∀ y, y ∉ xs → b'.share y = b.share y) :
    b.ChangesOnly xs b' := by
  refine ⟨⟨hnumbers, ?_⟩, ?_⟩
  · exact (hnumbers.isNumbered hb.table).filter_eq hb.table fun y hy =>
      congrArg Share.expression (h y (of_decide_eq_true hy))
  · refine hq'.filter_entries_eq hb.queue fun e he => ?_
    rw [← mem_share_entries_iff, h _ (of_decide_eq_true he), mem_share_entries_iff]

/-- Where one share was empty and the others are kept, the entries are the old ones and those of
the share. -/
theorem mem_entries_iff_of_share_eq (hfree : (b.share x).entries = [])
    (h : ∀ y, y ≠ x → b'.share y = b.share y) (q : Entry) :
    q ∈ b'.queue.entries ↔ q ∈ b.queue.entries ∨ q ∈ (b'.share x).entries := by
  by_cases hx : q.task.expression = x
  · subst hx
    have hnot : q ∉ b.queue.entries := by
      rw [← mem_share_entries_iff, hfree]
      exact List.not_mem_nil
    rw [mem_share_entries_iff, or_iff_right hnot]
  · have hnot : q ∉ (b'.share x).entries := fun hq => hx (expression_eq_of_mem_share hq)
    rw [or_iff_left hnot, ← mem_share_entries_iff, h _ hx, mem_share_entries_iff]

/-- Reaping keeps the entries of the expressions without a lapsed claim. -/
theorem entries_reap (hq : b.queue.IsOrdered) (now : Time) :
    (b.reap now).queue.entries =
      b.queue.entries.filter (·.task.expression ∉ b.queue.lapsing now) := by
  have hreaped := (proceeds_reap now b).isOrdered hq
  have hkept : Queue.IsOrdered { b.queue with
      entries := b.queue.entries.filter (·.task.expression ∉ b.queue.lapsing now) } :=
    hq.of_sublist List.filter_sublist rfl
  refine hreaped.entries_eq hkept fun e => ?_
  rw [← mem_share_entries_iff, share_reap hq]
  split
  · next hlapsed =>
    have hmem := Queue.mem_lapsing_iff.mpr hlapsed
    simp [Share.fail, hmem]
  · next hkeeps =>
    have hmem : e.task.expression ∉ b.queue.lapsing now :=
      fun h => hkeeps (Queue.mem_lapsing_iff.mp h)
    rw [mem_share_entries_iff]
    simp [hmem]

end Broker

namespace Moment

variable {m : Moment} {x : ExpressionId}

/-! ## Operation by operation -/

/-- A submission puts its expression behind the rows and its tasks behind the entries that there
were, and no task if the expression has finished with it. -/
theorem exists_appended_submit (hm : m.broker.IsConsistent) {text : String} {p : Program}
    (hcompile : Infix.compile text = .ok p) (owner : Nat) :
    ∃ e new m', m.step (.submit text owner) = (.submitted e.id, m') ∧
      m'.broker.table.expressions = m.broker.table.expressions ++ [e] ∧
      e.owner = owner ∧ e.text = text ∧
      m'.broker.queue.entries = m.broker.queue.entries ++ new ∧
      (∀ q ∈ new, q.task.expression = e.id) ∧ (e.isFinal = true → new = []) := by
  have hm' := isConsistent_step hm (.submit text owner)
  cases hsubmit : m.broker.submit text owner with
  | error e => simp [Broker.submit, hcompile] at hsubmit
  | ok r =>
    obtain ⟨x, b⟩ := r
    have hstep : m.step (.submit text owner) = (.submitted x, { m with broker := b }) := by
      simp [step, hsubmit]
    rw [hstep] at hm' ⊢
    obtain ⟨rfl, p, _, hnumbers⟩ := Broker.exists_sameNumbers_submit hsubmit
    obtain ⟨_, created, _, hnew, hissued, hpasses, _, hothers, _⟩ :=
      Broker.exists_passes_submit hm.isOrdered hsubmit
    obtain ⟨e, hget, hcontinues⟩ := hpasses.exists_continues
    refine ⟨e, (b.share (m.broker.table.lastId + 1)).entries, _, by rw [hcontinues.id_eq], ?_,
      hcontinues.owner_eq, hcontinues.text_eq, ?_, fun q hq => ?_, fun hfinal => ?_⟩
    · exact hm.table.expressions_eq_append hm'.table hnumbers.lastId_eq
        (fun y hy => congrArg Share.expression (hothers y hy)) hget
    · refine hm.queue.entries_eq_append hm'.queue List.filter_sublist (fun q hq => ?_)
        (Broker.mem_entries_iff_of_share_eq (by rw [hnew]) hothers)
      -- The share started without tasks, so all it has are those that the pass cut out.
      have hcreated := hpasses.mem_tasks (List.mem_map_of_mem hq)
      exact hissued.lt_id (hcreated.resolve_left List.not_mem_nil)
    · rw [hcontinues.id_eq]
      exact Broker.expression_eq_of_mem_share hq
    · exact List.map_eq_nil_iff.mp ((hm'.shares _).tasks_eq_nil fun e' he' =>
        Option.some.inj (hget.symm.trans he') ▸ hfinal)

/-- A report on a queued task changes only the expression of the task. -/
theorem changesOnly_report (hm : m.broker.IsConsistent) {r : Report} {t : Task}
    (haccepted : m.accepted? (.report r) = some (t, r)) :
    m.broker.ChangesOnly [t.expression] (m.step (.report r)).2.broker := by
  have hqueue := (step_keeps_order hm.isOrdered (.report r)).1
  have hreport : ∀ text owner, Event.report r ≠ .submit text owner := by simp
  have hnumbers := sameNumbers_step hm.isOrdered hreport
  refine .of_share_eq hm.isOrdered hqueue hnumbers fun y hy => ?_
  cases hfind : m.broker.queue.get? r.id with
  | none => simp [accepted?, hfind] at haccepted
  | some q =>
    obtain ⟨hmem, _⟩ := Queue.mem_of_get? hfind
    obtain ⟨e, hget, hid, _⟩ := hm.exists_waiting hmem
    have hstep := step_report_of_queued hfind hget
    obtain rfl : q.task = t := by simpa [accepted?, hstep, hfind] using haccepted
    rw [hstep]
    exact Broker.share_reported_of_ne hm.isOrdered hmem hid r (List.mem_singleton.not.mp hy)

/-- The watchdog of a queued task changes only the expression of the task. -/
theorem changesOnly_reclaim (hm : m.broker.IsConsistent) {q : Entry}
    (hq : q ∈ m.broker.queue.entries) :
    m.broker.ChangesOnly [q.task.expression] (m.step (.reclaim q.task.id)).2.broker := by
  have hproceeds := Broker.proceeds_reclaim q.task.id m.now m.broker
  refine .of_share_eq hm.isOrdered (hproceeds.isOrdered hm.queue) hproceeds.2 fun y hy => ?_
  refine (Broker.share_reclaim hm.queue q.task.id m.now y).trans (if_neg ?_)
  rintro ⟨q', hq', hid, _, rfl⟩
  exact hy (by rw [hm.queue.eq_of_id_eq hq' hq hid, List.mem_singleton])

/-- The watchdog of a task that is not queued changes nothing. -/
theorem step_reclaim_of_not_queued {id : TaskId}
    (h : ∀ q ∈ m.broker.queue.entries, q.task.id ≠ id) : (m.step (.reclaim id)).2 = m := by
  have hfind : m.broker.queue.get? id = none := by simpa [Queue.get?] using h
  simp [step, Broker.reclaim, Queue.reclaim, hfind]

/-- A poll changes only expressions with a lapsed claim. -/
theorem changesOnly_poll (hm : m.broker.IsConsistent) :
    m.broker.table.ChangesOnly (m.broker.queue.lapsing m.now) (m.step .poll).2.broker.table := by
  have hreap := Broker.proceeds_reap m.now m.broker
  have hreaped : m.broker.ChangesOnly (m.broker.queue.lapsing m.now) (m.broker.reap m.now) := by
    refine .of_share_eq hm.isOrdered (hreap.isOrdered hm.queue) hreap.2 fun y hy => ?_
    rw [Queue.mem_lapsing_iff] at hy
    exact (Broker.share_reap hm.queue m.now y).trans (if_neg hy)
  simp only [step, Broker.poll]
  cases (m.broker.reap m.now).queue.claim m.now <;> exact hreaped.table

/-- A poll drops the entries of the expressions with a lapsed claim, and of the others it changes
the deadline of the task that it offers. -/
theorem entries_poll (hm : m.broker.IsConsistent) :
    let kept := m.broker.queue.entries.filter (·.task.expression ∉ m.broker.queue.lapsing m.now)
    ((m.step .poll).1 = .offered none ∧ (m.step .poll).2.broker.queue.entries = kept) ∨
      ∃ t before behind, (m.step .poll).1 = .offered (some t) ∧
        kept = before ++ ⟨t, none⟩ :: behind ∧
        (m.step .poll).2.broker.queue.entries =
          before ++ ⟨t, some (m.now + t.claimWindow)⟩ :: behind := by
  intro kept
  have hkept : (m.broker.reap m.now).queue.entries = kept := Broker.entries_reap hm.queue m.now
  cases hclaim : (m.broker.reap m.now).queue.claim m.now with
  | none => exact .inl (by simpa [step, Broker.poll, hclaim, Broker.gauge] using hkept)
  | some r =>
    obtain ⟨t, deadline, q⟩ := r
    obtain ⟨before, e, behind, hentries, _, hfree, rfl, hclaimed, _⟩ :=
      Queue.exists_of_claim hclaim
    obtain rfl := Queue.deadline_of_claim hclaim
    have he : e = ⟨e.task, none⟩ := by
      obtain ⟨t, d⟩ := e
      simpa [Entry.isClaimed] using hfree
    rw [hkept, he] at hentries
    refine .inr ⟨e.task, before, behind, ?_, hentries, ?_⟩
    · simp [step, Broker.poll, hclaim]
    · simpa [step, Broker.poll, hclaim, Broker.gauge] using hclaimed

/-! ## All operations -/

/-- In every reachable moment: text that does not compile changes nothing; text that does puts its
expression behind the rows and its tasks behind the entries that there were, and no task if the
pass has finished or failed it, whatever the pass has created; an accepted report, and a watchdog,
change only the row and the entries of the expression of their task; and a poll changes only the
rows of expressions with a lapsed claim, drops their entries and, of the other entries, sets the
deadline of the task that it offers. -/
theorem Reachable.expressions_stay_apart (h : m.Reachable) :
    (∀ text owner e, Infix.compile text = .error e →
      m.step (.submit text owner) = (.rejected e, m)) ∧
    (∀ text owner p, Infix.compile text = .ok p →
      ∃ e new m', m.step (.submit text owner) = (.submitted e.id, m') ∧
        m'.broker.table.expressions = m.broker.table.expressions ++ [e] ∧
        e.owner = owner ∧ e.text = text ∧
        m'.broker.queue.entries = m.broker.queue.entries ++ new ∧
        (∀ q ∈ new, q.task.expression = e.id) ∧ (e.isFinal = true → new = [])) ∧
    (∀ r t, m.accepted? (.report r) = some (t, r) →
      m.broker.ChangesOnly [t.expression] (m.step (.report r)).2.broker) ∧
    (∀ q ∈ m.broker.queue.entries,
      m.broker.ChangesOnly [q.task.expression] (m.step (.reclaim q.task.id)).2.broker) ∧
    (∀ id, (∀ q ∈ m.broker.queue.entries, q.task.id ≠ id) → (m.step (.reclaim id)).2 = m) ∧
    ∃ t? m', m.step .poll = (.offered t?, m') ∧
      m.broker.table.ChangesOnly (m.broker.queue.lapsing m.now) m'.broker.table ∧
      let kept := m.broker.queue.entries.filter
        (·.task.expression ∉ m.broker.queue.lapsing m.now)
      match t? with
      | none => m'.broker.queue.entries = kept
      | some t => ∃ before behind, kept = before ++ ⟨t, none⟩ :: behind ∧
          m'.broker.queue.entries = before ++ ⟨t, some (m.now + t.claimWindow)⟩ :: behind := by
  have hm := h.isConsistent
  refine ⟨fun text owner e hcompile => ?_,
    fun text owner p hcompile => exists_appended_submit hm hcompile owner,
    fun r t haccepted => changesOnly_report hm haccepted, fun q hq => changesOnly_reclaim hm hq,
    fun id hid => step_reclaim_of_not_queued hid, ?_⟩
  · simp [Moment.step, Broker.submit, hcompile]
  · have hrows := changesOnly_poll hm
    rcases entries_poll hm with ⟨hreply, hentries⟩ | ⟨t, before, behind, hreply, hkept, hentries⟩
    · exact ⟨none, _, Prod.ext hreply rfl, hrows, hentries⟩
    · exact ⟨some t, _, Prod.ext hreply rfl, hrows, before, behind, hkept, hentries⟩

/-- Beside a sum whose claim has lapsed and a product that nobody holds: a submission fails after
its pass has created a task, the product is reported, the watchdog of the sum fires, and a poll
fails the sum. -/
theorem expressions_stay_apart_beside_lapsed_claim :
    let m := after {} [.submit "1+2" 7, .submit "3*4" 8, .poll, .wait 10000]
    (m.step (.submit "5+6+1/0" 9)).2.broker.queue.entries = m.broker.queue.entries ∧
      m.broker.ChangesOnly [2] (m.step (.report ⟨2, 12, none⟩)).2.broker ∧
      m.broker.ChangesOnly [1] (m.step (.reclaim 1)).2.broker ∧
      m.broker.table.ChangesOnly [1] (m.step .poll).2.broker.table := by
  intro m
  have hreachable : m.Reachable := ⟨{}, _, rfl⟩
  obtain ⟨_, hsubmit, hreport, hreclaim, _, _, _, hpoll, hrows, _⟩ :=
    hreachable.expressions_stay_apart
  have hlexemes : Infix.lexemes 0 "5+6+1/0".toList = [.number 5, .operator .add, .number 6,
      .operator .add, .number 1, .operator .div, .number 0] := by
    decide +kernel
  have hcompile : Infix.compile "5+6+1/0" = .ok [.number 5, .number 6, .operator .add,
      .number 1, .number 0, .operator .div, .operator .add] := by
    rw [Infix.compile, hlexemes]
    rfl
  obtain ⟨e, new, m', hstep, hrow, _, _, hentries, _, hdropped⟩ := hsubmit "5+6+1/0" 9 _ hcompile
  have hqueue : m.broker.queue.entries = [⟨⟨⟨1, .add, 1, 2, 1000⟩, 1⟩, some 2000⟩,
      ⟨⟨⟨2, .mul, 3, 4, 2000⟩, 2⟩, none⟩] := by decide +kernel
  refine ⟨?_, hreport ⟨2, 12, none⟩ ⟨⟨2, .mul, 3, 4, 2000⟩, 2⟩ (by decide +kernel),
    hreclaim ⟨⟨⟨1, .add, 1, 2, 1000⟩, 1⟩, some 2000⟩ (by simp [hqueue]), ?_⟩
  · have hfailed : ∀ e ∈ (m.step (.submit "5+6+1/0" 9)).2.broker.table.expressions.getLast?,
        e.isFinal = true := by decide +kernel
    rw [hstep] at hfailed ⊢
    rw [hentries, hdropped (hfailed e (by simp [hrow])), List.append_nil]
  · have hlapsing : m.broker.queue.lapsing m.now = [1] := by decide +kernel
    rw [hpoll, ← hlapsing]
    exact hrows

end Moment

end Piecework

import Piecework.Proofs.Acceptance
import Piecework.Proofs.Offers

/-!
# Reports and claims

Over a run of a new broker the claimed tasks of the queue are exactly those that it
handed out. A report does not look at the claim of its task: it is accepted, and takes
effect, for every queued task, also for one that was never handed out and for one whose
deadline has passed while its watchdog was held up. It is known to come under a live
claim exactly where the queued task of its number has one.
-/

namespace Piecework

/-- Whether a worker holds the task with time left. -/
def Entry.isHeldAt (now : Time) (e : Entry) : Bool := e.deadline.any (now < ·)

/-- A task that is held with time left is claimed. -/
theorem Entry.isClaimed_of_isHeldAt {now : Time} {e : Entry} (h : e.isHeldAt now = true) :
    e.isClaimed = true := by
  cases hdeadline : e.deadline with
  | none => simp [isHeldAt, hdeadline] at h
  | some d => simp [isClaimed, hdeadline]

namespace Moment

variable {m : Moment} {k : TaskId}

/-! ## What was handed out -/

/-- What is claimed after a run was claimed before it, or was offered by it. -/
theorem mem_or_mem_offers (hm : m.broker.IsConsistent) {es : List Event} {q : Entry}
    (hq : q ∈ (m.after es).broker.queue.entries) (hclaimed : q.isClaimed = true) :
    q ∈ m.broker.queue.entries ∨ q.task.id ∈ m.offers es := by
  induction es generalizing m with
  | nil => exact .inl hq
  | cons ev es ih =>
    have hsub : (m.step ev).2.offers es ⊆ m.offers (ev :: es) := by
      by_cases hoffer : ∃ t, (m.step ev).1 = .offered (some t)
      · obtain ⟨t, ht⟩ := hoffer
        rw [offers_cons_of_offered ht]
        exact List.subset_cons_self _ _
      · rw [offers_cons_of_not_offered (not_exists.mp hoffer)]
        exact List.Subset.refl _
    rcases ih (isConsistent_step hm ev) hq with hnext | hlater
    · refine (mem_or_offered_of_step hm.isOrdered ev hnext hclaimed).imp_right fun hoffer => ?_
      rw [offers_cons_of_offered hoffer]
      exact List.mem_cons_self
    · exact .inr (hsub hlater)

/-- Of the tasks that are queued after a run of a new broker, those are claimed that it offered. -/
theorem isClaimed_iff_mem_offers (costs : Costs) (events : List Event) {q : Entry}
    (hq : q ∈ (after { broker := { costs := costs } } events).broker.queue.entries) :
    q.isClaimed = true ↔ q.task.id ∈ offers { broker := { costs := costs } } events := by
  have hnew := Broker.isConsistent_new costs
  constructor
  · intro hclaimed
    rcases mem_or_mem_offers (m := { broker := { costs := costs } }) hnew hq hclaimed with
      hold | hoffered
    · contradiction
    · exact hoffered
  · intro hoffered
    obtain ⟨k, _, hk, hbelow⟩ := exists_watermark_after
      (m := { broker := { costs := costs } }) hnew Queue.isClaimedUpTo_empty events
    exact (hk.isClaimed_iff q hq).mpr (hbelow _ hoffered)

/-! ## What a report does -/

/-- A report on a queued task changes the expression of the task. -/
theorem get?_report_ne {b : Broker} (hb : b.IsConsistent) {r : Report} {q : Entry}
    (hq : q ∈ b.queue.entries) (hid : q.task.id = r.id) :
    (b.report r).2.table.get? q.task.expression ≠ b.table.get? q.task.expression := by
  obtain ⟨e, hget, hx, hopen, hwaits⟩ := hb.exists_waiting hq
  intro hsame
  -- An expression that is as it was still waits for the task, which is not queued any more.
  have hafter := isConsistent_report hb r
  have hawaits := (hafter.shares q.task.expression).awaits (hsame.trans hget) hopen
  obtain ⟨t, ht, htid⟩ := List.mem_map.mp (hawaits.tasks_perm.mem_iff.mp hwaits)
  obtain ⟨q', hq', rfl, _⟩ := Broker.mem_tasks_share_iff.mp ht
  rcases mem_or_new_of_report hb hq hid hq' with ⟨_, hne⟩ | ⟨hnew, _⟩
  · exact hne (htid.trans hid)
  · exact Nat.not_lt_of_le (htid ▸ hb.queue.issued q hq) hnew

/-- After any run of a new broker a report is accepted exactly when its task is queued, and then
changes the expression of the task. Of the queued tasks those are claimed that the run has offered.
So an accepted report comes under a live claim of an offered task exactly where the queued task of
its number, if there is one, is held with time left. -/
theorem accepted_under_live_claim_iff (costs : Costs) (events : List Event) (r : Report) :
    let start : Moment := { broker := { costs := costs } }
    let m := start.after events
    let queued := m.broker.queue.entries
    ((m.broker.report r).1 = .ok () ↔ ∃ q ∈ queued, q.task.id = r.id) ∧
      (∀ q ∈ queued, q.task.id = r.id →
        (m.broker.report r).2.table.get? q.task.expression ≠
          m.broker.table.get? q.task.expression) ∧
      (∀ q ∈ queued, q.isClaimed = true ↔ q.task.id ∈ start.offers events) ∧
      (((m.broker.report r).1 = .ok () →
          r.id ∈ start.offers events ∧ ∃ q ∈ queued, q.task.id = r.id ∧ q.isHeldAt m.now = true) ↔
        ∀ q ∈ queued, q.task.id = r.id → q.isHeldAt m.now = true) := by
  intro start m queued
  have hm : m.broker.IsConsistent := isConsistent_after (Broker.isConsistent_new costs) events
  have haccepted := report_eq_ok_iff hm r
  have hoffered (q : Entry) (hq : q ∈ queued) := isClaimed_iff_mem_offers costs events hq
  refine ⟨haccepted, fun q hq hid => get?_report_ne hm hq hid, hoffered, ?_, ?_⟩
  · intro hlive q hq hid
    obtain ⟨_, q', hq', hid', hheld⟩ := hlive (haccepted.mpr ⟨q, hq, hid⟩)
    rwa [hm.queue.eq_of_id_eq hq hq' (hid.trans hid'.symm)]
  · intro hheld hok
    obtain ⟨q, hq, hid⟩ := haccepted.mp hok
    have hlive := hheld q hq hid
    exact ⟨hid ▸ (hoffered q hq).mp (Entry.isClaimed_of_isHeldAt hlive), q, hq, hid, hlive⟩

/-- Two sums are submitted and the task of the first is offered. When its deadline comes and no
watchdog has run yet, a report on it is still accepted, and so is one on the other task, which was
never offered. Both reported values become results. -/
theorem accepted_without_live_claim :
    let events : List Event := [.submit "1+2" 0, .submit "3+4" 0, .poll, .wait 2000]
    let m := after {} events
    offers {} events = [1] ∧
      (m.broker.queue.entries.map fun q => (q.task.id, q.isHeldAt m.now)) =
        [(1, false), (2, false)] ∧
      (m.step (.report ⟨1, 9, none⟩)).1 = .accepted ∧
      (m.step (.report ⟨2, 9, none⟩)).1 = .accepted ∧
      ((m.after [.report ⟨1, 9, none⟩, .report ⟨2, 9, none⟩]).broker.table.expressions.map
        (·.status)) = [.done 9, .done 9] := by
  decide +kernel

end Moment

end Piecework

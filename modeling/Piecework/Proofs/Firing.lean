import Piecework.Proofs.Balance
import Piecework.Proofs.Watchdogs

/-!
# Reaping and the watchdogs

A poll takes all lapsed claims out of the queue before it fails their expressions, while
a watchdog fails the expression of its own task, which discards the tasks of the
watchdogs that come later. The order decides what a task is counted as, and nothing
else: seen from one expression, all that matters is whether it had a lapsed claim.
-/

namespace Piecework

namespace Broker

variable {b b' : Broker}

/-- The watchdogs of a row of tasks fire one after the other. -/
def reclaimAll (ids : List TaskId) (now : Time) (b : Broker) : Broker :=
  ids.foldl (fun b id => b.reclaim id now) b

/-! ## Queue and table from the shares -/

/-- An entry stands in the share of its own expression. -/
theorem mem_share_entries_iff {q : Entry} :
    q ∈ (b.share q.task.expression).entries ↔ q ∈ b.queue.entries := by
  simp [share]

/-- Brokers in order with the same shares have the same entries. -/
theorem entries_eq_of_share_eq (hq : b.queue.IsOrdered) (hq' : b'.queue.IsOrdered)
    (h : ∀ x, b.share x = b'.share x) : b.queue.entries = b'.queue.entries := by
  refine hq.entries_eq hq' fun q => ?_
  rw [← mem_share_entries_iff, h, mem_share_entries_iff]

/-- Brokers with as many expressions and the same shares have the same table. -/
theorem table_eq_of_share_eq (ht : b.table.IsNumbered) (ht' : b'.table.IsNumbered)
    (hlast : b.table.lastId = b'.table.lastId) (h : ∀ x, b.share x = b'.share x) :
    b.table = b'.table :=
  ht.eq_of_get?_eq ht' hlast fun x => congrArg Share.expression (h x)

/-! ## The numbers given -/

@[simp] theorem timeOut_lastId (t : Task) (b : Broker) :
    (b.timeOut t).queue.lastId = b.queue.lastId := by
  simp [timeOut, noteTasks, Queue.discard]

theorem reap_lastId (now : Time) (b : Broker) :
    (b.reap now).queue.lastId = b.queue.lastId := by
  have hfold (ts : List Task) (b : Broker) :
      (ts.foldl (fun b t => b.timeOut t) b).queue.lastId = b.queue.lastId := by
    induction ts generalizing b with
    | nil => rfl
    | cons t ts ih => rw [List.foldl_cons, ih, timeOut_lastId]
  exact (hfold _ _).trans (Queue.completeAll_lastId _ _)

theorem reclaim_lastId (id : TaskId) (now : Time) (b : Broker) :
    (b.reclaim id now).queue.lastId = b.queue.lastId := by
  unfold reclaim Queue.reclaim
  cases b.queue.get? id with
  | none => rfl
  | some e => cases hlapsed : e.hasLapsed now <;> simp [hlapsed, gauge]

theorem reclaimAll_lastId (ids : List TaskId) (now : Time) (b : Broker) :
    (b.reclaimAll ids now).queue.lastId = b.queue.lastId := by
  induction ids generalizing b with
  | nil => rfl
  | cons id ids ih => exact (ih _).trans (reclaim_lastId id now b)

/-! ## A row of watchdogs -/

/-- A row of watchdogs proceeds from one to the next. -/
theorem proceeds_reclaimAll (ids : List TaskId) (now : Time) (b : Broker) :
    b.Proceeds (b.reclaimAll ids now) := by
  induction ids generalizing b with
  | nil => exact .refl b
  | cons id ids ih => exact (proceeds_reclaim id now b).trans (ih _)

/-- A row of watchdogs counts what it takes out. -/
theorem balances_reclaimAll (hb : b.IsAccountable) (ids : List TaskId) (now : Time) :
    Balances 0 b (b.reclaimAll ids now) := by
  induction ids generalizing b with
  | nil => exact .refl b
  | cons id ids ih =>
    exact (loses_reclaim hb id now).toBalances.trans (ih (hb.reclaim id now))

/-- A row of watchdogs fails the expressions of those of its tasks whose claim has lapsed. -/
theorem share_reclaimAll (hq : b.queue.IsOrdered) (ids : List TaskId) (now : Time)
    (y : ExpressionId) :
    (b.reclaimAll ids now).share y =
      if ∃ e ∈ (b.share y).entries, e.task.id ∈ ids ∧ e.hasLapsed now then
        (b.share y).fail timeoutReason
      else b.share y := by
  induction ids generalizing b with
  | nil => simp [reclaimAll]
  | cons id ids ih =>
    have hrest := ih ((proceeds_reclaim id now b).isOrdered hq)
    have hfirst := share_reclaim hq id now y
    have hcases : (∃ e ∈ (b.share y).entries, e.task.id ∈ id :: ids ∧ e.hasLapsed now) ↔
        (∃ e ∈ b.queue.entries, e.task.id = id ∧ e.hasLapsed now ∧ e.task.expression = y) ∨
          ∃ e ∈ (b.share y).entries, e.task.id ∈ ids ∧ e.hasLapsed now := by
      simp only [share, List.mem_filter, List.mem_cons, decide_eq_true_eq]
      grind
    refine hrest.trans ?_
    by_cases hhit : ∃ e ∈ b.queue.entries,
        e.task.id = id ∧ e.hasLapsed now ∧ e.task.expression = y
    · -- A share that the first watchdog has failed has no tasks for the others.
      rw [hfirst, if_pos hhit, if_pos (hcases.mpr (.inl hhit))]
      simp [Share.fail]
    · rw [if_neg hhit] at hfirst
      simp only [hfirst, hcases, hhit, false_or]

/-- Watchdogs of all lapsed claims, in any order, leave the shares that reaping leaves. -/
theorem share_reclaimAll_eq_share_reap (hq : b.queue.IsOrdered) {ids : List TaskId} {now : Time}
    (hids : ids.Perm ((b.queue.entries.filter (·.hasLapsed now)).map (·.task.id)))
    (y : ExpressionId) : (b.reclaimAll ids now).share y = (b.reap now).share y := by
  rw [share_reclaimAll hq, share_reap hq]
  congr 1
  simp only [hids.mem_iff, share, List.mem_filter, List.mem_map, decide_eq_true_eq, eq_iff_iff]
  constructor
  · rintro ⟨e, ⟨he, hy⟩, _, hlapsed⟩
    exact ⟨e, he, hlapsed, hy⟩
  · rintro ⟨e, he, hlapsed, hy⟩
    exact ⟨e, ⟨he, hy⟩, ⟨e, ⟨he, hlapsed⟩, rfl⟩, hlapsed⟩

end Broker

namespace Moment

variable {m : Moment}

/-- In every reachable moment, and at any time, the watchdogs of all lapsed claims, firing one after
the other in any order, leave the same queue, the same watchdogs and the same table as reaping. They
count as many failed expressions, and as many tasks as timed out or discarded taken together. -/
theorem Reachable.watchdogs_agree_with_reaping (h : m.Reachable) (now : Time) (ids : List TaskId)
    (hids : ids.Perm ((m.broker.queue.entries.filter (·.hasLapsed now)).map (·.task.id))) :
    let fired := m.broker.reclaimAll ids now
    let reaped := m.broker.reap now
    fired.queue.entries = reaped.queue.entries ∧
      fired.queue.lastId = reaped.queue.lastId ∧
      fired.queue.watchdogs = reaped.queue.watchdogs ∧
      fired.table = reaped.table ∧
      fired.metrics.expressions.count "error" = reaped.metrics.expressions.count "error" ∧
      fired.metrics.tasks.count "timed_out" + fired.metrics.tasks.count "discarded" =
        reaped.metrics.tasks.count "timed_out" + reaped.metrics.tasks.count "discarded" := by
  intro fired reaped
  have hm := h.isConsistent
  have haccountable : m.broker.IsAccountable := ⟨hm.queue, hm.table, h.isSorted⟩
  have hfired := Broker.proceeds_reclaimAll ids now m.broker
  have hreaped := Broker.proceeds_reap now m.broker
  have hshare := Broker.share_reclaimAll_eq_share_reap hm.queue hids
  have hentries := Broker.entries_eq_of_share_eq (hfired.isOrdered hm.queue)
    (hreaped.isOrdered hm.queue) hshare
  have htable := Broker.table_eq_of_share_eq (hfired.2.isNumbered hm.table)
    (hreaped.2.isNumbered hm.table) (hfired.2.lastId_eq.trans hreaped.2.lastId_eq.symm) hshare
  obtain ⟨k, hk⟩ := h.exists_watermark
  have hwatchdogs : fired.queue.watchdogs = reaped.queue.watchdogs := by
    rw [hfired.1.isGuarded h.isGuarded hm.queue hk, hreaped.1.isGuarded h.isGuarded hm.queue hk,
      hentries]
  obtain ⟨hlost, hfailures⟩ := (Broker.balances_reclaimAll haccountable ids now).counts_eq
    (Broker.balances_reap haccountable now) (congrArg List.length hentries)
    (congrArg Table.failed htable)
  have hlast : fired.queue.lastId = reaped.queue.lastId :=
    (Broker.reclaimAll_lastId ids now m.broker).trans (Broker.reap_lastId now m.broker).symm
  exact ⟨hentries, hlast, hwatchdogs, htable, hfailures, hlost⟩

/-- Three tasks of one expression are held, and two of the claims lapse. The watchdog of the second
discards the first, which reaping counts as timed out, and both discard the third. -/
theorem watchdogs_agree_with_reaping_on_siblings :
    let m := after {} [.submit "(1+2)*(3+4)+5*6" 0, .poll, .poll, .poll]
    let fired := m.broker.reclaimAll [2, 1] 2000
    let reaped := m.broker.reap 2000
    [2, 1].Perm ((m.broker.queue.entries.filter (·.hasLapsed 2000)).map (·.task.id)) ∧
      fired.table = reaped.table ∧
      fired.metrics.tasks.count "timed_out" + fired.metrics.tasks.count "discarded" =
        reaped.metrics.tasks.count "timed_out" + reaped.metrics.tasks.count "discarded" ∧
      fired.metrics.tasks.count "timed_out" = 1 ∧ reaped.metrics.tasks.count "timed_out" = 2 := by
  intro m fired reaped
  have hreachable : Reachable m := ⟨{}, _, rfl⟩
  have hids : [2, 1].Perm
      ((m.broker.queue.entries.filter (·.hasLapsed 2000)).map (·.task.id)) := by decide +kernel
  obtain ⟨_, _, _, htable, _, hlost⟩ :=
    hreachable.watchdogs_agree_with_reaping 2000 [2, 1] hids
  exact ⟨hids, htable, hlost, by decide +kernel, by decide +kernel⟩

end Moment

end Piecework
